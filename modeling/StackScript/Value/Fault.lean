import StackScript.Value.Basic

/-!
# Faults

What can go wrong while a script runs.  A fault is thrown as a text, so a script
can catch it like any other value; the cause is kept apart from the wording.
-/

namespace StackScript

/-- Why an operation failed. -/
inductive Fault where
  | unsupported (operation : String) (a b : Kind)
  | expected (operation : String) (what : String) (found : Kind)
  | divisionByZero (operation : String)
  | indexOutOfBounds (index : Int64) (size : Nat)
  | keyNotFound (key : String)
  | undefinedVariable (name : String)
  | castToInteger (found : Kind)
  | castToFloat (found : Kind)
  | notCallable (found : Kind)
  | wrongArity (arity found : Nat)
  | unknownNative (name : String)
  | stackOverflow
  | importNotFound (target : String) (tried : List String)
  | importUnreadable (path reason : String)
  | importRejected (text : String)
  /-- Code took more values than there were. -/
  | stackUnderflow
  | instructionOutOfBounds
  | constantOutOfRange (k : Nat)
  | jumpBeforeStart
  | noActiveFrame
  deriving DecidableEq, Repr

namespace Fault

def message : Fault -> String
  | unsupported operation a b =>
    operation ++ ": Operation not supported for `" ++ a.name ++ "` and `" ++ b.name ++ "`."
  | expected operation what found =>
    operation ++ ": Expected " ++ what ++ ", but was `" ++ found.name ++ "`."
  | divisionByZero operation => operation ++ ": Division by zero."
  | indexOutOfBounds index size =>
    "Index out of bounds: " ++ toString index.toInt ++ " for length " ++ toString size ++ "."
  | keyNotFound key => "Key not found: `" ++ key ++ "`."
  | undefinedVariable name => "Undefined variable `" ++ name ++ "`."
  | castToInteger found => "Can't cast `" ++ found.name ++ "` to an integer."
  | castToFloat found => "Can't cast `" ++ found.name ++ "` to a float."
  | notCallable found => "Call: Requires Function, but was " ++ found.name ++ "."
  | wrongArity arity found =>
    "Expected " ++ toString arity ++ " function arguments but found " ++ toString found ++ "."
  | unknownNative name => "Unknown native function `" ++ name ++ "`."
  | stackOverflow => "Stack overflow."
  | importNotFound target tried =>
    "Import not found: " ++ target ++ "\n  " ++ "\n  ".intercalate tried
  | importUnreadable path reason => "Import failed: " ++ path ++ ": " ++ reason
  | importRejected text => text
  | stackUnderflow => "Stack underflow."
  | instructionOutOfBounds => "Instruction pointer out of bounds."
  | constantOutOfRange k => "Constant " ++ toString k ++ " out of range."
  | jumpBeforeStart => "Jump before start of function."
  | noActiveFrame => "No active frame."

def value (f : Fault) : Value :=
  .text f.message

end Fault
end StackScript
