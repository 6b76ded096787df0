import StackScript.Text.Lines
import StackScript.Token.Lexer

/-!
# Why a text is not a script

A script is refused because its text is not a sequence of tokens, or because a
token stands where it cannot, or because a name or a statement is used outside
its scope.  The wording of each cause is here, and so is the excerpt of the
source that a message shows.
-/

namespace StackScript

inductive SyntaxFault where
  /-- Something else was expected; the text says what. -/
  | expected (what : String) (found : Token)
  | expectedExpression (found : Token)
  | expectedKey (found : Token)
  | openInterpolation
  | invalidTarget
  | duplicateVariable (name : String)
  | unsettledVariable (name : String)
  | returnOutsideFunction
  | breakOutsideLoop
  | continueOutsideLoop
  deriving DecidableEq

def SyntaxFault.message : SyntaxFault -> String
  | expected what found => what ++ ", found `" ++ found.spelling ++ "`."
  | expectedExpression found => "Expected expression but found `" ++ found.spelling ++ "`."
  | expectedKey found => "Expected table key but found `" ++ found.spelling ++ "`."
  | openInterpolation => "Expected `\x7d` to close string interpolation."
  | invalidTarget => "Invalid assignment target."
  | duplicateVariable name =>
    "Scope Error: Variable `" ++ name ++ "` already exists in this scope."
  | unsettledVariable name =>
    "Reference Error: Local variable `" ++ name ++ "` referenced before assignment."
  | returnOutsideFunction => "Return Error: Outside of function."
  | breakOutsideLoop => "Break Error: Outside of loop."
  | continueOutsideLoop => "Continue Error: Outside of loop."

/-- The message about a place in a source. -/
structure Diagnosis where
  message : String
  row : Nat
  column : Nat
  script : String
  /-- The line of the source with a caret under the column. -/
  context : String
  deriving DecidableEq, Repr

namespace Diagnosis

/-- The line of the source with a caret under the column; nothing when there is no such line. -/
def contextOf (source : String) (row column : Nat) : String :=
  match Text.line? source row with
  | some line => line ++ "\n" ++ String.ofList (List.replicate column ' ') ++ "^\n"
  | none => ""

def make (message : String) (row column : Nat) (script : Option String) (source : String) :
    Diagnosis :=
  ⟨message, row, column, script.getD "<script>", contextOf source row column⟩

def render (d : Diagnosis) : String :=
  d.message ++ "\n\n" ++ d.context ++ "\nat " ++ d.script ++ ":" ++ toString (d.row + 1)

end Diagnosis

/-- Why a text is not a script. -/
inductive CompileError where
  | lex (e : LexError)
  | rejected (d : Diagnosis)
  /-- The reader ran out of its budget of recursive calls. -/
  | exhausted
  deriving DecidableEq

namespace CompileError

def message : CompileError -> String
  | lex e => e.message
  | rejected d => d.message
  | exhausted => "The script is nested too deeply."

def position : CompileError -> Nat × Nat
  | lex e => (e.row, e.column)
  | rejected d => (d.row, d.column)
  | exhausted => (0, 0)

def render : CompileError -> String
  | lex e => e.render
  | rejected d => d.render
  | exhausted => exhausted.message

end CompileError
end StackScript
