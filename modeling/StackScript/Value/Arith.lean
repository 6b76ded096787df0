import StackScript.Value.Fault
import StackScript.Value.Render

/-!
# Arithmetic and comparison

Integers have 64 bits and wrap around.  An integer beside a float becomes the
nearest float.  Adding to a text appends the text of the other operand.  Division
always answers with a float.
-/

namespace StackScript

/-! ## Arithmetic -/

namespace Operator

def label : Operator -> String
  | add => "Add"
  | subtract => "Subtract"
  | multiply => "Multiply"
  | divide => "Divide"
  | modulo => "Modulo"
  | bitAnd => "Bit And"
  | bitOr => "Bit Or"
  | bitXor => "Bit Xor"
  | shiftLeft => "Bit Left Shift"
  | shiftRight => "Bit Right Shift"

/-- The operation on the bits of integers, for the operators that have no other. -/
def bits? : Operator -> Option (Int64 -> Int64 -> Int64)
  | bitAnd => some (· &&& ·)
  | bitOr => some (· ||| ·)
  | bitXor => some (· ^^^ ·)
  | shiftLeft => some (· <<< ·)
  | shiftRight => some (· >>> ·)
  | _ => none

end Operator

namespace Value

def unsupported (operation : String) (a b : Value) : Fault :=
  .unsupported operation a.kind b.kind

def floatOp (operation : String) (f : Binary64 -> Binary64 -> Binary64) (a b : Value) :
    Except Fault Value :=
  match a.toBinary64?, b.toBinary64? with
  | some x, some y => .ok (.float (f x y))
  | _, _ => .error (unsupported operation a b)

/-- The sum of two values, or their texts one after the other. -/
def add (h : Heap) : Value -> Value -> Except Fault Value
  | .text s, b => .ok (.text (s ++ h.render b))
  | a, .text s => .ok (.text (h.render a ++ s))
  | .integer x, .integer y => .ok (.integer (x + y))
  | a, b => floatOp Operator.add.label Binary64.add a b

def subtract : Value -> Value -> Except Fault Value
  | .integer x, .integer y => .ok (.integer (x - y))
  | a, b => floatOp Operator.subtract.label Binary64.sub a b

def multiply : Value -> Value -> Except Fault Value
  | .integer x, .integer y => .ok (.integer (x * y))
  | a, b => floatOp Operator.multiply.label Binary64.mul a b

/-- The quotient of two values, which is a float. -/
def divide (a b : Value) : Except Fault Value :=
  match a.toBinary64?, b.toBinary64? with
  | some x, some y =>
    if y.isZero then .error (.divisionByZero Operator.divide.label) else .ok (.float (x.div y))
  | _, _ => .error (unsupported Operator.divide.label a b)

/-- The remainder of two integers, with the sign of the first. -/
def modulo : Value -> Value -> Except Fault Value
  | .integer x, .integer y =>
    if y = 0 then .error (.divisionByZero Operator.modulo.label) else .ok (.integer (x % y))
  | a, b => .error (unsupported Operator.modulo.label a b)

def negate : Value -> Except Fault Value
  | .integer n => .ok (.integer (-n))
  | .float x => .ok (.float x.neg)
  | a => .error (.expected "Negate" "`Integer` or `Float`" a.kind)

/-- The integer with all bits turned over. -/
def bitNot : Value -> Except Fault Value
  | .integer n => .ok (.integer (~~~n))
  | a => .error (.expected "Bit Not" "`Integer`" a.kind)

end Value

/-! ## Instructions that work on bits or on order

These two take any instruction.  One that they do not know fails like one whose
operands do not fit, under its mnemonic.
-/

namespace Instr

/-- The operation of an instruction on the bits of integers. -/
def bits? : Instr -> Option (Int64 -> Int64 -> Int64)
  | binary (.arith op) => op.bits?
  | _ => Option.none

/-- What an instruction asks of the order of its operands. -/
def order? : Instr -> Option (Ordering -> Bool)
  | binary (.compare .less) => some Ordering.isLT
  | binary (.compare .lessEqual) => some Ordering.isLE
  | binary (.compare .greater) => some Ordering.isGT
  | binary (.compare .greaterEqual) => some Ordering.isGE
  | _ => Option.none

/-- The name in messages of an instruction that works on bits or on order. -/
def label (i : Instr) : String :=
  match i with
  | binary (.arith op) => if op.bits?.isSome then op.label else i.mnemonic
  | binary (.compare .less) => "Less"
  | binary (.compare .lessEqual) => "Less Equal"
  | binary (.compare .greater) => "Greater"
  | binary (.compare .greaterEqual) => "Greater Equal"
  | _ => i.mnemonic

end Instr

namespace Value

/-- The answer of an instruction that works on the bits of two integers. -/
def bitwise (i : Instr) (a b : Value) : Except Fault Value :=
  match a, b, i.bits? with
  | .integer x, .integer y, some f => .ok (.integer (f x y))
  | _, _, _ => .error (unsupported i.label a b)

/-- The order of two texts or of two numbers; `some none` when a NaN has no order. -/
def order? : Value -> Value -> Option (Option Ordering)
  | .text a, .text b => some (some (compare a b))
  | a, b =>
    match a.toBinary64?, b.toBinary64? with
    | some x, some y => some (x.compare? y)
    | _, _ => Option.none

/-- The answer of an instruction that asks for the order of two values.  Where there is no order
the answer is no. -/
def ordered (i : Instr) (a b : Value) : Except Fault Value :=
  match order? a b, i.order? with
  | some Option.none, _ => .ok (.bool false)
  | some (some o), some test => .ok (.bool (test o))
  | _, _ => .error (unsupported i.label a b)

end Value

/-! ## Operators on values -/

def Operator.apply (h : Heap) (op : Operator) (a b : Value) : Except Fault Value :=
  match op with
  | add => a.add h b
  | subtract => a.subtract b
  | multiply => a.multiply b
  | divide => a.divide b
  | modulo => a.modulo b
  | _ => Value.bitwise (.binary (.arith op)) a b

def Comparison.apply (c : Comparison) (a b : Value) : Except Fault Value :=
  match c with
  | equal => .ok (.bool (a.equal b))
  | notEqual => .ok (.bool (!a.equal b))
  | _ => Value.ordered (.binary (.compare c)) a b

end StackScript
