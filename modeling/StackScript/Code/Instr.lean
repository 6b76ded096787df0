import StackScript.Number.Binary64
import StackScript.Operation

/-!
# Instructions

The instructions of the stack machine.  An instruction has its operands inline:
indices into the constant pool, slots of the frame, counts and jump offsets.  A
jump offset counts from the instruction behind the jump.

Each instruction has a number and a mnemonic.  The numbers are part of the
binary format, the mnemonics of the listing.
-/

namespace StackScript

/-- The constants that an instruction carries itself. -/
inductive Literal where
  | none
  | bool (b : Bool)
  | int (n : Int64)
  | float (x : Binary64)
  deriving DecidableEq, Inhabited

/-- One instruction of the stack machine. -/
inductive Instr where
  /-- Push a constant of the pool. -/
  | constant (k : Nat)
  | literal (v : Literal)
  | pop
  | duplicate
  /-- Push the two topmost values once more. -/
  | duplicatePair
  | unary (op : UnaryOp)
  | binary (op : BinaryOp)
  | ternary (op : TernaryOp)
  | defineGlobal (k : Nat)
  | getGlobal (k : Nat)
  | setGlobal (k : Nat)
  | getLocal (slot : Nat)
  | setLocal (slot : Nat)
  /-- Add an integer to a local and push the sum. -/
  | increment (slot : Nat) (n : Int64)
  | getProperty (k : Nat)
  | setProperty (k : Nat)
  /-- Pop so many values into a new array. -/
  | newArray (n : Nat)
  /-- Pop so many keys and values into a new table. -/
  | newTable (n : Nat)
  | jump (offset : Nat)
  /-- Jump if the topmost value is falsy; it stays. -/
  | jumpIfFalse (offset : Nat)
  /-- Jump if the topmost value is truthy; it stays. -/
  | jumpIfTrue (offset : Nat)
  /-- Jump backwards. -/
  | loop (offset : Nat)
  /-- Begin to iterate over the local `slot`; jump if there is nothing to iterate over. -/
  | forBegin (slot vars offset : Nat)
  /-- Go on iterating; jump backwards while items remain. -/
  | forNext (slot vars offset : Nat)
  /-- Call the value below so many arguments. -/
  | call (n : Nat)
  | ret
  | throw
  | print
  | echo
  | use
  deriving DecidableEq, Inhabited

namespace Instr

/-! ## Mnemonics -/

def literalMnemonic : Literal -> String
  | .none => "NONE"
  | .bool true => "TRUE"
  | .bool false => "FALSE"
  | .int _ => "INT"
  | .float _ => "FLOAT"

def unaryMnemonic : UnaryOp -> String
  | .negate => "NEGATE"
  | .bitNot => "BIT_NOT"
  | .not => "NOT"
  | .pop => "ARRAY_POP"
  | .len => "LEN"
  | .keys => "KEYS"
  | .clear => "CLEAR"
  | .copy => "COPY"
  | .type => "TYPE"
  | .toInteger => "TO_INTEGER"
  | .toFloat => "TO_FLOAT"
  | .toText => "TO_STRING"

def binaryMnemonic : BinaryOp -> String
  | .arith .add => "ADD"
  | .arith .subtract => "SUBTRACT"
  | .arith .multiply => "MULTIPLY"
  | .arith .divide => "DIVIDE"
  | .arith .modulo => "MODULO"
  | .arith .bitAnd => "BIT_AND"
  | .arith .bitOr => "BIT_OR"
  | .arith .bitXor => "BIT_XOR"
  | .arith .shiftLeft => "BIT_LEFT_SHIFT"
  | .arith .shiftRight => "BIT_RIGHT_SHIFT"
  | .compare .equal => "EQUAL"
  | .compare .notEqual => "NOT_EQUAL"
  | .compare .less => "LESS"
  | .compare .lessEqual => "LESS_EQUAL"
  | .compare .greater => "GREATER"
  | .compare .greaterEqual => "GREATER_EQUAL"
  | .get => "GET_DYNAMIC"
  | .push => "ARRAY_PUSH"
  | .delete => "DELETE"
  | .has => "EXISTS"
  | .index => "INDEX"

def ternaryMnemonic : TernaryOp -> String
  | .set => "SET_DYNAMIC"
  | .insert => "ARRAY_INSERT"
  | .slice => "SLICE"

def mnemonic : Instr -> String
  | constant _ => "CONSTANT"
  | literal v => literalMnemonic v
  | pop => "POP"
  | duplicate => "DUPLICATE"
  | duplicatePair => "DUPLICATE_PAIR"
  | unary op => unaryMnemonic op
  | binary op => binaryMnemonic op
  | ternary op => ternaryMnemonic op
  | defineGlobal _ => "DEFINE_GLOBAL"
  | getGlobal _ => "GET_GLOBAL"
  | setGlobal _ => "SET_GLOBAL"
  | getLocal _ => "GET_LOCAL"
  | setLocal _ => "SET_LOCAL"
  | increment _ _ => "INCREMENT_LOCAL_AND_SET"
  | getProperty _ => "GET_PROPERTY"
  | setProperty _ => "SET_PROPERTY"
  | newArray _ => "NEW_ARRAY"
  | newTable _ => "NEW_TABLE"
  | jump _ => "JUMP"
  | jumpIfFalse _ => "JUMP_IF_FALSE"
  | jumpIfTrue _ => "JUMP_IF_TRUE"
  | loop _ => "LOOP"
  | forBegin _ _ _ => "FOR"
  | forNext _ _ _ => "FOR_LOOP"
  | call _ => "CALL"
  | ret => "RETURN"
  | throw => "THROW"
  | print => "PRINT"
  | echo => "ECHO"
  | use => "USE"

/-! ## Numbers and operands -/

/-- One operand of an instruction. -/
inductive Operand where
  | index (n : Nat)
  | int (n : Int64)
  | float (x : Binary64)
  deriving DecidableEq

/-- The operands of an instruction, in the order of the binary format. -/
def operands : Instr -> List Operand
  | constant k | defineGlobal k | getGlobal k | setGlobal k | getProperty k | setProperty k =>
    [.index k]
  | literal (.int n) => [.int n]
  | literal (.float x) => [.float x]
  | getLocal slot | setLocal slot => [.index slot]
  | increment slot n => [.index slot, .int n]
  | newArray n | newTable n | call n => [.index n]
  | jump offset | jumpIfFalse offset | jumpIfTrue offset | loop offset => [.index offset]
  | forBegin slot vars offset | forNext slot vars offset =>
    [.index slot, .index vars, .index offset]
  | _ => []

/-- How an instruction is put together from its operands. -/
inductive Shape where
  | plain (i : Instr)
  | index (make : Nat -> Instr)
  | int (make : Int64 -> Instr)
  | float (make : Binary64 -> Instr)
  | indexInt (make : Nat -> Int64 -> Instr)
  | indices (make : Nat -> Nat -> Nat -> Instr)

/-- The instruction of a shape whose operands are all zero. -/
def Shape.sample : Shape -> Instr
  | .plain i => i
  | .index make => make 0
  | .int make => make 0
  | .float make => make Binary64.zero
  | .indexInt make => make 0 0
  | .indices make => make 0 0 0

def shape? : Nat -> Option Shape
  | 0 => some (.index constant)
  | 1 => some (.plain (literal .none))
  | 2 => some (.plain (literal (.bool true)))
  | 3 => some (.plain (literal (.bool false)))
  | 4 => some (.int fun n => literal (.int n))
  | 5 => some (.float fun x => literal (.float x))
  | 6 => some (.plain pop)
  | 7 => some (.plain duplicate)
  | 8 => some (.plain duplicatePair)
  | 9 => some (.plain (binary (.arith .add)))
  | 10 => some (.plain (binary (.arith .subtract)))
  | 11 => some (.plain (binary (.arith .multiply)))
  | 12 => some (.plain (binary (.arith .divide)))
  | 13 => some (.plain (binary (.arith .modulo)))
  | 14 => some (.plain (unary .negate))
  | 15 => some (.plain (binary (.arith .bitAnd)))
  | 16 => some (.plain (binary (.arith .bitOr)))
  | 17 => some (.plain (binary (.arith .bitXor)))
  | 18 => some (.plain (binary (.arith .shiftLeft)))
  | 19 => some (.plain (binary (.arith .shiftRight)))
  | 20 => some (.plain (unary .bitNot))
  | 21 => some (.plain (unary .not))
  | 22 => some (.plain (binary (.compare .equal)))
  | 23 => some (.plain (binary (.compare .notEqual)))
  | 24 => some (.plain (binary (.compare .less)))
  | 25 => some (.plain (binary (.compare .lessEqual)))
  | 26 => some (.plain (binary (.compare .greater)))
  | 27 => some (.plain (binary (.compare .greaterEqual)))
  | 28 => some (.index defineGlobal)
  | 29 => some (.index getGlobal)
  | 30 => some (.index setGlobal)
  | 31 => some (.index getLocal)
  | 32 => some (.index setLocal)
  | 33 => some (.indexInt increment)
  | 34 => some (.plain (binary .get))
  | 35 => some (.plain (ternary .set))
  | 36 => some (.index getProperty)
  | 37 => some (.index setProperty)
  | 38 => some (.index newArray)
  | 39 => some (.index newTable)
  | 40 => some (.plain (binary .push))
  | 41 => some (.plain (unary .pop))
  | 42 => some (.plain (ternary .insert))
  | 43 => some (.plain (binary .delete))
  | 44 => some (.plain (unary .len))
  | 45 => some (.plain (unary .keys))
  | 46 => some (.plain (binary .has))
  | 47 => some (.plain (binary .index))
  | 48 => some (.plain (ternary .slice))
  | 49 => some (.plain (unary .clear))
  | 50 => some (.plain (unary .copy))
  | 51 => some (.index jump)
  | 52 => some (.index jumpIfFalse)
  | 53 => some (.index jumpIfTrue)
  | 54 => some (.index loop)
  | 55 => some (.indices forBegin)
  | 56 => some (.indices forNext)
  | 57 => some (.index call)
  | 58 => some (.plain ret)
  | 59 => some (.plain throw)
  | 60 => some (.plain print)
  | 61 => some (.plain echo)
  | 62 => some (.plain (unary .type))
  | 63 => some (.plain use)
  | 64 => some (.plain (unary .toInteger))
  | 65 => some (.plain (unary .toFloat))
  | 66 => some (.plain (unary .toText))
  | _ => none

def count : Nat :=
  67

def unaryNumber : UnaryOp -> Nat
  | .negate => 14
  | .bitNot => 20
  | .not => 21
  | .pop => 41
  | .len => 44
  | .keys => 45
  | .clear => 49
  | .copy => 50
  | .type => 62
  | .toInteger => 64
  | .toFloat => 65
  | .toText => 66

def binaryNumber : BinaryOp -> Nat
  | .arith .add => 9
  | .arith .subtract => 10
  | .arith .multiply => 11
  | .arith .divide => 12
  | .arith .modulo => 13
  | .arith .bitAnd => 15
  | .arith .bitOr => 16
  | .arith .bitXor => 17
  | .arith .shiftLeft => 18
  | .arith .shiftRight => 19
  | .compare .equal => 22
  | .compare .notEqual => 23
  | .compare .less => 24
  | .compare .lessEqual => 25
  | .compare .greater => 26
  | .compare .greaterEqual => 27
  | .get => 34
  | .push => 40
  | .delete => 43
  | .has => 46
  | .index => 47

def ternaryNumber : TernaryOp -> Nat
  | .set => 35
  | .insert => 42
  | .slice => 48

/-- The number of an instruction in the binary format. -/
def number : Instr -> Nat
  | constant _ => 0
  | literal .none => 1
  | literal (.bool true) => 2
  | literal (.bool false) => 3
  | literal (.int _) => 4
  | literal (.float _) => 5
  | pop => 6
  | duplicate => 7
  | duplicatePair => 8
  | unary op => unaryNumber op
  | binary op => binaryNumber op
  | ternary op => ternaryNumber op
  | defineGlobal _ => 28
  | getGlobal _ => 29
  | setGlobal _ => 30
  | getLocal _ => 31
  | setLocal _ => 32
  | increment _ _ => 33
  | getProperty _ => 36
  | setProperty _ => 37
  | newArray _ => 38
  | newTable _ => 39
  | jump _ => 51
  | jumpIfFalse _ => 52
  | jumpIfTrue _ => 53
  | loop _ => 54
  | forBegin _ _ _ => 55
  | forNext _ _ _ => 56
  | call _ => 57
  | ret => 58
  | throw => 59
  | print => 60
  | echo => 61
  | use => 63

def shapeOfMnemonic? (name : String) : Option Shape :=
  (List.range count).findSome? fun n =>
    (shape? n).filter fun s => s.sample.mnemonic == name

/-! ## Jumps -/

/-- Where a jump at index `ip` leads, if the instruction is a jump and stays in the code. -/
def jumpTarget? (ip : Nat) : Instr -> Option Nat
  | jump offset | jumpIfFalse offset | jumpIfTrue offset | forBegin _ _ offset =>
    some (ip + 1 + offset)
  | loop offset | forNext _ _ offset =>
    if offset <= ip + 1 then some (ip + 1 - offset) else none
  | _ => none

end Instr
end StackScript
