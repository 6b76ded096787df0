/-!
# Operations of the language

The names of what an expression can do to its operands, shared by tokens,
expressions and instructions.  Ten operators have a compound assignment of their
own, six compare, and the builtin forms are written like calls.
-/

namespace StackScript

/-- The operators that also have a compound assignment, such as `+` and `+=`. -/
inductive Operator where
  | add
  | subtract
  | multiply
  | divide
  | modulo
  | bitAnd
  | bitOr
  | bitXor
  | shiftLeft
  | shiftRight
  deriving DecidableEq, Repr, Inhabited

namespace Operator

def all : List Operator :=
  [add, subtract, multiply, divide, modulo, bitAnd, bitOr, bitXor, shiftLeft, shiftRight]

def symbol : Operator -> String
  | add => "+"
  | subtract => "-"
  | multiply => "*"
  | divide => "/"
  | modulo => "%"
  | bitAnd => "&"
  | bitOr => "|"
  | bitXor => "^"
  | shiftLeft => "<<"
  | shiftRight => ">>"

end Operator

/-- The operators that answer with a truth value. -/
inductive Comparison where
  | equal
  | notEqual
  | less
  | lessEqual
  | greater
  | greaterEqual
  deriving DecidableEq, Repr, Inhabited

namespace Comparison

def all : List Comparison :=
  [equal, notEqual, less, lessEqual, greater, greaterEqual]

def symbol : Comparison -> String
  | equal => "=="
  | notEqual => "!="
  | less => "<"
  | lessEqual => "<="
  | greater => ">"
  | greaterEqual => ">="

end Comparison

inductive UnaryOp where
  | negate
  | bitNot
  | not
  | pop
  | len
  | keys
  | clear
  | copy
  | type
  | toInteger
  | toFloat
  | toText
  deriving DecidableEq, Repr, Inhabited

inductive BinaryOp where
  | arith (op : Operator)
  | compare (c : Comparison)
  | get
  | push
  | delete
  | has
  | index
  deriving DecidableEq, Repr, Inhabited

inductive TernaryOp where
  | set
  | insert
  | slice
  deriving DecidableEq, Repr, Inhabited

/-- Operations that are written like calls, each with a fixed number of arguments. -/
inductive Builtin where
  | len
  | keys
  | has
  | delete
  | insert
  | copy
  | clear
  | index
  | push
  | pop
  | toFloat
  | toInteger
  | toText
  | type
  deriving DecidableEq, Repr, Inhabited

namespace Builtin

def all : List Builtin :=
  [len, keys, has, delete, insert, copy, clear, index, push, pop, toFloat, toInteger, toText, type]

def word : Builtin -> String
  | len => "len"
  | keys => "keys"
  | has => "exists"
  | delete => "delete"
  | insert => "insert"
  | copy => "copy"
  | clear => "clear"
  | index => "index"
  | push => "push"
  | pop => "pop"
  | toFloat => "to_float"
  | toInteger => "to_integer"
  | toText => "to_string"
  | type => "type"

/-- The operation a form performs, which also says how many arguments it takes. -/
inductive Form where
  | unary (op : UnaryOp)
  | binary (op : BinaryOp)
  | ternary (op : TernaryOp)
  deriving DecidableEq, Repr

def Form.arity : Form -> Nat
  | .unary _ => 1
  | .binary _ => 2
  | .ternary _ => 3

def form : Builtin -> Form
  | len => .unary .len
  | keys => .unary .keys
  | has => .binary .has
  | delete => .binary .delete
  | insert => .ternary .insert
  | copy => .unary .copy
  | clear => .unary .clear
  | index => .binary .index
  | push => .binary .push
  | pop => .unary .pop
  | toFloat => .unary .toFloat
  | toInteger => .unary .toInteger
  | toText => .unary .toText
  | type => .unary .type

def arity (b : Builtin) : Nat :=
  b.form.arity

def ofWord? (s : String) : Option Builtin :=
  all.find? fun b => b.word == s

end Builtin
end StackScript
