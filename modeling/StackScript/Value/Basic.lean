import StackScript.Number.Notation

/-!
# Values

What a script computes with.  Arrays, tables and functions are shared: a value
holds the number of the object and the heap holds its contents, so that two
values are the same object exactly when they hold the same number.
-/

namespace StackScript

inductive Kind where
  | none
  | bool
  | integer
  | float
  | text
  | array
  | table
  | function
  | native
  | pointer
  deriving DecidableEq, Repr, Inhabited

/-- The name of a kind, as scripts and messages show it. -/
def Kind.name : Kind -> String
  | none => "None"
  | bool => "Bool"
  | integer => "Integer"
  | float => "Float"
  | text => "String"
  | array => "Array"
  | table => "Table"
  | function => "Function"
  | native => "Native"
  | pointer => "Pointer"

/-- A value of the language. -/
inductive Value where
  | none
  | bool (b : Bool)
  | integer (n : Int64)
  | float (x : Binary64)
  | text (s : String)
  | array (id : Nat)
  | table (id : Nat)
  | function (id : Nat)
  /-- A function of the host, found by its number. -/
  | native (name : String) (id : Nat)
  /-- An object of the host that scripts can only pass around. -/
  | pointer (id : Nat)
  deriving DecidableEq, Inhabited

namespace Value

def kind : Value -> Kind
  | none => .none
  | bool _ => .bool
  | integer _ => .integer
  | float _ => .float
  | text _ => .text
  | array _ => .array
  | table _ => .table
  | function _ => .function
  | native _ _ => .native
  | pointer _ => .pointer

/-- The number a value stands for, if it is one. -/
def toBinary64? : Value -> Option Binary64
  | integer n => some (Binary64.ofInt64 n)
  | float x => some x
  | _ => Option.none

/-- Equality of the language: numbers by value, texts by their characters, objects by identity. -/
def equal : Value -> Value -> Bool
  | none, none => true
  | bool a, bool b => a == b
  | integer a, integer b => a == b
  | float a, float b => a.equal b
  | integer a, float b => (Binary64.ofInt64 a).equal b
  | float a, integer b => a.equal (Binary64.ofInt64 b)
  | text a, text b => a == b
  | array a, array b => a == b
  | table a, table b => a == b
  | function a, function b => a == b
  | native _ a, native _ b => a == b
  | pointer a, pointer b => a == b
  | _, _ => false

end Value
end StackScript
