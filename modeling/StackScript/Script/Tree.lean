import StackScript.Code.Instr

/-!
# Scripts as trees

The tree of a script after its names have been resolved: a variable is a slot of
the frame or the name of a global.  Nodes carry the lines that their code comes
from, because that code is written when a later token has been read.

Functions stand outside the tree, in a table: an expression that makes one holds
its number.  What the surface language offers beyond these nodes is spelled out
in them: an interpolated string is a sum, a parenthesised expression is the
expression itself, and an `elif` is a conditional in the other branch.
-/

namespace StackScript

/-- A resolved variable. -/
inductive Variable where
  | slot (n : Nat)
  | global (name : String)
  deriving DecidableEq, Repr, Inhabited

/-- The connectives that may leave their right operand alone. -/
inductive Connective where
  | and
  | or
  deriving DecidableEq, Repr

inductive Expr where
  | literal (v : Literal) (line : Nat)
  | text (s : String) (line : Nat)
  | function (id : Nat) (line : Nat)
  | read (v : Variable) (line : Nat)
  | assign (v : Variable) (a : Expr) (line : Nat)
  /-- Compound assignment to a variable, which is read at `opLine`. -/
  | update (v : Variable) (op : Operator) (opLine : Nat) (a : Expr) (line : Nat)
  | unary (op : UnaryOp) (a : Expr) (line : Nat)
  | binary (op : BinaryOp) (a b : Expr) (line : Nat)
  | ternary (op : TernaryOp) (a b c : Expr) (line : Nat)
  | connect (op : Connective) (a : Expr) (opLine : Nat) (b : Expr)
  | call (f : Expr) (args : List Expr) (line : Nat)
  | property (o : Expr) (key : String) (line : Nat)
  | setProperty (o : Expr) (key : String) (a : Expr) (line : Nat)
  /-- Compound assignment to a property, which is read at `opLine`. -/
  | updateProperty (o : Expr) (key : String) (op : Operator) (opLine : Nat) (a : Expr)
      (line : Nat)
  /-- Compound assignment to an element, which is read at `opLine`. -/
  | updateItem (o i : Expr) (op : Operator) (opLine : Nat) (a : Expr) (line : Nat)
  | array (items : List Expr) (line : Nat)
  /-- A table; its keys and values take turns. -/
  | table (items : List Expr) (line : Nat)
  deriving Inhabited

/-- Where a statement sends a value. -/
inductive Sink where
  | print
  | echo
  deriving DecidableEq, Repr

/-- Statements. -/
inductive Stmt where
  | skip
  | seq (a b : Stmt)
  /-- Forgets so many locals. -/
  | drop (n : Nat) (line : Nat)
  | expr (e : Expr) (line : Nat)
  | output (sink : Sink) (e : Expr) (line : Nat)
  | throw (e : Expr) (line : Nat)
  | use (e : Expr) (line : Nat)
  | define (name : String) (e : Expr) (line : Nat)
  /-- Gives the next local its value. -/
  | bind (e : Expr)
  | ret (e : Expr) (line : Nat)
  /-- Leaves the innermost loop, forgetting so many locals. -/
  | leave (locals : Nat) (line : Nat)
  /-- Starts the next round of the innermost loop, forgetting so many locals. -/
  | again (locals : Nat) (line : Nat)
  | cond (c : Expr) (line : Nat) (body : Stmt) (bodyLine : Nat) (other : Stmt)
  | while (c : Expr) (line : Nat) (body : Stmt) (bodyLine : Nat)
  /-- A loop with a step of its own, which `again` goes on with. -/
  | stepping (c : Expr) (line : Nat) (jumpLine : Nat) (step : Expr) (stepLine : Nat)
      (body : Stmt) (bodyLine : Nat)
  /-- A loop over the collection in a slot. -/
  | iterate (slot vars : Nat) (line : Nat) (body : Stmt) (bodyLine : Nat)
  /-- Code that a handler follows, which finds `depth` locals. -/
  | try (depth : Nat) (body : Stmt) (bodyLine : Nat) (handler : Stmt)
  deriving Inhabited

def Stmt.ofList : List Stmt -> Stmt
  | [] => .skip
  | s :: rest => .seq s (Stmt.ofList rest)

/-- A function of a script. -/
structure Definition where
  name : String
  arity : Nat
  body : Stmt
  /-- The line of its last token. -/
  line : Nat
  deriving Inhabited

/-- A script: its functions, inner ones before the ones around them, and its own body. -/
structure Script where
  definitions : Array Definition
  body : Stmt
  /-- The line of its last token. -/
  line : Nat
  deriving Inhabited

end StackScript
