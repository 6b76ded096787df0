import StackScript.Code.Codec
import StackScript.Value.Basic

/-!
# Functions

A compiled body: instructions with the line each one comes from, the constants
they refer to, and the ranges of code that a `try` covers.
-/

namespace StackScript

/-! ## Code -/

/-- Instructions, their lines and their constants. -/
structure Code where
  instrs : Array Instr := #[]
  lines : Array Nat := #[]
  constants : Array Value := #[]
  deriving DecidableEq, Inhabited

namespace Code

def empty : Code :=
  {}

def size (c : Code) : Nat :=
  c.instrs.size

def write (c : Code) (i : Instr) (line : Nat) : Code :=
  { c with instrs := c.instrs.push i, lines := c.lines.push line }

/-- Drops every instruction from index `n` on. -/
def truncate (c : Code) (n : Nat) : Code :=
  { c with instrs := c.instrs.take n, lines := c.lines.take n }

def textIndex? (c : Code) : Value -> Option Nat
  | .text s => c.constants.findIdx? fun v => v == .text s
  | _ => none

/-- Adds a constant and gives its index; a text that is already there is used again. -/
def addConstant (c : Code) (v : Value) : Code × Nat :=
  match c.textIndex? v with
  | some k => (c, k)
  | none => ({ c with constants := c.constants.push v }, c.constants.size)

/-- The line an instruction comes from; zero past the end. -/
def line (c : Code) (ip : Nat) : Nat :=
  c.lines.getD ip 0

def encode (c : Code) : List UInt8 :=
  Codec.encode c.instrs.toList

end Code

/-! ## Try ranges -/

/-- The code that one `try` covers: the indices from `start` up to `stop`, where its handler
begins.  A handler finds `depth` values in its frame, and `next` names the range to look at
when this one does not cover an index. -/
structure TryRange where
  start : Nat
  stop : Nat
  depth : Nat
  next : Option Nat
  deriving DecidableEq, Repr, Inhabited

def TryRange.covers (r : TryRange) (ip : Nat) : Bool :=
  r.start <= ip && ip < r.stop

/-! ## Functions -/

/-- A compiled function, or the body of a script, which has no name. -/
structure Function where
  name : Option String := none
  script : Option String := none
  arity : Nat := 0
  code : Code := {}
  ranges : Array TryRange := #[]
  /-- The range to look at first. -/
  head : Option Nat := none
  deriving DecidableEq, Inhabited

namespace Function

/-- Looks through the chain of ranges from `cursor` on, at most `fuel` of them. -/
def findRangeFrom? (f : Function) (ip : Nat) : Nat -> Option Nat -> Option TryRange
  | 0, _ => none
  | _ + 1, none => none
  | fuel + 1, some i =>
    match f.ranges[i]? with
    | none => none
    | some r => if r.covers ip then some r else f.findRangeFrom? ip fuel r.next

/-- The first range of the chain that covers an index.  A chain without a cycle has at most as
many links as there are ranges. -/
def findRange? (f : Function) (ip : Nat) : Option TryRange :=
  f.findRangeFrom? ip (f.ranges.size + 1) f.head

/-- The name shown for a function: its own, or that of its script. -/
def displayName (f : Function) : String :=
  match f.name, f.script with
  | some name, _ => name
  | none, some script => script
  | none, none => "<script>"

end Function
end StackScript
