/-!
# Scopes

The locals of one function, newest first.  A local's slot is the number of locals
below it; slot zero holds the function itself.  A block is the run of locals of
one depth, so leaving a block forgets the locals that are deeper than the block
around it.  A local has no depth while its value is still being computed.
-/

namespace StackScript

structure Local where
  name : String
  /-- `none` while the value is still being computed. -/
  depth : Option Nat
  deriving DecidableEq, Repr

def Local.deeper (l : Local) (depth : Nat) : Bool :=
  match l.depth with
  | none => true
  | some d => depth < d

def Local.outside (l : Local) (depth : Nat) : Bool :=
  match l.depth with
  | none => false
  | some d => d < depth

/-- The locals of a function, newest first, and the depth of the current block. -/
structure Scope where
  locals : List Local
  depth : Nat
  deriving DecidableEq, Repr

/-- What a name stands for inside a function. -/
inductive Resolution where
  | slot (n : Nat)
  /-- A local whose value is still being computed. -/
  | unsettled
  /-- No local of this function. -/
  | global
  deriving DecidableEq, Repr

namespace Scope

/-- The scope of a script, whose outermost variables are global. -/
def script : Scope :=
  ⟨[⟨"", some 0⟩], 0⟩

/-- The scope of a function, whose parameters and outermost variables are local. -/
def function : Scope :=
  ⟨[⟨"", some 0⟩], 1⟩

/-- The number of locals, which is the slot of the next one. -/
def size (s : Scope) : Nat :=
  s.locals.length

def enter (s : Scope) : Scope :=
  { s with depth := s.depth + 1 }

def above (s : Scope) (depth : Nat) : Nat :=
  (s.locals.takeWhile fun l => l.deeper depth).length

/-- Leaves a block and forgets its locals. -/
def exit (s : Scope) : Scope :=
  { locals := s.locals.drop (s.above (s.depth - 1)), depth := s.depth - 1 }

def declares (s : Scope) (name : String) : Bool :=
  (s.locals.takeWhile fun l => !l.outside s.depth).any fun l => l.name == name

/-- Adds a local whose value is still to be computed, unless the block has one of this name. -/
def declare? (s : Scope) (name : String) : Option Scope :=
  if s.declares name then none else some { s with locals := ⟨name, none⟩ :: s.locals }

/-- The newest local has its value now. -/
def settle (s : Scope) : Scope :=
  match s.locals with
  | [] => s
  | l :: rest => { s with locals := { l with depth := some s.depth } :: rest }

/-- Adds a local that no name of a script can reach. -/
def hide (s : Scope) (name : String) : Scope :=
  { s with locals := ⟨name, some s.depth⟩ :: s.locals }

/-- Looks a name up, newest local first. -/
def resolveIn (name : String) : List Local -> Resolution
  | [] => .global
  | l :: rest =>
    if l.name = name then
      match l.depth with
      | none => .unsettled
      | some _ => .slot rest.length
    else
      resolveIn name rest

def resolve (s : Scope) (name : String) : Resolution :=
  resolveIn name s.locals

end Scope
end StackScript
