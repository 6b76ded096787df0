import StackScript.Files.Basic
import StackScript.Value.Collection

/-!
# The stack machine

A machine has one stack for all calls in progress.  Each call has a frame: the
function, the index of the next instruction, and the place of its first slot,
which holds the called value.  What happens inside a machine is either completed
or ends in something raised, and what was done up to there stays done.
-/

namespace StackScript

/-- Something raised: a fault of the machine, or a value that a script or the host throws. -/
inductive Raised where
  | fault (f : Fault)
  | value (v : Value)
  deriving DecidableEq

/-- The value that a handler receives. -/
def Raised.toValue : Raised -> Value
  | fault f => f.value
  | value v => v

/-- The limits that calls are held to. -/
structure Limits where
  /-- A call needs fewer frames than this. -/
  frames : Nat := 256
  /-- A call needs fewer values on the stack than this. -/
  slots : Nat := 65536
  deriving DecidableEq, Repr, Inhabited

structure Frame where
  /-- The number of the function. -/
  function : Nat
  /-- The index of the next instruction. -/
  ip : Nat
  /-- The place on the stack of slot zero. -/
  base : Nat
  deriving DecidableEq, Repr, Inhabited

/-- A function of the host: it returns a value or throws one. -/
abbrev Native :=
  Heap -> Array Value -> Except Value Value × Heap

/-- The state of a machine.  The frame of the innermost call comes first. -/
structure Machine where
  limits : Limits := {}
  files : Files := Files.empty
  natives : Array Native := #[]
  heap : Heap := {}
  globals : Table := {}
  stack : Array Value := #[]
  frames : List Frame := []
  output : String := ""
  deriving Inhabited

/-- A piece of a run. -/
abbrev Exec :=
  EStateM Raised Machine

namespace Exec

def fail {α : Type} (f : Fault) : Exec α :=
  throw (.fault f)

/-! ## The stack -/

def push (v : Value) : Exec Unit :=
  modify fun m => { m with stack := m.stack.push v }

def pop : Exec Value := do
  let m ← get
  match m.stack.back? with
  | some v =>
    set { m with stack := m.stack.pop }
    return v
  | none => fail .stackUnderflow

/-- The value so far below the topmost one. -/
def peek (distance : Nat) : Exec Value := do
  let m ← get
  if distance < m.stack.size then
    return m.stack.getD (m.stack.size - 1 - distance) .none
  else
    fail .stackUnderflow

/-- Takes so many values, the lowest first. -/
def popMany (n : Nat) : Exec (Array Value) := do
  let m ← get
  if n <= m.stack.size then
    let start := m.stack.size - n
    set { m with stack := m.stack.take start }
    return m.stack.drop start
  else
    fail .stackUnderflow

/-! ## The innermost frame -/

def frame : Exec Frame := do
  match (← get).frames with
  | f :: _ => return f
  | [] => fail .noActiveFrame

/-- Lets the innermost call go on at an index. -/
def goTo (ip : Nat) : Exec Unit :=
  modify fun m =>
    match m.frames with
    | f :: rest => { m with frames := { f with ip := ip } :: rest }
    | [] => m

def jumpForward (offset : Nat) : Exec Unit := do
  let f ← frame
  goTo (f.ip + offset)

/-- Jumps backwards, but not past the first instruction. -/
def jumpBack (offset : Nat) : Exec Unit := do
  let f ← frame
  if offset <= f.ip then goTo (f.ip - offset) else fail .jumpBeforeStart

def getLocal (slot : Nat) : Exec Value := do
  let f ← frame
  match (← get).stack[f.base + slot]? with
  | some v => return v
  | none => fail .stackUnderflow

def setLocal (slot : Nat) (v : Value) : Exec Unit := do
  let f ← frame
  let m ← get
  if f.base + slot < m.stack.size then
    set { m with stack := m.stack.setIfInBounds (f.base + slot) v }
  else
    fail .stackUnderflow

/-! ## Constants -/

/-- A constant of the function that is being run. -/
def constant (k : Nat) : Exec Value := do
  let f ← frame
  match ((← get).heap.function f.function).code.constants[k]? with
  | some v => return v
  | none => fail (.constantOutOfRange k)

/-- A constant that has to be a name. -/
def name (k : Nat) : Exec String := do
  match ← constant k with
  | .text s => return s
  | v => fail (.expected "Name" "`String`" v.kind)

/-! ## The heap and the output -/

/-- Performs an operation on the heap. -/
def perform (operation : Heap -> Answer) : Exec Value := do
  let m ← get
  match operation m.heap with
  | .ok v h =>
    set { m with heap := h }
    return v
  | .error f h =>
    set { m with heap := h }
    fail f

def allocate (new : Heap -> Value × Heap) : Exec Value :=
  modifyGet fun m =>
    let (v, h) := new m.heap
    (v, { m with heap := h })

def write (s : String) : Exec Unit :=
  modify fun m => { m with output := m.output ++ s }

end Exec
end StackScript
