import StackScript.Machine.Step

/-!
# Runs

A machine goes on from instruction to instruction until no call is left.  When
something is raised, control goes to the innermost call that is inside a `try`,
and the calls above it are given up; without one the run fails and the machine is
emptied.
-/

namespace StackScript

/-! ## Failed runs -/

/-- What is known of a run that nothing caught. -/
structure RuntimeError where
  /-- The text of the thrown value. -/
  message : String
  /-- The line of the instruction that failed; zero when there is none. -/
  line : Nat
  /-- One entry for each call in progress, innermost first. -/
  callStack : List String
  deriving DecidableEq, Repr

/-- The message with the calls in progress below it. -/
def RuntimeError.render (e : RuntimeError) : String :=
  e.message ++ String.join (e.callStack.map fun entry => "\n  " ++ entry)

/-- How a run stands. -/
inductive Status where
  | running
  | finished
  | failed (e : RuntimeError)
  deriving DecidableEq, Repr

namespace Machine

def lineOf (m : Machine) (f : Frame) : Nat :=
  (m.heap.function f.function).code.line (f.ip - 1)

def callEntry (m : Machine) (f : Frame) : String :=
  let function := m.heap.function f.function
  "at " ++ function.name.getD "<script>" ++ " " ++ function.script.getD "<script>" ++ ":" ++
    toString (m.lineOf f)

def report (m : Machine) (thrown : Value) : RuntimeError :=
  { message := m.heap.render thrown
    line := (m.frames.head?.map m.lineOf).getD 0
    callStack := m.frames.map m.callEntry }

/-! ## Unwinding -/

/-- The innermost of the calls that is at an instruction inside a `try`, with the range of that
`try` and the calls further out. -/
def handler? (h : Heap) : List Frame -> Option (Frame × TryRange × List Frame)
  | [] => none
  | f :: rest =>
    match (h.function f.function).findRange? (f.ip - 1) with
    | some r => some (f, r, rest)
    | none => handler? h rest

/-- The machine without anything in progress. -/
def reset (m : Machine) : Machine :=
  { m with stack := #[], frames := [] }

/-- Gives a thrown value to a handler. -/
def catchIn (m : Machine) (thrown : Value) (f : Frame) (r : TryRange) (rest : List Frame) :
    Machine :=
  { m with
    frames := { f with ip := r.stop } :: rest
    stack := (m.stack.take (f.base + r.depth)).push thrown }

/-- Gives a thrown value to the innermost handler, or fails the run. -/
def unwind (m : Machine) (thrown : Value) : Status × Machine :=
  match handler? m.heap m.frames with
  | some (f, r, rest) => (.running, m.catchIn thrown f r rest)
  | none => (.failed (m.report thrown), m.reset)

/-! ## Running -/

def fetch? (m : Machine) (f : Frame) : Option Instr :=
  (m.heap.function f.function).code.instrs[f.ip]?

/-- Carries out the instruction that was fetched, if there was one. -/
def execute : Option Instr -> Exec Unit
  | some i => Exec.step i
  | none => Exec.fail .instructionOutOfBounds

/-- The machine with the innermost call moved on to the next instruction. -/
def advance (m : Machine) : Machine :=
  match m.frames with
  | [] => m
  | f :: rest => { m with frames := { f with ip := f.ip + 1 } :: rest }

/-- One instruction and, if it raises something, the search for a handler. -/
def tick (m : Machine) : Status × Machine :=
  match m.frames with
  | [] => (.finished, m)
  | f :: _ =>
    match execute (m.fetch? f) m.advance with
    | .ok _ m => (.running, m)
    | .error raised m => m.unwind raised.toValue

/-- Runs at most so many instructions.  A machine that is still running afterwards had too few. -/
def run : Nat -> Machine -> Status × Machine
  | 0, m => (.running, m)
  | fuel + 1, m =>
    match m.tick with
    | (.running, m) => run fuel m
    | done => done

/-- The script that the next instruction is going to import. -/
def pendingImport? (m : Machine) : Option String :=
  match m.frames.head?.bind m.fetch?, m.stack.back? with
  | some .use, some (.text target) => some target
  | _, _ => none

/-- Opens the outermost call of a script whose body has the given number. -/
def begin (m : Machine) (function : Nat) : Machine :=
  { m with
    stack := m.stack.push (.function function)
    frames := ⟨function, 0, m.stack.size⟩ :: m.frames }

end Machine
end StackScript
