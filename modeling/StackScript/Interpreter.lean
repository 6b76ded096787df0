import StackScript.Listing
import StackScript.Machine.Run

/-!
# The interpreter

An interpreter compiles scripts and runs them one after the other on one machine.
Globals, imports and everything on the heap last from run to run; the stack does
not.  It remembers the message of the last run if that failed.
-/

namespace StackScript

inductive Failure where
  | compile (e : CompileError)
  | runtime (e : RuntimeError)
  | file (path : String) (e : FileError)
  /-- The budget of instructions was spent. -/
  | unfinished
  deriving DecidableEq

def Failure.render : Failure -> String
  | compile e => e.render
  | runtime e => e.render
  | file path e => path ++ ": " ++ e.message
  | unfinished => "The script did not finish."

/-- A machine and the message of its last run. -/
structure Interpreter where
  machine : Machine
  /-- The message of the last run, if it failed. -/
  error : Option String
  deriving Inhabited

namespace Interpreter

def new (limits : Limits) (files : Files) : Interpreter :=
  let (paths, heap) := Heap.empty.newArray (Import.defaultTemplates.map Value.text).toArray
  let (imports, heap) := heap.newArray #[]
  let globals := (({} : Table).insert Import.pathsName paths).insert Import.importsName imports
  ⟨{ limits := limits, files := files, heap := heap, globals := globals }, none⟩

def addNative (i : Interpreter) (name : String) (native : Native) : Interpreter :=
  let m := i.machine
  { i with
    machine :=
      { m with
        natives := m.natives.push native
        globals := m.globals.insert name (.native name m.natives.size) } }

def global? (i : Interpreter) (name : String) : Option Value :=
  i.machine.globals[name]?

def depth (i : Interpreter) : Nat :=
  i.machine.stack.size

/-! ## Runs -/

/-- Compiles a script and opens its outermost call; `listing` says whether the code is shown
first. -/
def load (m : Machine) (script : Option String) (source : String) (listing : Bool) :
    Except CompileError Machine := do
  let (id, h) ← m.heap.compile script source
  let shown := if listing then h.listing (h.function id) else ""
  return { m with heap := h, output := m.output ++ shown }.begin id

def failureOf? : Status -> Option Failure
  | .running => some .unfinished
  | .finished => none
  | .failed e => some (.runtime e)

/-- The interpreter after a run. -/
def conclude (m : Machine) (failure : Option Failure) : Option Failure × Interpreter :=
  (failure, ⟨m, failure.map Failure.render⟩)

/-- Compiles and runs a script, for at most `fuel` instructions. -/
def interpret (fuel : Nat) (script : Option String) (source : String) (listing : Bool)
    (i : Interpreter) : Option Failure × Interpreter :=
  match load i.machine script source listing with
  | .error e => conclude i.machine (some (.compile e))
  | .ok m =>
    let (status, m) := m.run fuel
    conclude m (failureOf? status)

/-- Reads a script from a file and runs it.  A file that cannot be read starts no run. -/
def interpretFile (fuel : Nat) (path : String) (listing : Bool) (i : Interpreter) :
    Option Failure × Interpreter :=
  match i.machine.files.read path with
  | .error e => (some (.file path e), i)
  | .ok source => i.interpret fuel (some path) source listing

end Interpreter
end StackScript
