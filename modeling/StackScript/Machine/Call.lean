import StackScript.Files.Path
import StackScript.Import
import StackScript.Machine.Basic

/-!
# Calls and imports

A call leaves the called value and its arguments where they are and opens a frame
over them; a return takes them all away.  An imported script is called like a
function without arguments, once for each absolute path.
-/

namespace StackScript
namespace Exec

/-! ## Calls -/

/-- Opens a frame for a function whose arguments are on the stack. -/
def enter (function count : Nat) : Exec Unit := do
  let m ← get
  let arity := (m.heap.function function).arity
  if arity != count then
    fail (.wrongArity arity count)
  else if m.limits.frames <= m.frames.length || m.limits.slots <= m.stack.size then
    fail .stackOverflow
  else
    set { m with frames := ⟨function, 0, m.stack.size - count - 1⟩ :: m.frames }

def callNative (native : Native) (count : Nat) : Exec Unit := do
  let args ← popMany count
  let _ ← pop
  let m ← get
  let (result, h) := native m.heap args
  set { m with heap := h }
  match result with
  | .ok v => push v
  | .error v => throw (.value v)

/-- Calls the value below so many arguments. -/
def call (count : Nat) : Exec Unit := do
  match ← peek count with
  | .function id => enter id count
  | .native name id =>
    match (← get).natives[id]? with
    | some native => callNative native count
    | none => fail (.unknownNative name)
  | v => fail (.notCallable v.kind)

/-- Returns from the innermost call with the topmost value.  The outermost one gives it to
nobody. -/
def leave : Exec Unit := do
  let result ← pop
  let m ← get
  match m.frames with
  | [] => fail .stackUnderflow
  | [f] => set { m with frames := [], stack := m.stack.take f.base }
  | f :: rest => set { m with frames := rest, stack := (m.stack.take f.base).push result }

/-! ## Imports -/

end Exec

namespace Machine

/-- The directory of the innermost script that has a name. -/
def scriptParent? (m : Machine) : Option String :=
  (m.frames.findSome? fun f => (m.heap.function f.function).script).bind Path.parent?

/-- The paths to look at for a script, as the machine stands. -/
def candidates (m : Machine) (target : String) : List String :=
  let templates :=
    match m.globals[Import.pathsName]? with
    | some paths => Import.texts m.heap paths
    | none => Import.defaultTemplates
  Import.candidates templates m.scriptParent? target

end Machine

namespace Exec

/-- The list of what has been imported; a new one if the global holds no array. -/
def importList : Exec Value := do
  match (← get).globals[Import.importsName]? with
  | some (.array id) => return .array id
  | _ =>
    let imports ← allocate fun h => h.newArray #[]
    modify fun m => { m with globals := m.globals.insert Import.importsName imports }
    return imports

/-- The absolute path of a script to import. -/
def locate (target : String) : Exec String := do
  let m ← get
  match Import.resolve m.files (m.candidates target) with
  | .ok path => return path
  | .error tried => fail (.importNotFound target tried)

def readScript (path : String) : Exec String := do
  match (← get).files.read path with
  | .ok source => return source
  | .error e => fail (.importUnreadable path e.message)

def compileScript (path source : String) : Exec Nat := do
  let m ← get
  match m.heap.compile (some path) source with
  | .ok (id, h) =>
    set { m with heap := h }
    return id
  | .error e => fail (.importRejected e.render)

/-- Imports the script that the topmost value names, unless that was done before.  The path is
listed before the script is read, so a script that imports itself does no harm. -/
def use : Exec Unit := do
  match ← pop with
  | .text target =>
    let path ← locate target
    let imports ← importList
    if Import.isListed (← get).heap imports path then
      push .none
    else
      let _ ← perform fun h => h.push imports (.text path)
      let id ← compileScript path (← readScript path)
      push (.function id)
      enter id 0
  | v => fail (.expected "Use" "`String`" v.kind)

end Exec
end StackScript
