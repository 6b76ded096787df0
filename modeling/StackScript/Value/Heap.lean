import StackScript.Compile
import StackScript.Value.Table

/-!
# The heap

The contents of the objects that values share.  Objects are only ever added, and
the number of an object is its place, so an object that was there stays what it
is until one of the operations on it is used.
-/

namespace StackScript

/-- The contents of all objects. -/
structure Heap where
  arrays : Array (Array Value) := #[]
  tables : Array Table := #[]
  functions : Array Function := #[]
  /-- How many pointers the host has made. -/
  pointers : Nat := 0
  deriving Inhabited

namespace Heap

def empty : Heap :=
  {}

/-! ## Looking at objects -/

def items (h : Heap) (id : Nat) : Array Value :=
  h.arrays.getD id #[]

def entries (h : Heap) (id : Nat) : Table :=
  h.tables.getD id {}

def function (h : Heap) (id : Nat) : Function :=
  h.functions.getD id {}

def size (h : Heap) : Nat :=
  h.arrays.size + h.tables.size

/-- Whether a value counts as false. -/
def falsy (h : Heap) : Value -> Bool
  | .none => true
  | .bool b => !b
  | .integer n => n == 0
  | .float x => x.isZero
  | .text s => s.isEmpty
  | .array id => (h.items id).isEmpty
  | .table id => (h.entries id).isEmpty
  | .function _ => false
  | .native _ _ => false
  | .pointer _ => false

/-! ## Adding and changing objects -/

def newArray (h : Heap) (items : Array Value) : Value × Heap :=
  (.array h.arrays.size, { h with arrays := h.arrays.push items })

def newTable (h : Heap) (entries : Table) : Value × Heap :=
  (.table h.tables.size, { h with tables := h.tables.push entries })

def newFunction (h : Heap) (f : Function) : Value × Heap :=
  (.function h.functions.size, { h with functions := h.functions.push f })

def newPointer (h : Heap) : Value × Heap :=
  (.pointer h.pointers, { h with pointers := h.pointers + 1 })

def setItems (h : Heap) (id : Nat) (items : Array Value) : Heap :=
  { h with arrays := h.arrays.setIfInBounds id items }

def setEntries (h : Heap) (id : Nat) (entries : Table) : Heap :=
  { h with tables := h.tables.setIfInBounds id entries }

/-- Compiles a script and adds its functions; the body of the script is the last of them. -/
def compile (h : Heap) (name : Option String) (source : String) :
    Except CompileError (Nat × Heap) := do
  let program ← StackScript.compile h.functions.size name source
  let functions := h.functions ++ program.all
  return (functions.size - 1, { h with functions := functions })

end Heap
end StackScript
