import StackScript.Machine.Basic

/-!
# Iteration

An iteration keeps three hidden slots: what it runs over, the keys that were
there when it began, and the index of the item it is at.  The loop variables
follow.  An array is read anew at each step; a table and a text keep their keys
and characters from the beginning.
-/

namespace StackScript

def characters (s : String) : Array Value :=
  (s.toList.map fun c => Value.text (String.ofList [c])).toArray

namespace Heap

/-- The key and the value at an index of an iteration; nothing when it is over. -/
def iteration (h : Heap) (object keys : Value) (index : Nat) : Option (Value × Value) :=
  match object, keys with
  | .array id, _ => (h.items id)[index]?.map fun v => (.integer (Int64.ofNat index), v)
  | .table id, .array keys =>
    (h.items keys)[index]?.map fun key =>
      match key with
      | .text k => (key, (h.entries id)[k]?.getD .none)
      | _ => (key, .none)
  | .text _, .array keys => (h.items keys)[index]?.map fun c => (.integer (Int64.ofNat index), c)
  | _, _ => none

end Heap

/-- What the loop variables receive.  A single variable takes the key of a table and the value of
anything else. -/
def loopVariables (object : Value) (vars : Nat) (key value : Value) : List Value :=
  match vars, object with
  | 1, .table _ => [key]
  | 1, _ => [value]
  | _, _ => [key, value]

namespace Exec

/-- The keys to keep for an iteration over a value. -/
def iterationKeys (object : Value) : Exec Value := do
  match object with
  | .array _ => return .none
  | .table id => allocate fun h => h.newArray (Heap.sortedKeys (h.entries id))
  | .text s => allocate fun h => h.newArray (characters s)
  | v => fail (.expected "Iterator" "`Array`, `Table` or `String`" v.kind)

def pushAll (vs : List Value) : Exec Unit :=
  vs.forM push

def setLocals (slot : Nat) : List Value -> Exec Unit
  | [] => return ()
  | v :: vs => do
    setLocal slot v
    setLocals (slot + 1) vs

/-- Begins an iteration over the value in a slot: its keys, its index and its variables go on the
stack.  If there is nothing to iterate over the body is jumped over. -/
def beginIteration (slot vars offset : Nat) : Exec Unit := do
  let object ← getLocal slot
  let keys ← iterationKeys object
  push keys
  push (.integer 0)
  match (← get).heap.iteration object keys 0 with
  | some (key, value) => pushAll (loopVariables object vars key value)
  | none =>
    pushAll (List.replicate vars .none)
    jumpForward offset

/-- The index of an iteration after one more step. -/
def nextIndex : Value -> Exec Nat
  | .integer n => return (n.toUInt64 + 1).toNat
  | v => fail (.expected "Iterator" "`Integer` index" v.kind)

/-- Goes on with an iteration: jumps back to the body while there are items. -/
def continueIteration (slot vars offset : Nat) : Exec Unit := do
  let object ← getLocal slot
  let keys ← getLocal (slot + 1)
  let index ← nextIndex (← getLocal (slot + 2))
  setLocal (slot + 2) (.integer (Int64.ofNat index))
  match (← get).heap.iteration object keys index with
  | some (key, value) =>
    setLocals (slot + 3) (loopVariables object vars key value)
    jumpBack offset
  | none => return ()

end Exec
end StackScript
