import StackScript.Text.Blank
import StackScript.Text.Search
import StackScript.Value.Arith

/-!
# Collections

Arrays and tables are changed in place, so a change is seen through every value
that shares the object.  An index below zero counts from the end, and texts are
indexed by character.  An operation answers with a value or a fault, and with the
heap after it.
-/

namespace StackScript

/-- What an operation on the heap answers with.  There is a heap behind a fault too: what was done
before the fault stays done. -/
abbrev Answer :=
  EStateM.Result Fault Heap Value

/-- The answer of an operation that cannot fail. -/
def Answer.of (made : Value × Heap) : Answer :=
  .ok made.1 made.2

/-- Goes on with what a look at the heap has found, or fails with the heap as it is then. -/
def Heap.check {α : Type} (h : Heap) (found : Except Fault α) (next : α -> Answer) : Answer :=
  match found with
  | .ok a => next a
  | .error f => .error f h

/-- An answer that leaves the heap alone. -/
def answer (h : Heap) (found : Except Fault Value) : Answer :=
  h.check found fun v => .ok v h

/-! ## Indices and keys -/

/-- The place that an index names among so many. -/
def resolveIndex? (index : Int64) (size : Nat) : Option Nat :=
  let place := if index.toInt < 0 then index.toInt + size else index.toInt
  if 0 <= place && place < size then some place.toNat else none

/-- The place that an index names among so many, or the end. -/
def resolvePlace? (index : Int64) (size : Nat) : Option Nat :=
  if index.toInt = size then some size else resolveIndex? index size

/-- The place that a bound of a slice names among so many, moved into range. -/
def clampIndex (index : Int64) (size : Nat) : Nat :=
  let place := if index.toInt < 0 then index.toInt + size else index.toInt
  min place.toNat size

namespace Value

def toIndex (operation : String) : Value -> Except Fault Int64
  | .integer n => .ok n
  | v => .error (.expected operation "`Integer`" v.kind)

def toKey (operation : String) : Value -> Except Fault String
  | .text s => .ok s
  | v => .error (.expected operation "`String`" v.kind)

/-- The value at an index, or the fault that there is none. -/
def orOutOfBounds {α : Type} (index : Int64) (size : Nat) : Option α -> Except Fault α
  | some a => .ok a
  | Option.none => .error (.indexOutOfBounds index size)

end Value

namespace Heap

open Value (orOutOfBounds)

/-! ## Elements and properties -/

def getProperty (h : Heap) (object : Value) (key : String) : Except Fault Value :=
  match object with
  | .table id =>
    match (h.entries id)[key]? with
    | some v => .ok v
    | none => .error (.keyNotFound key)
  | v => .error (.expected "Get Property" "`Table`" v.kind)

def setProperty (h : Heap) (object : Value) (key : String) (value : Value) : Answer :=
  match object with
  | .table id => .ok value (h.setEntries id ((h.entries id).insert key value))
  | v => .error (.expected "Set Property" "`Table`" v.kind) h

/-- The element of an array, the character of a text or the property of a table. -/
def get (h : Heap) (object key : Value) : Except Fault Value :=
  match object with
  | .array id => do
    let items := h.items id
    let index ← key.toIndex "Get"
    orOutOfBounds index items.size ((resolveIndex? index items.size).bind (items[·]?))
  | .text s => do
    let index ← key.toIndex "Get"
    let chars := s.toList
    let found := (resolveIndex? index chars.length).bind (chars[·]?)
    orOutOfBounds index chars.length (found.map fun c => .text (String.ofList [c]))
  | .table _ => do
    h.getProperty object (← key.toKey "Get")
  | v => .error (.expected "Get" "`Array` or `Table`" v.kind)

/-- Gives an element of an array or a property of a table a value.  The place behind the last
element appends. -/
def set (h : Heap) (object key value : Value) : Answer :=
  match object with
  | .array id =>
    let items := h.items id
    h.check (key.toIndex "Set") fun index =>
    h.check (orOutOfBounds index items.size (resolvePlace? index items.size)) fun place =>
    let items := if place = items.size then items.push value else items.setIfInBounds place value
    .ok value (h.setItems id items)
  | .table _ =>
    h.check (key.toKey "Set") fun key =>
    h.setProperty object key value
  | v => .error (.expected "Set" "`Array` or `Table`" v.kind) h

/-! ## Growing and shrinking -/

def push (h : Heap) (array value : Value) : Answer :=
  match array with
  | .array id => .ok value (h.setItems id ((h.items id).push value))
  | v => .error (.expected "Push" "`Array`" v.kind) h

/-- Removes the last element of an array; an empty one gives nothing. -/
def pop (h : Heap) (array : Value) : Answer :=
  match array with
  | .array id => .ok ((h.items id).back?.getD .none) (h.setItems id (h.items id).pop)
  | v => .error (.expected "Pop" "`Array`" v.kind) h

def insertAt (items : Array Value) (place : Nat) (value : Value) : Array Value :=
  items.take place ++ #[value] ++ items.drop place

def eraseAt (items : Array Value) (place : Nat) : Array Value :=
  items.take place ++ items.drop (place + 1)

def insert (h : Heap) (array index value : Value) : Answer :=
  match array with
  | .array id =>
    let items := h.items id
    h.check (index.toIndex "Insert") fun index =>
    h.check (orOutOfBounds index items.size (resolvePlace? index items.size)) fun place =>
    .ok value (h.setItems id (insertAt items place value))
  | v => .error (.expected "Insert" "`Array`" v.kind) h

/-- Removes an element of an array or a property of a table and gives it back. -/
def delete (h : Heap) (object key : Value) : Answer :=
  match object with
  | .array id =>
    let items := h.items id
    h.check (key.toIndex "Delete") fun index =>
    h.check (orOutOfBounds index items.size (resolveIndex? index items.size)) fun place =>
    .ok (items.getD place .none) (h.setItems id (eraseAt items place))
  | .table id =>
    let entries := h.entries id
    h.check (key.toKey "Delete") fun key =>
    .ok (entries[key]?.getD .none) (h.setEntries id (entries.erase key))
  | v => .error (.expected "Delete" "`Array` or `Table`" v.kind) h

/-- Empties a collection; any other value gives the zero of its kind. -/
def clear (h : Heap) (v : Value) : Value × Heap :=
  match v with
  | .array id => (v, h.setItems id #[])
  | .table id => (v, h.setEntries id {})
  | .bool _ => (.bool false, h)
  | .integer _ => (.integer 0, h)
  | .float _ => (.float Binary64.zero, h)
  | .text _ => (.text "", h)
  | _ => (.none, h)

/-! ## Looking at collections -/

/-- The number of characters, elements or entries. -/
def len (h : Heap) : Value -> Except Fault Value
  | .text s => .ok (.integer (Int64.ofNat s.length))
  | .array id => .ok (.integer (Int64.ofNat (h.items id).size))
  | .table id => .ok (.integer (Int64.ofNat (h.entries id).size))
  | v => .error (.expected "Len" "`String`, `Array` or `Table`" v.kind)

def sortedKeys (entries : Table) : Array Value :=
  (entries.orderedKeys.map Value.text).toArray

def keys (h : Heap) : Value -> Answer
  | .table id => .of (h.newArray (sortedKeys (h.entries id)))
  | v => .error (.expected "Keys" "`Table`" v.kind) h

def has (h : Heap) (table key : Value) : Except Fault Value :=
  match table with
  | .table id => do
    let key ← key.toKey "Exists"
    return .bool ((h.entries id).contains key)
  | v => .error (.expected "Exists" "`Table`" v.kind)

/-- A position as a value; minus one where there is none. -/
def positionValue : Option Nat -> Value
  | some n => .integer (Int64.ofNat n)
  | none => .integer (-1)

/-- The position of a text in a text or of a value in an array, or the key of a value in a
table. -/
def index (h : Heap) (object needle : Value) : Except Fault Value :=
  match object with
  | .text s => do
    let needle ← needle.toKey "Index"
    return positionValue (Text.position? needle.toList s.toList)
  | .array id => .ok (positionValue ((h.items id).findIdx? fun v => v.equal needle))
  | .table id =>
    let matching := (h.entries id).toList.filter fun e => e.2.equal needle
    match (sortTexts (matching.map Prod.fst)).head? with
    | some key => .ok (.text key)
    | none => .ok .none
  | v => .error (.expected "Index" "`String`, `Array` or `Table`" v.kind)

/-! ## Copies -/

/-- The bounds of a slice among so many; no second bound means the end. -/
def sliceBounds (start stop : Value) (size : Nat) : Except Fault (Nat × Nat) := do
  let low := clampIndex (← start.toIndex "Slice") size
  match stop with
  | .none => return (low, size)
  | stop => return (low, clampIndex (← stop.toIndex "Slice") size)

/-- A part of a text, or a new array with a part of an array. -/
def slice (h : Heap) (object start stop : Value) : Answer :=
  match object with
  | .text s =>
    h.check (sliceBounds start stop s.length) fun (low, high) =>
    .ok (.text (String.ofList ((s.toList.drop low).take (high - low)))) h
  | .array id =>
    let items := h.items id
    h.check (sliceBounds start stop items.size) fun (low, high) =>
    .of (h.newArray (items.extract low high))
  | v => .error (.expected "Slice" "`String` or `Array`" v.kind) h

/-- A new array or table with the same contents; any other value as it is. -/
def copy (h : Heap) (v : Value) : Value × Heap :=
  match v with
  | .array id => h.newArray (h.items id)
  | .table id => h.newTable (h.entries id)
  | v => (v, h)

end Heap

/-! ## Casts -/

namespace Value

/-- A float as an integer; nothing when it has none. -/
def ofTruncated (x : Binary64) : Value :=
  match x.toInt64? with
  | some n => .integer n
  | Option.none => .none

/-- A number, or the number a text denotes, as an integer. -/
def toInteger : Value -> Except Fault Value
  | .integer n => .ok (.integer n)
  | .float x => .ok (ofTruncated x)
  | .text s =>
    let s := Text.trim s
    match Notation.readInt? s, Notation.readFloat? s with
    | some n, _ => .ok (.integer n)
    | Option.none, some x => .ok (ofTruncated x)
    | Option.none, Option.none => .ok .none
  | v => .error (.castToInteger v.kind)

/-- A number, or the number a text denotes, as a float. -/
def toFloat : Value -> Except Fault Value
  | .integer n => .ok (.float (Binary64.ofInt64 n))
  | .float x => .ok (.float x)
  | .text s =>
    match Notation.readFloat? (Text.trim s) with
    | some x => .ok (.float x)
    | Option.none => .ok .none
  | v => .error (.castToFloat v.kind)

end Value

/-! ## Operations by name -/

def UnaryOp.apply (h : Heap) (op : UnaryOp) (a : Value) : Answer :=
  match op with
  | negate => answer h a.negate
  | bitNot => answer h a.bitNot
  | not => .ok (.bool (h.falsy a)) h
  | pop => h.pop a
  | len => answer h (h.len a)
  | keys => h.keys a
  | clear => .of (h.clear a)
  | copy => .of (h.copy a)
  | type => .ok (.text a.kind.name) h
  | toInteger => answer h a.toInteger
  | toFloat => answer h a.toFloat
  | toText => .ok (.text (h.render a)) h

def BinaryOp.apply (h : Heap) (op : BinaryOp) (a b : Value) : Answer :=
  match op with
  | arith op => answer h (op.apply h a b)
  | compare c => answer h (c.apply a b)
  | get => answer h (h.get a b)
  | push => h.push a b
  | delete => h.delete a b
  | has => answer h (h.has a b)
  | index => answer h (h.index a b)

def TernaryOp.apply (h : Heap) (op : TernaryOp) (a b c : Value) : Answer :=
  match op with
  | set => h.set a b c
  | insert => h.insert a b c
  | slice => h.slice a b c

end StackScript
