import StackScript.Proofs.Heap.Acts
import StackScript.Proofs.Machine.Steps

/-!
# What an operation on collections changes

An operation takes its arguments as values, and a value says only which object it is.  So an
operation may find one object under several arguments, and an object may hold itself.  Of all
objects only the one that the first argument names can get other contents, and only one new
object can come; an operation that fails leaves the heap as it was.
-/

namespace StackScript
namespace Heap

/-! ## Contents -/

inductive Contents where
  | items (items : Array Value)
  | entries (entries : Table)

def contents? (h : Heap) : Value -> Option Contents
  | .array id => h.arrays[id]?.map .items
  | .table id => h.tables[id]?.map .entries
  | _ => none

def Has (h : Heap) (x : Value) : Prop :=
  exists c, h.contents? x = some c

/-- The second heap has the objects of the first one, with the same contents apart from those of
one object at most, and one new object at most. -/
structure Changed (object : Option Value) (h h' : Heap) : Prop where
  kept : forall x c, h.contents? x = some c -> object ≠ some x -> h'.contents? x = some c
  there : forall x, h.Has x -> h'.Has x
  fresh : forall x y, h'.Has x -> ¬ h.Has x -> h'.Has y -> ¬ h.Has y -> x = y
  functions : h'.functions = h.functions
  pointers : h'.pointers = h.pointers

/-- The second heap has one new object, with the given contents. -/
structure Added (x : Value) (c : Contents) (h h' : Heap) : Prop where
  new : ¬ h.Has x
  contents : h'.contents? x = some c
  others : forall y, y ≠ x -> h'.contents? y = h.contents? y
  functions : h'.functions = h.functions
  pointers : h'.pointers = h.pointers

section Changes

variable {h h' : Heap} {id : Nat} {items : Array Value} {entries : Table} {x : Value}
  {c : Contents}

theorem has_array : h.Has (.array id) ↔ id < h.arrays.size := by
  rw [Has, ← Option.isSome_iff_exists]
  simp [contents?]

theorem has_table : h.Has (.table id) ↔ id < h.tables.size := by
  rw [Has, ← Option.isSome_iff_exists]
  simp [contents?]

theorem items_setItems (hid : id < h.arrays.size) : (h.setItems id items).items id = items := by
  simp [setItems, Heap.items, hid]

theorem items_setItems_ne {id' : Nat} (hne : id ≠ id') :
    (h.setItems id items).items id' = h.items id' := by
  simp only [setItems, Heap.items, Array.getD_eq_getD_getElem?,
    Array.getElem?_setIfInBounds_ne hne]

theorem setItems_setItems {items' : Array Value} :
    (h.setItems id items).setItems id items' = h.setItems id items' := by
  simp [setItems]

theorem setItems_items (hid : id < h.arrays.size) : h.setItems id (h.items id) = h := by
  have hitems : h.items id = h.arrays[id] := by
    simp [Heap.items, hid]
  have harrays : h.arrays.setIfInBounds id h.arrays[id] = h.arrays := by
    simp [Array.setIfInBounds, hid]
  rw [setItems, hitems, harrays]

theorem entries_setEntries (hid : id < h.tables.size) :
    (h.setEntries id entries).entries id = entries := by
  simp [setEntries, Heap.entries, hid]

theorem setEntries_setEntries {entries' : Table} :
    (h.setEntries id entries).setEntries id entries' = h.setEntries id entries' := by
  simp [setEntries]

theorem setEntries_entries (hid : id < h.tables.size) : h.setEntries id (h.entries id) = h := by
  have hentries : h.entries id = h.tables[id] := by
    simp [Heap.entries, hid]
  have htables : h.tables.setIfInBounds id h.tables[id] = h.tables := by
    simp [Array.setIfInBounds, hid]
  rw [setEntries, hentries, htables]

theorem contents?_setItems (hx : x ≠ .array id) :
    (h.setItems id items).contents? x = h.contents? x := by
  cases x with
  | array j =>
      have hj : id ≠ j := fun heq => hx (congrArg Value.array heq.symm)
      simp only [contents?, setItems, Array.getElem?_setIfInBounds_ne hj]
  | _ => rfl

theorem contents?_setEntries (hx : x ≠ .table id) :
    (h.setEntries id entries).contents? x = h.contents? x := by
  cases x with
  | table j =>
      have hj : id ≠ j := fun heq => hx (congrArg Value.table heq.symm)
      simp only [contents?, setEntries, Array.getElem?_setIfInBounds_ne hj]
  | _ => rfl

theorem added_newArray :
    Added (h.newArray items).1 (.items items) h (h.newArray items).2 where
  new := by simp [newArray, has_array]
  contents := by simp [contents?, newArray]
  others := by
    intro y hy
    cases y with
    | array j =>
        have hj : j ≠ h.arrays.size := fun heq => hy (congrArg Value.array heq)
        simp only [contents?, newArray, Array.getElem?_push, if_neg hj]
    | _ => rfl
  functions := rfl
  pointers := rfl

theorem added_newTable :
    Added (h.newTable entries).1 (.entries entries) h (h.newTable entries).2 where
  new := by simp [newTable, has_table]
  contents := by simp [contents?, newTable]
  others := by
    intro y hy
    cases y with
    | table j =>
        have hj : j ≠ h.tables.size := fun heq => hy (congrArg Value.table heq)
        simp only [contents?, newTable, Array.getElem?_push, if_neg hj]
    | _ => rfl
  functions := rfl
  pointers := rfl

theorem Changed.refl (object : Option Value) (h : Heap) : Changed object h h where
  kept := fun _ _ hx _ => hx
  there := fun _ hx => hx
  fresh := fun _ _ hx hnew => absurd hx hnew
  functions := rfl
  pointers := rfl

/-- An object gets other contents. -/
theorem changed_of_kept (hsame : forall y, y ≠ x -> h'.contents? y = h.contents? y)
    (hhas : h.Has x ↔ h'.Has x) (hfunctions : h'.functions = h.functions)
    (hpointers : h'.pointers = h.pointers) : Changed (some x) h h' := by
  have hiff (y : Value) : h.Has y ↔ h'.Has y := by
    by_cases hy : y = x
    · rw [hy]
      exact hhas
    · simp only [Has, hsame y hy]
  refine ⟨?_, fun y => (hiff y).mp, ?_, hfunctions, hpointers⟩
  · intro y c hy hne
    rw [hsame y fun heq => hne (congrArg some heq.symm)]
    exact hy
  · intro y _ hy hnew
    exact absurd ((hiff y).mpr hy) hnew

theorem Added.changed (hadded : Added x c h h') (object : Option Value) :
    Changed object h h' := by
  have hold {y : Value} (hy : h.Has y) : y ≠ x := fun heq => hadded.new (heq ▸ hy)
  have hnew {y : Value} (hy : h'.Has y) (hfresh : ¬ h.Has y) : y = x := by
    by_cases heq : y = x
    · exact heq
    · rcases hy with ⟨d, hd⟩
      rw [hadded.others y heq] at hd
      exact absurd ⟨d, hd⟩ hfresh
  refine ⟨?_, ?_, ?_, hadded.functions, hadded.pointers⟩
  · intro y d hy _
    rw [hadded.others y (hold ⟨d, hy⟩)]
    exact hy
  · rintro y ⟨d, hy⟩
    exact ⟨d, by rw [hadded.others y (hold ⟨d, hy⟩), hy]⟩
  · intro y z hy hyfresh hz hzfresh
    rw [hnew hy hyfresh, hnew hz hzfresh]

theorem changed_setItems : Changed (some (.array id)) h (h.setItems id items) := by
  refine changed_of_kept (fun _ => contents?_setItems) ?_ rfl rfl
  rw [has_array, has_array, setItems, Array.size_setIfInBounds]

theorem changed_setEntries : Changed (some (.table id)) h (h.setEntries id entries) := by
  refine changed_of_kept (fun _ => contents?_setEntries) ?_ rfl rfl
  rw [has_table, has_table, setEntries, Array.size_setIfInBounds]

end Changes

/-! ## Answers -/

/-- An answer that, unless it is a fault with the heap as it was, is a change of one object at
most. -/
def Changes (object : Option Value) (h : Heap) : Answer -> Prop
  | .ok _ h' => Changed object h h'
  | .error _ h' => h' = h

/-- Whatever an operation does, it changes at most the object that its first argument names. -/
theorem Acts.changes {h : Heap} {writes : Bool} {args : List Value} {x : Answer}
    (hx : h.Acts writes args x) : Changes (if writes then args.head? else none) h x := by
  cases hx with
  | fails => rfl
  | gives => exact .refl _ h
  | setsItems hwrites hfirst =>
      rw [if_pos hwrites, hfirst]
      exact changed_setItems
  | setsEntries hwrites hfirst =>
      rw [if_pos hwrites, hfirst]
      exact changed_setEntries
  | makesArray => exact added_newArray.changed _
  | makesTable => exact added_newTable.changed _

/-! ## Operations with their arguments -/

/-- An operation on collections with its arguments. -/
inductive Operation where
  | get (object key : Value)
  | set (object key value : Value)
  | getProperty (object : Value) (key : String)
  | setProperty (object : Value) (key : String) (value : Value)
  | push (array value : Value)
  | pop (array : Value)
  | insert (array index value : Value)
  | delete (object key : Value)
  | len (v : Value)
  | keys (table : Value)
  | has (table key : Value)
  | index (object needle : Value)
  | slice (object start stop : Value)
  | clear (v : Value)
  | copy (v : Value)
  | toInteger (v : Value)
  | toFloat (v : Value)

namespace Operation

def apply (h : Heap) : Operation -> Answer
  | get object key => BinaryOp.apply h .get object key
  | set object key value => TernaryOp.apply h .set object key value
  | getProperty object key => answer h (h.getProperty object key)
  | setProperty object key value => h.setProperty object key value
  | push array value => BinaryOp.apply h .push array value
  | pop array => UnaryOp.apply h .pop array
  | insert array place value => TernaryOp.apply h .insert array place value
  | delete object key => BinaryOp.apply h .delete object key
  | len v => UnaryOp.apply h .len v
  | keys table => UnaryOp.apply h .keys table
  | has table key => BinaryOp.apply h .has table key
  | index object needle => BinaryOp.apply h .index object needle
  | slice object start stop => TernaryOp.apply h .slice object start stop
  | clear v => UnaryOp.apply h .clear v
  | copy v => UnaryOp.apply h .copy v
  | toInteger v => UnaryOp.apply h .toInteger v
  | toFloat v => UnaryOp.apply h .toFloat v

def object : Operation -> Value
  | get a _ | set a _ _ | getProperty a _ | setProperty a _ _ | push a _ | pop a => a
  | insert a _ _ | delete a _ | len a | keys a | has a _ | index a _ | slice a _ _ => a
  | clear a | copy a | toInteger a | toFloat a => a

/-- Whether an operation can change its first argument. -/
def writes : Operation -> Bool
  | set _ _ _ | setProperty _ _ _ | push _ _ | pop _ | insert _ _ _ | delete _ _ => true
  | clear _ => true
  | _ => false

/-- The object that an operation can change. -/
def target? (op : Operation) : Option Value :=
  if op.writes then some op.object else none

/-- The arguments of an operation that are values, the first one first. -/
def args : Operation -> List Value
  | get a b | push a b | delete a b | has a b | index a b | setProperty a _ b => [a, b]
  | set a b c | insert a b c | slice a b c => [a, b, c]
  | getProperty a _ | pop a | len a | keys a | clear a | copy a | toInteger a | toFloat a => [a]

theorem head?_args (op : Operation) : op.args.head? = some op.object := by
  cases op <;> rfl

theorem acts (op : Operation) (h : Heap) : h.Acts op.writes op.args (op.apply h) := by
  cases op with
  | get => exact BinaryOp.acts .get
  | set => exact TernaryOp.acts .set
  | getProperty => exact (finds_getProperty _).answer
  | setProperty => exact acts_setProperty List.mem_cons_self
  | push => exact BinaryOp.acts .push
  | pop => exact UnaryOp.acts .pop
  | insert => exact TernaryOp.acts .insert
  | delete => exact BinaryOp.acts .delete
  | len => exact UnaryOp.acts .len
  | keys => exact UnaryOp.acts .keys
  | has => exact BinaryOp.acts .has
  | index => exact BinaryOp.acts .index
  | slice => exact TernaryOp.acts .slice
  | clear => exact UnaryOp.acts .clear
  | copy => exact UnaryOp.acts .copy
  | toInteger => exact UnaryOp.acts .toInteger
  | toFloat => exact UnaryOp.acts .toFloat

theorem changes_apply (op : Operation) (h : Heap) : Changes op.target? h (op.apply h) := by
  have hchanges := (op.acts h).changes
  rwa [head?_args] at hchanges

end Operation
end Heap

/-! ## Operations of a machine -/

/-- An operation that a machine performs either throws a text and leaves the machine as it was,
or changes the heap alone: the contents of no object but the one that the first argument of a
writing operation names, whatever the other arguments are, and by one new object at most. -/
theorem Exec.operation_changes_its_object_alone (op : Heap.Operation) (m : Machine) :
    (exists f : Fault, perform (fun h => op.apply h) m = .error (.fault f) m ∧
      (Raised.fault f).toValue = .text f.message) ∨
    exists v h, perform (fun h => op.apply h) m = .ok v { m with heap := h } ∧
      Heap.Changed op.target? m.heap h := by
  have hchanges := op.changes_apply m.heap
  cases happly : op.apply m.heap with
  | error f h =>
      rw [happly] at hchanges
      have hsame : h = m.heap := hchanges
      have hthrown : perform (fun h => op.apply h) m = .error (.fault f) { m with heap := h } :=
        perform_error happly
      rw [hsame] at hthrown
      exact Or.inl ⟨f, hthrown, rfl⟩
  | ok v h =>
      rw [happly] at hchanges
      exact Or.inr ⟨v, h, perform_ok happly, hchanges⟩

end StackScript
