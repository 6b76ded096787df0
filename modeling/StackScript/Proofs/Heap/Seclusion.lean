import StackScript.Proofs.Compiled
import StackScript.Proofs.Heap.Acts

/-!
# Arrays that are known, and one that is hidden

Only a value names an object, and operations make no names of their own: what they answer with and
what they store comes from their arguments and from collections, or is new.  So the arrays that are
named are arrays that were made, and an array that no collection holds and that is no argument stays
as it is and is named nowhere afterwards.
-/

namespace StackScript

/-- If the value is an array, it is a known one. -/
def Value.Among (known : Nat -> Prop) (v : Value) : Prop :=
  forall i, v = .array i -> known i

def Table.Among (known : Nat -> Prop) (t : Table) : Prop :=
  forall (key : String) v, t[key]? = some v -> v.Among known

namespace Heap

/-- The arrays that were made, but for the hidden one. -/
def Known (h : Heap) (hidden : Option Nat) (i : Nat) : Prop :=
  i < h.arrays.size ∧ hidden ≠ some i

/-- Collections hold known arrays only.  The hidden array is there. -/
structure Hides (hidden : Option Nat) (h : Heap) : Prop where
  there : forall id, hidden = some id -> id < h.arrays.size
  arrays : forall items, items ∈ h.arrays -> forall v, v ∈ items -> v.Among (h.Known hidden)
  tables : forall t, t ∈ h.tables -> Table.Among (h.Known hidden) t

/-- The hidden array is as it was, and no collection has come to hold it. -/
structure Secludes (hidden : Option Nat) (h h' : Heap) : Prop where
  hides : h'.Hides hidden
  made : h.arrays.size <= h'.arrays.size
  items : forall id, hidden = some id -> h'.items id = h.items id

/-- An answer that neither gives nor stores the hidden array, and leaves it as it was. -/
def Withholds (hidden : Option Nat) (h : Heap) : Answer -> Prop
  | .ok v h' => v.Among (h'.Known hidden) ∧ h.Secludes hidden h'
  | .error _ h' => h' = h

end Heap

section Tables

variable {known more : Nat -> Prop} {t : Table} {v : Value}

theorem Value.Among.mono (hv : v.Among known) (hmore : forall i, known i -> more i) :
    v.Among more :=
  fun i hi => hmore i (hv i hi)

theorem Table.Among.mono (ht : Table.Among known t) (hmore : forall i, known i -> more i) :
    Table.Among more t :=
  fun key v hv => (ht key v hv).mono hmore

theorem Value.Plain.among (hv : v.Plain) : v.Among known := by
  rintro i rfl
  cases hv

theorem Table.among_empty : Table.Among known {} := by
  intro key v hv
  simp at hv

theorem Table.Among.insert (ht : Table.Among known t) (key : String) (hv : v.Among known) :
    Table.Among known (t.insert key v) :=
  Table.of_getElem?_insert hv ht

end Tables

namespace Heap

section Seclusion

variable {hidden : Option Nat} {h h' h'' : Heap}

theorem Known.mono (hmade : h.arrays.size <= h'.arrays.size) :
    forall i, h.Known hidden i -> h'.Known hidden i :=
  fun _ hi => ⟨Nat.lt_of_lt_of_le hi.1 hmade, hi.2⟩

theorem Hides.mem_items (hh : h.Hides hidden) (i : Nat) :
    forall v, v ∈ h.items i -> v.Among (h.Known hidden) := by
  intro v hv
  obtain ⟨items, hitems, hmem⟩ := of_mem_items hv
  exact hh.arrays items hitems v hmem

theorem Hides.entries (hh : h.Hides hidden) (i : Nat) :
    Table.Among (h.Known hidden) (h.entries i) := by
  intro key v hv
  obtain ⟨t, ht, hvalue⟩ := of_getElem?_entries hv
  exact hh.tables t ht key v hvalue

theorem Hides.refl (hh : h.Hides hidden) : h.Secludes hidden h :=
  ⟨hh, Nat.le_refl _, fun _ _ => rfl⟩

/-- What has the same collections holds the same. -/
theorem Hides.of_eq (hh : h.Hides hidden) (harrays : h'.arrays = h.arrays)
    (htables : h'.tables = h.tables) : h.Secludes hidden h' := by
  have hknown : h'.Known hidden = h.Known hidden := by
    unfold Heap.Known
    rw [harrays]
  constructor
  · constructor
    · rw [harrays]
      exact hh.there
    · rw [harrays, hknown]
      exact hh.arrays
    · rw [htables, hknown]
      exact hh.tables
  · exact Nat.le_of_eq (congrArg Array.size harrays.symm)
  · intro id _
    simp only [Heap.items, harrays]

theorem secludes_of_compile {name : Option String} {source : String} {i : Nat} (hh : h.Hides hidden)
    (hc : h.compile name source = .ok (i, h')) :
    h.Secludes hidden h' ∧ h'.arrays.size = h.arrays.size := by
  rcases Heap.compile_eq_ok hc with ⟨p, -, -, rfl⟩
  exact ⟨hh.of_eq rfl rfl, rfl⟩

theorem Hides.newArray (hh : h.Hides hidden) {items : Array Value}
    (hitems : forall v, v ∈ items -> v.Among (h.Known hidden)) :
    (h.newArray items).1.Among ((h.newArray items).2.Known hidden) ∧
      h.Secludes hidden (h.newArray items).2 := by
  have hmade : h.arrays.size <= (h.newArray items).2.arrays.size := by
    simp [Heap.newArray]
  constructor
  · intro i hi
    cases hi
    constructor
    · simp [Heap.newArray]
    · intro heq
      exact Nat.lt_irrefl _ (hh.there _ heq)
  · constructor
    · constructor
      · intro id hid
        exact Nat.lt_of_lt_of_le (hh.there id hid) hmade
      · intro items' hitems' v hv
        rcases Array.mem_push.mp hitems' with hold | rfl
        · exact (hh.arrays items' hold v hv).mono (Known.mono hmade)
        · exact (hitems v hv).mono (Known.mono hmade)
      · intro t ht
        exact (hh.tables t ht).mono (Known.mono hmade)
    · exact hmade
    · intro id hid
      have hlt := hh.there id hid
      simp [Heap.items, Heap.newArray, Array.getD_eq_getD_getElem?, Array.getElem?_push_lt hlt,
        Array.getElem?_eq_getElem hlt]

theorem Hides.newTable (hh : h.Hides hidden) {t : Table} (ht : Table.Among (h.Known hidden) t) :
    (h.newTable t).1.Among ((h.newTable t).2.Known hidden) ∧
      h.Secludes hidden (h.newTable t).2 := by
  constructor
  · simp [Heap.newTable, Value.Among]
  · constructor
    · constructor
      · exact hh.there
      · exact hh.arrays
      · intro t' ht'
        rcases Array.mem_push.mp ht' with hold | rfl
        · exact hh.tables t' hold
        · exact ht
    · exact Nat.le_refl _
    · exact fun _ _ => rfl

theorem Hides.setItems (hh : h.Hides hidden) {i : Nat} {items : Array Value}
    (hi : hidden ≠ some i) (hitems : forall v, v ∈ items -> v.Among (h.Known hidden)) :
    h.Secludes hidden (h.setItems i items) := by
  have hsize : (h.setItems i items).arrays.size = h.arrays.size := Array.size_setIfInBounds
  have hmade := Nat.le_of_eq hsize.symm
  constructor
  · constructor
    · intro id hid
      rw [hsize]
      exact hh.there id hid
    · intro items' hitems' v hv
      apply Value.Among.mono _ (Known.mono hmade)
      rcases Array.mem_or_eq_of_mem_setIfInBounds hitems' with hold | rfl
      · exact hh.arrays items' hold v hv
      · exact hitems v hv
    · intro t ht
      exact (hh.tables t ht).mono (Known.mono hmade)
  · exact hmade
  · rintro id rfl
    have hne : i ≠ id := fun heq => hi (congrArg some heq.symm)
    simp only [Heap.items, Heap.setItems, Array.getD_eq_getD_getElem?,
      Array.getElem?_setIfInBounds_ne hne]

theorem Hides.setEntries (hh : h.Hides hidden) {i : Nat} {t : Table}
    (ht : Table.Among (h.Known hidden) t) : h.Secludes hidden (h.setEntries i t) := by
  constructor
  · constructor
    · exact hh.there
    · exact hh.arrays
    · intro t' ht'
      rcases Array.mem_or_eq_of_mem_setIfInBounds ht' with hold | rfl
      · exact hh.tables t' hold
      · exact ht
  · exact Nat.le_refl _
  · exact fun _ _ => rfl

end Seclusion

/-! ## Answers -/

section Answers

variable {known : Nat -> Prop} {hidden : Option Nat} {h : Heap} {writes : Bool}
  {args : List Value} {v : Value} {x : Answer}

theorem Supplied.among (hv : h.Supplied args v) (hh : h.Hides hidden)
    (hargs : forall v, v ∈ args -> v.Among (h.Known hidden)) : v.Among (h.Known hidden) := by
  cases hv with
  | plain hplain => exact hplain.among
  | argument harg => exact hargs v harg
  | item hitem => exact hh.mem_items _ v hitem
  | entry hentry => exact hh.entries _ _ v hentry

/-- Whatever an operation does with known arrays, it does nothing with the hidden one. -/
theorem Acts.withholds (hx : h.Acts writes args x) (hh : h.Hides hidden)
    (hargs : forall v, v ∈ args -> v.Among (h.Known hidden)) : h.Withholds hidden x := by
  have hamong {v : Value} (hv : h.Supplied args v) : v.Among (h.Known hidden) :=
    hv.among hh hargs
  cases hx with
  | fails => rfl
  | gives hv => exact ⟨hamong hv, hh.refl⟩
  | setsItems _ hfirst hitems hv =>
      have hknown := hargs _ (List.mem_of_head? hfirst)
      have hset := hh.setItems (hknown _ rfl).2 fun w hw => hamong (hitems w hw)
      exact ⟨(hamong hv).mono (Known.mono hset.made), hset⟩
  | @setsEntries id _ _ _ _ ht hv =>
      have hset := hh.setEntries (i := id) fun k w hw => hamong (ht k w hw)
      exact ⟨(hamong hv).mono (Known.mono hset.made), hset⟩
  | makesArray hitems => exact hh.newArray fun w hw => hamong (hitems w hw)
  | makesTable ht => exact hh.newTable fun k w hw => hamong (ht k w hw)

/-- The items of an iteration come from collections. -/
theorem Hides.iteration (hh : h.Hides hidden) {object keys key value : Value} {index : Nat}
    (hitem : h.iteration object keys index = some (key, value)) :
    key.Among (h.Known hidden) ∧ value.Among (h.Known hidden) := by
  have hsupplied := supplied_iteration hitem
  exact ⟨hsupplied.1.among hh (by simp), hsupplied.2.among hh (by simp)⟩

end Answers
end Heap
end StackScript
