import StackScript.Proofs.Compiled
import StackScript.Proofs.Heap.Acts

/-!
# Heaps with checked functions

A function is good if it passes the static stack check and so does every function
that its constants lead to.  A heap is clean if the functions in its arrays and tables
are good.  Every operation of the language answers with a clean heap and a clean value
when it is given such, and a fault of an operation is never one of the faults that only
broken code can raise.
-/

namespace StackScript

/-! ## Good functions -/

namespace Heap

/-- Functions that pass the check and whose constants lead only to such functions. -/
def Closed (h : Heap) (S : Nat -> Prop) : Prop :=
  forall id, S id -> (h.function id).Checked ∧
    forall id', Value.function id' ∈ (h.function id).code.constants -> S id'

def Good (h : Heap) (id : Nat) : Prop :=
  exists S, S id ∧ h.Closed S

/-- A heap with the same functions and perhaps more. -/
structure Extends (h h' : Heap) : Prop where
  size : h.functions.size <= h'.functions.size
  function : forall id, id < h.functions.size -> h'.function id = h.function id

section Good

variable {h h' h'' : Heap} {id : Nat}

theorem Extends.refl (h : Heap) : h.Extends h :=
  ⟨Nat.le_refl _, fun _ _ => rfl⟩

theorem Extends.trans (h1 : h.Extends h') (h2 : h'.Extends h'') : h.Extends h'' where
  size := Nat.le_trans h1.size h2.size
  function := by
    intro id hid
    rw [h2.function id (Nat.lt_of_lt_of_le hid h1.size), h1.function id hid]

theorem extends_of_eq (heq : h'.functions = h.functions) : h.Extends h' where
  size := Nat.le_of_eq (by rw [heq])
  function := by
    intro id _
    simp only [Heap.function, heq]

theorem Good.checked (hg : h.Good id) : (h.function id).Checked := by
  rcases hg with ⟨S, hid, hS⟩
  exact (hS id hid).1

theorem Good.constant {id' : Nat} (hg : h.Good id)
    (hc : Value.function id' ∈ (h.function id).code.constants) : h.Good id' := by
  rcases hg with ⟨S, hid, hS⟩
  exact ⟨S, (hS id hid).2 id' hc, hS⟩

/-- A number without a function stands for a function without code. -/
theorem lt_of_function_ne (hne : h.function id ≠ {}) : id < h.functions.size := by
  by_contra hle
  apply hne
  simp only [Heap.function, Array.getD_eq_getD_getElem?]
  rw [Array.getElem?_eq_none (Nat.le_of_not_lt hle)]
  rfl

theorem lt_of_checked (hc : (h.function id).Checked) : id < h.functions.size := by
  rcases hc with ⟨height, hkeeps⟩
  refine lt_of_function_ne fun hnone => ?_
  have hpos := hkeeps.nonempty
  rw [hnone] at hpos
  exact Nat.lt_irrefl 0 hpos

theorem Good.lt_size (hg : h.Good id) : id < h.functions.size :=
  lt_of_checked hg.checked

theorem Good.mem_functions (hg : h.Good id) : h.function id ∈ h.functions := by
  have hlt := hg.lt_size
  unfold Heap.function
  rw [← Array.getElem_eq_getD (h := hlt)]
  exact Array.getElem_mem hlt

theorem Extends.function_of_good (hext : h.Extends h') (hg : h.Good id) :
    h'.function id = h.function id :=
  hext.function id hg.lt_size

theorem Good.extends (hg : h.Good id) (hext : h.Extends h') : h'.Good id := by
  rcases hg with ⟨S, hid, hS⟩
  refine ⟨S, hid, ?_⟩
  intro i hi
  rw [hext.function i (lt_of_checked (hS i hi).1)]
  exact hS i hi

end Good
end Heap

/-! ## Clean values -/

/-- A value that is no function, or a good one. -/
def Value.Clean (h : Heap) : Value -> Prop
  | .function id => h.Good id
  | _ => True

def Table.Clean (h : Heap) (t : Table) : Prop :=
  forall (key : String) v, t[key]? = some v -> v.Clean h

/-- All functions in arrays and tables are good. -/
structure Heap.Clean (h : Heap) : Prop where
  arrays : forall items, items ∈ h.arrays -> forall v, v ∈ items -> v.Clean h
  tables : forall t, t ∈ h.tables -> Table.Clean h t

section Clean

variable {h h' : Heap} {v : Value} {t : Table}

theorem Value.Clean.extends (hv : v.Clean h) (hext : h.Extends h') : v.Clean h' := by
  cases v with
  | function id => exact Heap.Good.extends hv hext
  | _ => trivial

theorem Table.Clean.extends (ht : Table.Clean h t) (hext : h.Extends h') : Table.Clean h' t := by
  intro key v hv
  exact (ht key v hv).extends hext

theorem Table.clean_empty : Table.Clean h {} := by
  intro key v hv
  simp at hv

theorem Table.Clean.insert (ht : Table.Clean h t) (key : String) (hv : v.Clean h) :
    Table.Clean h (t.insert key v) :=
  Table.of_getElem?_insert hv ht

theorem Heap.clean_noItems : forall v, v ∈ (#[] : Array Value) -> v.Clean h := by
  simp

namespace Heap.Clean

theorem items (hh : h.Clean) (id : Nat) : forall v, v ∈ h.items id -> v.Clean h := by
  intro v hv
  obtain ⟨items, hitems, hmem⟩ := of_mem_items hv
  exact hh.arrays items hitems v hmem

theorem entries (hh : h.Clean) (id : Nat) : Table.Clean h (h.entries id) := by
  intro key v hv
  obtain ⟨t, ht, hvalue⟩ := of_getElem?_entries hv
  exact hh.tables t ht key v hvalue

/-- Any change that leaves the functions alone and only writes clean values. -/
theorem update (heq : h'.functions = h.functions)
    (harrays : forall items, items ∈ h'.arrays -> forall v, v ∈ items -> v.Clean h)
    (htables : forall t, t ∈ h'.tables -> Table.Clean h t) : h.Extends h' ∧ h'.Clean := by
  have hext := Heap.extends_of_eq heq
  refine ⟨hext, ⟨?_, ?_⟩⟩
  · intro items hitems v hv
    exact (harrays items hitems v hv).extends hext
  · intro t ht
    exact (htables t ht).extends hext

theorem newArray (hh : h.Clean) {items : Array Value} (hi : forall v, v ∈ items -> v.Clean h) :
    h.Extends (h.newArray items).2 ∧ (h.newArray items).2.Clean := by
  refine update rfl ?_ hh.tables
  intro items' hitems'
  rcases Array.mem_push.mp hitems' with hold | rfl
  · exact hh.arrays items' hold
  · exact hi

theorem newTable (hh : h.Clean) (ht : Table.Clean h t) :
    h.Extends (h.newTable t).2 ∧ (h.newTable t).2.Clean := by
  refine update rfl hh.arrays ?_
  intro t' ht'
  rcases Array.mem_push.mp ht' with hold | rfl
  · exact hh.tables t' hold
  · exact ht

theorem setItems (hh : h.Clean) (id : Nat) {items : Array Value}
    (hi : forall v, v ∈ items -> v.Clean h) :
    h.Extends (h.setItems id items) ∧ (h.setItems id items).Clean := by
  refine update rfl ?_ hh.tables
  intro items' hitems'
  rcases Array.mem_or_eq_of_mem_setIfInBounds hitems' with hold | rfl
  · exact hh.arrays items' hold
  · exact hi

theorem setEntries (hh : h.Clean) (id : Nat) (ht : Table.Clean h t) :
    h.Extends (h.setEntries id t) ∧ (h.setEntries id t).Clean := by
  refine update rfl hh.arrays ?_
  intro t' ht'
  rcases Array.mem_or_eq_of_mem_setIfInBounds ht' with hold | rfl
  · exact hh.tables t' hold
  · exact ht

end Heap.Clean
end Clean

/-! ## Compiled scripts -/

section Compile

variable {h : Heap} {name : Option String} {source : String} {p : Program}

/-- The functions of a compiled script are good on the heap they are added to. -/
theorem Heap.good_of_compile {i : Nat}
    (hp : StackScript.compile h.functions.size name source = .ok p) (hi : i < p.all.size) :
    Heap.Good { h with functions := h.functions ++ p.all } (h.functions.size + i) := by
  have hsize : p.all.size = p.functions.size + 1 := p.size_all
  refine ⟨fun id => h.functions.size <= id ∧ id < h.functions.size + p.all.size,
    ⟨Nat.le_add_right _ _, by lia⟩, ?_⟩
  rintro id ⟨hlo, hhi⟩
  rcases Nat.exists_eq_add_of_le hlo with ⟨j, rfl⟩
  have hj : j < p.all.size := by lia
  rw [Heap.function_append hj]
  rcases compile_sound hp p.all[j] (Array.getElem_mem hj) with ⟨hcheck, hmade⟩
  refine ⟨hcheck, ?_⟩
  intro id' hid'
  rcases hmade _ hid' with ⟨hlo', hhi'⟩
  exact ⟨hlo', by lia⟩

theorem Heap.compile_answers {id : Nat} {h' : Heap} (hh : h.Clean)
    (hc : h.compile name source = .ok (id, h')) :
    h.Extends h' ∧ h'.Clean ∧ h'.Good id := by
  rcases Heap.compile_eq_ok hc with ⟨p, hp, rfl, rfl⟩
  have hext : h.Extends { h with functions := h.functions ++ p.all } := by
    constructor
    · simp
    · intro i hi
      simp [Heap.function, Array.getD_eq_getD_getElem?, Array.getElem?_append_left hi]
  have hsize : p.all.size = p.functions.size + 1 := p.size_all
  refine ⟨hext, ⟨?_, ?_⟩, Heap.good_of_compile hp (by lia)⟩
  · intro items hitems v hv
    exact (hh.arrays items hitems v hv).extends hext
  · intro t ht
    exact (hh.tables t ht).extends hext

end Compile

/-! ## Operations -/

/-- What an operation may answer with. -/
def Heap.Answers (h : Heap) : Answer -> Prop
  | .ok v h' => h.Extends h' ∧ h'.Clean ∧ v.Clean h'
  | .error f h' => f.internal = false ∧ h' = h

section Operations

variable {h : Heap} {writes : Bool} {args : List Value} {v : Value} {x : Answer}

theorem Value.Plain.clean (hv : v.Plain) : v.Clean h := by
  cases v with
  | function id => cases hv
  | _ => trivial

theorem Heap.Supplied.clean (hv : h.Supplied args v) (hh : h.Clean)
    (hargs : forall v, v ∈ args -> v.Clean h) : v.Clean h := by
  cases hv with
  | plain hplain => exact hplain.clean
  | argument harg => exact hargs v harg
  | item hitem => exact hh.items _ v hitem
  | entry hentry => exact hh.entries _ _ v hentry

theorem Heap.newArray_answers {items : Array Value} (hh : h.Clean)
    (hitems : forall v, v ∈ items -> v.Clean h) : h.Answers (.of (h.newArray items)) := by
  rcases hh.newArray hitems with ⟨hext, hclean⟩
  exact ⟨hext, hclean, trivial⟩

/-- Whatever an operation does with clean values, it answers with one. -/
theorem Heap.Acts.answers (hx : h.Acts writes args x) (hh : h.Clean)
    (hargs : forall v, v ∈ args -> v.Clean h) : h.Answers x := by
  have hclean {v : Value} (hv : h.Supplied args v) : v.Clean h := hv.clean hh hargs
  cases hx with
  | fails hf => exact ⟨hf, rfl⟩
  | gives hv => exact ⟨Heap.Extends.refl h, hh, hclean hv⟩
  | setsItems _ _ hitems hv =>
      rcases hh.setItems _ fun w hw => hclean (hitems w hw) with ⟨hext, hheap⟩
      exact ⟨hext, hheap, (hclean hv).extends hext⟩
  | setsEntries _ _ ht hv =>
      rcases hh.setEntries _ fun k w hw => hclean (ht k w hw) with ⟨hext, hheap⟩
      exact ⟨hext, hheap, (hclean hv).extends hext⟩
  | makesArray hitems => exact Heap.newArray_answers hh fun w hw => hclean (hitems w hw)
  | makesTable ht =>
      rcases hh.newTable fun k w hw => hclean (ht k w hw) with ⟨hext, hheap⟩
      exact ⟨hext, hheap, trivial⟩

end Operations

end StackScript
