import StackScript.Proofs.Heap.Operation

/-!
# Elements of arrays

Reading, setting, inserting and deleting find the place of an element in one way: an index below
zero counts from the end.  Setting and inserting also take the place behind the last element, but
only by its own number.
-/

namespace StackScript

/-! ## Places -/

/-- The place that an index stands for among so many elements.  There need not be an element. -/
def elementPlace (i : Int64) (size : Nat) : Int :=
  if i.toInt < 0 then i.toInt + size else i.toInt

section Places

variable {i : Int64} {size place : Nat}

theorem resolveIndex?_eq_some :
    resolveIndex? i size = some place ↔ place < size ∧ elementPlace i size = place := by
  simp only [resolveIndex?, elementPlace, Bool.and_eq_true, decide_eq_true_eq,
    Option.ite_none_right_eq_some, Option.some.injEq]
  omega

theorem exists_resolveIndex? :
    (exists place, resolveIndex? i size = some place) ↔
      -(size : Int) <= i.toInt ∧ i.toInt < size := by
  simp only [resolveIndex?_eq_some, elementPlace]
  constructor
  · rintro ⟨place, hlt, hplace⟩
    omega
  · intro hrange
    exists (elementPlace i size).toNat
    simp only [elementPlace]
    omega

theorem resolvePlace?_of_ne (hi : i.toInt ≠ size) : resolvePlace? i size = resolveIndex? i size :=
  if_neg hi

theorem resolvePlace?_of_eq (hi : i.toInt = size) : resolvePlace? i size = some size :=
  if_pos hi

theorem resolvePlace?_of_place (hplace : place < size) (hi : elementPlace i size = place) :
    resolvePlace? i size = some place := by
  rw [resolvePlace?_of_ne, resolveIndex?_eq_some]
  · exact ⟨hplace, hi⟩
  · simp only [elementPlace] at hi
    omega

theorem resolvePlace?_of_nonneg (hi : i.toInt = place) (hplace : place <= size) :
    resolvePlace? i size = some place := by
  rcases Nat.lt_or_eq_of_le hplace with hlt | rfl
  · apply resolvePlace?_of_place hlt
    simp only [elementPlace]
    omega
  · exact resolvePlace?_of_eq hi

theorem exists_resolvePlace? :
    (exists place, resolvePlace? i size = some place) ↔
      -(size : Int) <= i.toInt ∧ i.toInt <= size := by
  by_cases hend : i.toInt = size
  · rw [resolvePlace?_of_eq hend]
    exact ⟨fun _ => by omega, fun _ => ⟨size, rfl⟩⟩
  · rw [resolvePlace?_of_ne hend, exists_resolveIndex?]
    omega

/-- What follows the search for a place succeeds when there is one. -/
theorem orOutOfBounds_succeeds {α : Type} {h : Heap} {found : Option α} {f : α -> Value}
    {g : α -> Heap} :
    (exists r h', h.check (Value.orOutOfBounds i size found) (fun a => .ok (f a) (g a)) =
      .ok r h') ↔ exists a, found = some a := by
  cases found with
  | none => exact ⟨nofun, nofun⟩
  | some a => exact ⟨fun _ => ⟨a, rfl⟩, fun _ => ⟨f a, g a, rfl⟩⟩

end Places

namespace Heap

/-! ## Items with one changed -/

section Lists

variable {items : Array Value} {place : Nat} {v : Value}

theorem toList_drop : (items.drop place).toList = items.toList.drop place := by
  rw [Array.drop_eq_extract, Array.toList_extract, List.extract_eq_take_drop]
  exact List.take_of_length_le (by simp)

theorem take_append_cons_drop {l : List Value} (hplace : place <= l.length) :
    l.take place ++ v :: l.drop place = l.insertIdx place v := by
  induction l generalizing place with
  | nil =>
      cases Nat.le_zero.mp hplace
      rfl
  | cons w l ih =>
      cases place with
      | zero => rfl
      | succ place =>
          rw [List.insertIdx_succ_cons, ← ih (Nat.le_of_succ_le_succ hplace)]
          rfl

theorem toList_insertAt (hplace : place <= items.size) :
    (insertAt items place v).toList = items.toList.insertIdx place v := by
  rw [← take_append_cons_drop hplace, insertAt, Array.toList_append, Array.toList_append,
    toList_drop]
  simp

theorem toList_eraseAt : (eraseAt items place).toList = items.toList.eraseIdx place := by
  rw [List.eraseIdx_eq_take_drop_succ, eraseAt, Array.toList_append, toList_drop]
  simp

theorem eraseAt_insertAt (hplace : place <= items.size) :
    eraseAt (insertAt items place v) place = items := by
  apply Array.ext'
  rw [toList_eraseAt, toList_insertAt hplace, List.eraseIdx_insertIdx_self]

end Lists

/-! ## Arrays of the heap -/

section Arrays

variable {h : Heap} {id place : Nat} {i : Int64} {v x : Value}

def setAt (items : Array Value) (place : Nat) (v : Value) : Array Value :=
  if place = items.size then items.push v else items.setIfInBounds place v

theorem get_array : h.get (.array id) (.integer i) =
    Value.orOutOfBounds i (h.items id).size
      ((resolveIndex? i (h.items id).size).bind ((h.items id)[·]?)) := by
  rfl

theorem set_array : h.set (.array id) (.integer i) v =
    h.check (Value.orOutOfBounds i (h.items id).size (resolvePlace? i (h.items id).size))
      fun place => .ok v (h.setItems id (setAt (h.items id) place v)) := by
  rfl

theorem insert_array : h.insert (.array id) (.integer i) v =
    h.check (Value.orOutOfBounds i (h.items id).size (resolvePlace? i (h.items id).size))
      fun place => .ok v (h.setItems id (insertAt (h.items id) place v)) := by
  rfl

theorem delete_array : h.delete (.array id) (.integer i) =
    h.check (Value.orOutOfBounds i (h.items id).size (resolveIndex? i (h.items id).size))
      fun place =>
        .ok ((h.items id).getD place .none) (h.setItems id (eraseAt (h.items id) place)) := by
  rfl

theorem get_array_of_place (hi : elementPlace i (h.items id).size = place)
    (hx : (h.items id)[place]? = some x) : h.get (.array id) (.integer i) = .ok x := by
  have hlt : place < (h.items id).size := (Array.getElem?_eq_some_iff.mp hx).1
  rw [get_array, resolveIndex?_eq_some.mpr ⟨hlt, hi⟩, Option.bind_some, hx]
  rfl

theorem set_array_of_place (hi : resolvePlace? i (h.items id).size = some place) :
    h.set (.array id) (.integer i) v =
      .ok v (h.setItems id (setAt (h.items id) place v)) := by
  rw [set_array, hi]
  rfl

theorem insert_array_of_place (hi : resolvePlace? i (h.items id).size = some place) :
    h.insert (.array id) (.integer i) v =
      .ok v (h.setItems id (insertAt (h.items id) place v)) := by
  rw [insert_array, hi]
  rfl

theorem delete_array_of_place (hi : elementPlace i (h.items id).size = place)
    (hx : (h.items id)[place]? = some x) : h.delete (.array id) (.integer i) =
      .ok x (h.setItems id (eraseAt (h.items id) place)) := by
  have hlt : place < (h.items id).size := (Array.getElem?_eq_some_iff.mp hx).1
  have hfound : (h.items id).getD place .none = x := by
    rw [Array.getD_eq_getD_getElem?, hx, Option.getD_some]
  rw [delete_array, resolveIndex?_eq_some.mpr ⟨hlt, hi⟩, ← hfound]
  rfl

/-! ## When an operation succeeds -/

theorem get_array_succeeds : (exists r, h.get (.array id) (.integer i) = .ok r) ↔
    -((h.items id).size : Int) <= i.toInt ∧ i.toInt < (h.items id).size := by
  rw [← exists_resolveIndex?, get_array]
  cases hplace : resolveIndex? i (h.items id).size with
  | none => exact ⟨nofun, nofun⟩
  | some place =>
      have hlt : place < (h.items id).size := (resolveIndex?_eq_some.mp hplace).1
      rw [Option.bind_some, Array.getElem?_eq_getElem hlt]
      exact ⟨fun _ => ⟨place, rfl⟩, fun _ => ⟨_, rfl⟩⟩

theorem delete_array_succeeds : (exists r h', h.delete (.array id) (.integer i) = .ok r h') ↔
    -((h.items id).size : Int) <= i.toInt ∧ i.toInt < (h.items id).size := by
  rw [delete_array, orOutOfBounds_succeeds, exists_resolveIndex?]

theorem set_array_succeeds : (exists r h', h.set (.array id) (.integer i) v = .ok r h') ↔
    -((h.items id).size : Int) <= i.toInt ∧ i.toInt <= (h.items id).size := by
  rw [set_array, orOutOfBounds_succeeds, exists_resolvePlace?]

theorem insert_array_succeeds : (exists r h', h.insert (.array id) (.integer i) v = .ok r h') ↔
    -((h.items id).size : Int) <= i.toInt ∧ i.toInt <= (h.items id).size := by
  rw [insert_array, orOutOfBounds_succeeds, exists_resolvePlace?]

/-! ## What an operation does -/

/-- Each operation with an index works on the element at one place, where `x` stands, and leaves
all other objects alone. -/
structure ActsAt (h : Heap) (id : Nat) (i : Int64) (v : Value) (place : Nat) (x : Value) :
    Prop where
  get : h.get (.array id) (.integer i) = .ok x
  set : exists items, h.set (.array id) (.integer i) v = .ok v (h.setItems id items) ∧
    items.toList = (h.items id).toList.set place v
  insert : exists items, h.insert (.array id) (.integer i) v = .ok v (h.setItems id items) ∧
    items.toList = (h.items id).toList.insertIdx place v
  delete : exists items, h.delete (.array id) (.integer i) = .ok x (h.setItems id items) ∧
    items.toList = (h.items id).toList.eraseIdx place

theorem actsAt (hi : elementPlace i (h.items id).size = place)
    (hx : (h.items id)[place]? = some x) : ActsAt h id i v place x := by
  have hlt : place < (h.items id).size := (Array.getElem?_eq_some_iff.mp hx).1
  have hplace := resolvePlace?_of_place hlt hi
  constructor
  · exact get_array_of_place hi hx
  · refine ⟨_, set_array_of_place hplace, ?_⟩
    rw [setAt, if_neg (Nat.ne_of_lt hlt), Array.toList_setIfInBounds]
  · exact ⟨_, insert_array_of_place hplace, toList_insertAt (Nat.le_of_lt hlt)⟩
  · exact ⟨_, delete_array_of_place hi hx, toList_eraseAt⟩

/-- An element that was set is found under the same index, and all other places are as before. -/
theorem get_of_set_array {v' : Value} {h' : Heap} (hid : id < h.arrays.size)
    (hset : h.set (.array id) (.integer i) v = .ok v' h') :
    v' = v ∧ h'.get (.array id) (.integer i) = .ok v ∧
      ((h'.items id).size : Int) =
        (if i.toInt = (h.items id).size then ((h.items id).size : Int) + 1
          else (h.items id).size) ∧
      forall p : Nat, elementPlace i (h.items id).size ≠ p ->
        (h'.items id)[p]? = (h.items id)[p]? := by
  cases hplace : resolvePlace? i (h.items id).size with
  | none =>
      rw [set_array, hplace] at hset
      cases hset
  | some place =>
      rw [set_array_of_place hplace] at hset
      cases hset
      rw [items_setItems hid]
      by_cases hend : i.toInt = (h.items id).size
      · rw [resolvePlace?_of_eq hend] at hplace
        cases hplace
        rw [setAt, if_pos rfl, if_pos hend]
        refine ⟨rfl, ?_, by simp, ?_⟩
        · have hnew : ((h.setItems id ((h.items id).push v)).items id)[(h.items id).size]? =
              some v := by
            rw [items_setItems hid, Array.getElem?_push_size]
          refine get_array_of_place ?_ hnew
          simp only [elementPlace]
          omega
        · intro p hp
          simp only [elementPlace] at hp
          rw [Array.getElem?_push, if_neg (by omega)]
      · rw [resolvePlace?_of_ne hend] at hplace
        rcases resolveIndex?_eq_some.mp hplace with ⟨hlt, hi⟩
        rw [setAt, if_neg (Nat.ne_of_lt hlt), if_neg hend]
        refine ⟨rfl, ?_, by simp, ?_⟩
        · have hnew : ((h.setItems id ((h.items id).setIfInBounds place v)).items id)[place]? =
              some v := by
            rw [items_setItems hid, Array.getElem?_setIfInBounds_self_of_lt hlt]
          refine get_array_of_place ?_ hnew
          rw [items_setItems hid, Array.size_setIfInBounds, hi]
        · intro p hp
          rw [Array.getElem?_setIfInBounds_ne (by omega)]

/-- Deleting an element that was inserted gives it back and undoes the insertion. -/
theorem delete_of_insert_array (hid : id < h.arrays.size) (hlow : 0 <= i.toInt)
    (hhigh : i.toInt <= (h.items id).size) (v : Value) :
    exists h', h.insert (.array id) (.integer i) v = .ok v h' ∧
      h'.delete (.array id) (.integer i) = .ok v h := by
  have hplace : resolvePlace? i (h.items id).size = some i.toInt.toNat :=
    resolvePlace?_of_nonneg (by omega) (by omega)
  have hle : i.toInt.toNat <= (h.items id).size := by omega
  refine ⟨_, insert_array_of_place hplace, ?_⟩
  have hnew : ((h.setItems id (insertAt (h.items id) i.toInt.toNat v)).items id)[i.toInt.toNat]? =
      some v := by
    rw [items_setItems hid, ← Array.getElem?_toList, toList_insertAt hle,
      List.getElem?_insertIdx_self]
    exact if_pos hle
  rw [delete_array_of_place _ hnew]
  · rw [items_setItems hid, eraseAt_insertAt hle, setItems_setItems, setItems_items hid]
  · simp only [elementPlace]
    omega

theorem pop_of_push (hid : id < h.arrays.size) (v : Value) :
    exists h', h.push (.array id) v = .ok v h' ∧ h'.pop (.array id) = .ok v h := by
  refine ⟨_, rfl, ?_⟩
  rw [pop, items_setItems hid, Array.back?_push, Array.pop_push, setItems_setItems,
    setItems_items hid]
  rfl

end Arrays

/-- The operations on the elements of an array agree on what an index stands for.  Reading and
deleting take every index of an element, from the beginning or from the end, setting and inserting
also the place behind the last element; a negative index is that of the element so many places
before the end.  What was set is read again, what was inserted is deleted again, and what was
pushed is popped again, without a trace. -/
theorem array_operations_agree {h : Heap} {id : Nat} (hid : id < h.arrays.size) (v : Value)
    (i : Int64) :
    let a := Value.array id
    let n := (h.items id).size
    ((exists r, h.get a (.integer i) = .ok r) ↔ -(n : Int) <= i.toInt ∧ i.toInt < n) ∧
    ((exists r h', h.delete a (.integer i) = .ok r h') ↔ -(n : Int) <= i.toInt ∧ i.toInt < n) ∧
    ((exists r h', h.set a (.integer i) v = .ok r h') ↔ -(n : Int) <= i.toInt ∧ i.toInt <= n) ∧
    ((exists r h', h.insert a (.integer i) v = .ok r h') ↔ -(n : Int) <= i.toInt ∧ i.toInt <= n) ∧
    (forall v' h', h.set a (.integer i) v = .ok v' h' ->
      v' = v ∧ h'.get a (.integer i) = .ok v ∧
      ((h'.items id).size : Int) = (if i.toInt = n then (n : Int) + 1 else n) ∧
      forall p : Nat, elementPlace i n ≠ p -> (h'.items id)[p]? = (h.items id)[p]?) ∧
    (0 <= i.toInt -> i.toInt <= n ->
      exists h', h.insert a (.integer i) v = .ok v h' ∧
        h'.delete a (.integer i) = .ok v h) ∧
    (forall (p : Nat) x, (h.items id)[p]? = some x -> i.toInt = p ∨ i.toInt + n = p ->
      ActsAt h id i v p x) ∧
    (exists h', h.push a v = .ok v h' ∧ h'.pop a = .ok v h) := by
  refine ⟨get_array_succeeds, delete_array_succeeds, set_array_succeeds, insert_array_succeeds,
    fun _ _ => get_of_set_array hid, fun hlow hhigh => delete_of_insert_array hid hlow hhigh v,
    ?_, pop_of_push hid v⟩
  intro p x hx hp
  have hlt : p < (h.items id).size := (Array.getElem?_eq_some_iff.mp hx).1
  apply actsAt _ hx
  simp only [elementPlace]
  omega

def couple : Heap where
  arrays := #[#[.integer 7, .integer 8]]

/-- The index behind the last element inserts and is not read, and the last index from the end is
that of the first element. -/
theorem couple_operations_agree :
    0 < couple.arrays.size ∧
      (exists h, couple.insert (.array 0) (.integer 2) .none = .ok .none h ∧
        h.delete (.array 0) (.integer 2) = .ok .none couple) ∧
      ¬ (exists r, couple.get (.array 0) (.integer 2) = .ok r) ∧
      ActsAt couple 0 (-2) .none 0 (.integer 7) := by
  have hid : 0 < couple.arrays.size := by decide
  obtain ⟨hget, -, -, -, -, hinsert, -, -⟩ := array_operations_agree hid .none 2
  obtain ⟨-, -, -, -, -, -, hacts, -⟩ := array_operations_agree hid .none (-2)
  have hout : ¬ (exists r, couple.get (.array 0) (.integer 2) = .ok r) := by
    rw [hget]
    decide
  exact ⟨hid, hinsert (by decide) (by decide), hout, hacts 0 _ rfl (Or.inr (by decide))⟩

end Heap
end StackScript
