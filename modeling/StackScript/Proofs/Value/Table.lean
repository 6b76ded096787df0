import Mathlib.Data.List.Nodup
import Mathlib.Order.Compare
import StackScript.Value.Table

/-!
# Tables by their keys

An entry of a table is found by its key, and texts can be put in order in one way only.  So two
tables with the same values for the same keys have the same entries, in whatever order, and their
sorted keys are the same list.
-/

namespace StackScript

/-! ## Texts in order -/

section Sorting

variable {a b : String} {ks ks' : List String}

theorem compare_texts : compare a b = .lt ↔ a < b :=
  compareOfLessAndEq_eq_lt

theorem insertSorted_perm (key : String) (ks : List String) :
    (insertSorted key ks).Perm (key :: ks) := by
  induction ks with
  | nil => exact .refl _
  | cons k ks ih =>
      unfold insertSorted
      split
      · exact .refl _
      · exact (ih.cons k).trans (.swap key k ks)

theorem sortTexts_perm (ks : List String) : (sortTexts ks).Perm ks := by
  induction ks with
  | nil => exact .nil
  | cons key ks ih => exact (insertSorted_perm key _).trans (ih.cons key)

theorem insertSorted_sorted (key : String) (hks : ks.Pairwise (· <= ·)) :
    (insertSorted key ks).Pairwise (· <= ·) := by
  induction hks with
  | nil => exact List.pairwise_singleton _ _
  | @cons k ks hk hks ih =>
      unfold insertSorted
      split
      · rename_i hle
        refine .cons (fun k' hk' => ?_) (.cons hk hks)
        rcases List.mem_cons.mp hk' with rfl | hk'
        · exact hle
        · exact String.le_trans hle (hk k' hk')
      · rename_i hle
        refine .cons (fun k' hk' => ?_) ih
        rcases List.mem_cons.mp ((insertSorted_perm key ks).mem_iff.mp hk') with rfl | hk'
        · exact (String.le_total k k').resolve_right hle
        · exact hk k' hk'

theorem sortTexts_sorted (ks : List String) : (sortTexts ks).Pairwise (· <= ·) := by
  induction ks with
  | nil => exact .nil
  | cons key ks ih => exact insertSorted_sorted key ih

/-- There is only one way to put texts in order. -/
theorem sortTexts_eq_of_perm (h : ks.Perm ks') : sortTexts ks = sortTexts ks' := by
  refine List.Perm.eq_of_pairwise (fun _ _ _ _ => String.le_antisymm) (sortTexts_sorted ks)
    (sortTexts_sorted ks') ?_
  exact (sortTexts_perm ks).trans (h.trans (sortTexts_perm ks').symm)

theorem sortTexts_strictly (hks : ks.Nodup) :
    (sortTexts ks).Pairwise fun a b => compare a b = .lt := by
  have hnodup : (sortTexts ks).Nodup := (sortTexts_perm ks).nodup_iff.mpr hks
  refine (List.Pairwise.and (sortTexts_sorted ks) hnodup).imp fun h => ?_
  exact compare_texts.mpr (Std.lt_of_le_of_ne h.1 h.2)

/-- The first text in order is the least one. -/
theorem le_of_head?_sortTexts (hhead : (sortTexts ks).head? = some a) :
    a ∈ ks ∧ forall k, k ∈ ks -> a <= k := by
  have hsorted := sortTexts_sorted ks
  have hmem (k : String) : k ∈ sortTexts ks ↔ k ∈ ks := (sortTexts_perm ks).mem_iff
  rcases List.head?_eq_some_iff.mp hhead with ⟨rest, hrest⟩
  simp only [← hmem]
  rw [hrest] at hsorted ⊢
  refine ⟨List.mem_cons_self, fun k hk => ?_⟩
  rcases List.mem_cons.mp hk with rfl | hk
  · exact String.le_refl _
  · exact List.rel_of_pairwise_cons hsorted hk

end Sorting

namespace Table

section Lookups

variable {t t' : Table} {key k : String} {v : Value}

/-- A key has the value of its entry. -/
theorem getElem?_eq_some_iff_mem : t[key]? = some v ↔ (key, v) ∈ t.toList := by
  show t.toList.lookup key = some v ↔ _
  rcases t with ⟨entries, hdistinct⟩
  induction entries with
  | nil => simp
  | cons e entries ih =>
      rcases e with ⟨k, w⟩
      rw [List.map_cons, List.nodup_cons] at hdistinct
      have hrest := ih hdistinct.2
      rw [List.lookup_cons, List.mem_cons]
      by_cases hk : key = k
      · subst hk
        have hnone : (key, v) ∉ entries := fun hmem =>
          hdistinct.1 (List.mem_map.mpr ⟨_, hmem, rfl⟩)
        simp [hnone, eq_comm]
      · simpa [hk, beq_false_of_ne hk] using hrest

theorem mem_keys_iff : key ∈ t.keys ↔ exists v, t[key]? = some v := by
  simp [keys, getElem?_eq_some_iff_mem]

theorem contains_eq_isSome : t.contains key = t[key]?.isSome :=
  rfl

@[simp] theorem getElem?_empty : ({} : Table)[key]? = none :=
  rfl

theorem getElem?_erase (t : Table) (key k : String) :
    (t.erase key)[k]? = if key = k then none else t[k]? := by
  refine Option.ext fun v => ?_
  have hmem : (k, v) ∈ (t.erase key).toList ↔ (k, v) ∈ t.toList ∧ k ≠ key := by
    simp [erase]
  rw [getElem?_eq_some_iff_mem, hmem]
  split
  · rename_i hkey
    simp [hkey]
  · rename_i hkey
    rw [getElem?_eq_some_iff_mem, and_iff_left (Ne.symm hkey)]

theorem getElem?_insert (t : Table) (key k : String) (v : Value) :
    (t.insert key v)[k]? = if key = k then some v else t[k]? := by
  refine Option.ext fun w => ?_
  rw [getElem?_eq_some_iff_mem, insert, List.mem_cons, ← getElem?_eq_some_iff_mem, getElem?_erase]
  split
  · rename_i hkey
    simp [hkey, eq_comm]
  · rename_i hkey
    simp [Ne.symm hkey]

@[simp] theorem getElem?_insert_self : (t.insert key v)[key]? = some v := by
  simp [getElem?_insert]

/-- What holds of a value and of those of a table holds of all values behind the insertion. -/
theorem of_getElem?_insert {P : Value -> Prop} (hv : P v)
    (ht : forall (k : String) w, t[k]? = some w -> P w) (k : String) (w : Value)
    (hw : (t.insert key v)[k]? = some w) : P w := by
  rw [getElem?_insert] at hw
  split at hw
  · exact Option.some.inj hw ▸ hv
  · exact ht k w hw

end Lookups

/-! ## Tables with the same values -/

def Same (t t' : Table) : Prop :=
  forall key : String, t'[key]? = t[key]?

section Same

variable {t t' : Table} {key : String}

/-- The same values for the same keys are the same entries in some order. -/
theorem same_iff_perm : Same t t' ↔ t'.toList.Perm t.toList := by
  have hnodup (t : Table) : t.toList.Nodup := List.Nodup.of_map _ t.distinct
  rw [List.perm_ext_iff_of_nodup (hnodup t') (hnodup t)]
  constructor
  · rintro h ⟨k, v⟩
    rw [← getElem?_eq_some_iff_mem, ← getElem?_eq_some_iff_mem, h k]
  · intro h k
    refine Option.ext fun v => ?_
    rw [getElem?_eq_some_iff_mem, getElem?_eq_some_iff_mem, h]

theorem Same.insert (h : Same t t') (key : String) (v : Value) :
    Same (t.insert key v) (t'.insert key v) := by
  intro other
  rw [getElem?_insert, getElem?_insert, h other]

theorem Same.contains (h : Same t t') (key : String) : t'.contains key = t.contains key := by
  rw [contains_eq_isSome, contains_eq_isSome, h key]

theorem Same.size_eq (h : Same t t') : t'.size = t.size :=
  (same_iff_perm.mp h).length_eq

theorem Same.isEmpty_eq (h : Same t t') : t'.isEmpty = t.isEmpty :=
  (same_iff_perm.mp h).isEmpty_eq

theorem Same.orderedKeys_eq (h : Same t t') : t'.orderedKeys = t.orderedKeys :=
  sortTexts_eq_of_perm ((same_iff_perm.mp h).map Prod.fst)

end Same

/-! ## Keys in order -/

section Order

variable {t : Table} {key : String}

theorem mem_orderedKeys_iff : key ∈ t.orderedKeys ↔ exists v, t[key]? = some v := by
  rw [orderedKeys, (sortTexts_perm _).mem_iff, mem_keys_iff]

theorem orderedKeys_increasing (t : Table) :
    t.orderedKeys.Pairwise fun a b => compare a b = .lt :=
  sortTexts_strictly t.distinct

theorem length_orderedKeys (t : Table) : t.orderedKeys.length = t.size := by
  rw [orderedKeys, (sortTexts_perm _).length_eq, keys, List.length_map]
  rfl

theorem isEmpty_orderedKeys (t : Table) : t.orderedKeys.isEmpty = t.isEmpty := by
  rw [orderedKeys, (sortTexts_perm _).isEmpty_eq, keys, List.isEmpty_map, isEmpty]

@[simp] theorem orderedKeys_empty : ({} : Table).orderedKeys = [] :=
  rfl

end Order
end Table
end StackScript
