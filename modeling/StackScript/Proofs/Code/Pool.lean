import StackScript.Script.Layout

/-!
# The constant pool

Constants are only ever added behind those that are there, so each constant that the code mentions
is in the pool, it is found where its index says, and it stays there.
-/

namespace StackScript

theorem getElem?_idxOf {pool : Array Value} {v : Value} (hv : v ∈ pool) :
    pool[pool.idxOf v]? = some v := by
  cases pool with
  | mk l =>
      have hl : v ∈ l := by simpa using hv
      have hlt := List.idxOf_lt_length_of_mem hl
      rw [List.idxOf_toArray, List.getElem?_toArray, List.getElem?_eq_getElem hlt,
        List.getElem_idxOf]

/-! ## Adding a constant -/

namespace Code

theorem getElem?_of_textIndex?_eq_some {c : Code} {v : Value} {k : Nat}
    (h : c.textIndex? v = some k) : c.constants[k]? = some v := by
  cases v with
  | text s =>
      rcases Array.findIdx?_eq_some_iff_getElem.mp h with ⟨hk, hs, -⟩
      have heq : c.constants[k] = .text s := by simpa using hs
      rw [Array.getElem?_eq_getElem hk, heq]
  | _ => cases h

theorem textIndex?_isSome {c : Code} {s : String} (h : .text s ∈ c.constants) :
    (c.textIndex? (.text s)).isSome := by
  simpa [textIndex?] using Array.mem_iff_getElem.mp h

/-- The index that is given for a constant is that of the constant. -/
theorem getElem?_addConstant (c : Code) (v : Value) :
    (c.addConstant v).1.constants[(c.addConstant v).2]? = some v := by
  unfold addConstant
  cases hidx : c.textIndex? v with
  | none => simp
  | some k => exact getElem?_of_textIndex?_eq_some hidx

theorem prefix_addConstant (c : Code) (v : Value) :
    c.constants.toList <+: (c.addConstant v).1.constants.toList := by
  unfold addConstant
  cases c.textIndex? v with
  | none => simp
  | some k => exact List.prefix_refl _

theorem mem_addConstant (c : Code) (v : Value) : v ∈ (c.addConstant v).1.constants :=
  Array.mem_of_getElem? (getElem?_addConstant c v)

theorem mem_addConstant_of_mem {c : Code} {v w : Value} (hw : w ∈ c.constants) :
    w ∈ (c.addConstant v).1.constants :=
  Array.mem_toList_iff.mp ((prefix_addConstant c v).subset (Array.mem_toList_iff.mpr hw))

theorem mem_or_of_mem_addConstant {c : Code} {v w : Value}
    (hw : w ∈ (c.addConstant v).1.constants) : w ∈ c.constants ∨ w = v := by
  unfold addConstant at hw
  cases hidx : c.textIndex? v with
  | none => simpa [hidx] using hw
  | some i =>
      rw [hidx] at hw
      exact Or.inl hw

/-- Adding a constant looks at nothing but the pool and changes nothing else. -/
theorem addConstant_eq (c : Code) (v : Value) : (c.addConstant v).1 =
    { c with constants := ({ constants := c.constants : Code }.addConstant v).1.constants } := by
  have hindex : c.textIndex? v = { constants := c.constants : Code }.textIndex? v := rfl
  unfold addConstant
  rw [hindex]
  cases { constants := c.constants : Code }.textIndex? v with
  | some i => rfl
  | none => rfl

/-! ## Adding constants one after another -/

theorem mem_foldl_addConstant (vs : List Value) (c : Code) (w : Value) :
    w ∈ (vs.foldl (fun c v => (c.addConstant v).1) c).constants ↔
      w ∈ c.constants ∨ w ∈ vs := by
  induction vs generalizing c with
  | nil => simp
  | cons v vs ih =>
      rw [List.foldl_cons, ih]
      constructor
      · rintro (hw | hw)
        · rcases mem_or_of_mem_addConstant hw with hw | rfl
          · exact Or.inl hw
          · exact Or.inr (List.mem_cons_self)
        · exact Or.inr (List.mem_cons_of_mem v hw)
      · rintro (hw | hw)
        · exact Or.inl (mem_addConstant_of_mem hw)
        · rcases List.mem_cons.mp hw with rfl | hw
          · exact Or.inl (mem_addConstant c w)
          · exact Or.inr hw

theorem foldl_addConstant_eq (vs : List Value) (c : Code) :
    vs.foldl (fun c v => (c.addConstant v).1) c = { c with
      constants := (vs.foldl (fun c v => (c.addConstant v).1)
        { constants := c.constants : Code }).constants } := by
  induction vs generalizing c with
  | nil => rfl
  | cons v vs ih =>
      rw [List.foldl_cons, ih, addConstant_eq, List.foldl_cons, ih (Code.addConstant _ v).1]

theorem prefix_foldl_addConstant (vs : List Value) (c : Code) : c.constants.toList <+:
    (vs.foldl (fun c v => (c.addConstant v).1) c).constants.toList := by
  induction vs generalizing c with
  | nil => exact List.prefix_refl _
  | cons v vs ih => exact (prefix_addConstant c v).trans (ih (c.addConstant v).1)

/-- Texts that are in the pool are not added again. -/
theorem foldl_addConstant_again {vs : List Value} {c : Code}
    (h : forall v, v ∈ vs -> (exists s, v = .text s) ∧ v ∈ c.constants) :
    vs.foldl (fun c v => (c.addConstant v).1) c = c := by
  induction vs with
  | nil => rfl
  | cons v vs ih =>
      rcases h v List.mem_cons_self with ⟨⟨s, rfl⟩, hmem⟩
      obtain ⟨k, hk⟩ := Option.isSome_iff_exists.mp (textIndex?_isSome hmem)
      have hsame : (c.addConstant (.text s)).1 = c := by
        rw [addConstant, hk]
      rw [List.foldl_cons, hsame]
      exact ih fun w hw => h w (List.mem_cons_of_mem _ hw)

end Code

/-! ## The pool of a body -/

theorem mem_poolOf {vs : List Value} {v : Value} : v ∈ poolOf vs ↔ v ∈ vs := by
  unfold poolOf
  rw [Code.mem_foldl_addConstant]
  simp [Code.empty]

theorem poolOf_append (xs ys : List Value) : poolOf (xs ++ ys) =
    (ys.foldl (fun c v => (c.addConstant v).1) { constants := poolOf xs : Code }).constants := by
  unfold poolOf
  rw [List.foldl_append, Code.foldl_addConstant_eq]

theorem poolOf_prefix (xs ys : List Value) :
    (poolOf xs).toList <+: (poolOf (xs ++ ys)).toList := by
  rw [poolOf_append]
  exact Code.prefix_foldl_addConstant ys { constants := poolOf xs }

end StackScript
