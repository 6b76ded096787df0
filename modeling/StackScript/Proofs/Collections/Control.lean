import StackScript.Proofs.Machine.Operands
import StackScript.Proofs.Reading.Hidden

/-!
# What the code of a statement does not touch

Control goes on inside the code of a statement or by one of the exits of the loop around it.  The
code stands at or above the height at which the statement begins, so do the locals that its `try`
ranges keep, and the slots that a statement spares are not among those of its instructions.
-/

namespace StackScript

/-! ## Where control goes -/

/-- Control goes on between two indices or by one of the exits of a loop. -/
def Exits.Reaches (x : Exits) (lo hi ip : Nat) (y : Instr × Nat) : Prop :=
  forall t, t ∈ y.1.successors ip ->
    (lo <= t ∧ t <= hi) ∨ t = x.again ∨ (t = x.leave ∧ exists offset, y.1 = .jump offset)

section Reaches

variable {x x' : Exits} {lo hi lo' hi' ip line offset : Nat} {i : Instr} {y : Instr × Nat}

theorem Exits.Reaches.mono (h : x.Reaches lo hi ip y) (hlo : lo' <= lo) (hhi : hi <= hi') :
    x.Reaches lo' hi' ip y := by
  intro t ht
  rcases h t ht with hin | hout
  · exact Or.inl ⟨Nat.le_trans hlo hin.1, Nat.le_trans hin.2 hhi⟩
  · exact Or.inr hout

/-- What reaches an exit that lies between the indices stays between them. -/
theorem Exits.Reaches.close (h : x.Reaches lo hi ip y) (hagain : lo <= x.again ∧ x.again <= hi)
    (hleave : lo <= x.leave ∧ x.leave <= hi) : x'.Reaches lo hi ip y := by
  intro t ht
  rcases h t ht with hin | rfl | ⟨rfl, -⟩
  · exact Or.inl hin
  · exact Or.inl hagain
  · exact Or.inl hleave

theorem reaches_of_moves (hi' : i.moves = false) (hlo : lo <= ip) (hhi : ip < hi) :
    x.Reaches lo hi ip (i, line) := by
  intro t ht
  have hstays : i.StaysWithin 0 := Instr.staysWithin_of_moves hi'
  have hnext := hstays.successors ht
  exact Or.inl (by lia)

theorem reaches_jumpIfFalse (hlo : lo <= ip) (hhi : ip + 1 + offset <= hi) :
    x.Reaches lo hi ip (.jumpIfFalse offset, line) := by
  intro t ht
  have hstays : (Instr.jumpIfFalse offset).StaysWithin offset := Nat.le_refl offset
  have hnext := hstays.successors ht
  exact Or.inl (by lia)

theorem reaches_jump (hlo : lo <= ip) (hhi : ip + 1 + offset <= hi) :
    x.Reaches lo hi ip (.jump offset, line) := by
  intro t ht
  have hstays : (Instr.jump offset).StaysWithin offset := Nat.le_refl offset
  have hnext := hstays.successors ht
  exact Or.inl (by lia)

theorem reaches_loop (hlo : lo + offset <= ip + 1) (hhi : ip < hi) :
    x.Reaches lo hi ip (.loop offset, line) := by
  intro t ht
  have hback : offset <= ip + 1 := by lia
  have htarget : t = ip + 1 - offset := by
    simpa [Instr.successors, Instr.continues, Instr.jumpTarget?, hback] using ht
  exact Or.inl (by lia)

theorem reaches_forBegin {slot vars : Nat} (hlo : lo <= ip) (hhi : ip + 1 + offset <= hi) :
    x.Reaches lo hi ip (.forBegin slot vars offset, line) := by
  intro t ht
  have htarget : t = ip + 1 ∨ t = ip + 1 + offset := by
    simpa [Instr.successors, Instr.continues, Instr.jumpTarget?] using ht
  exact Or.inl (by lia)

theorem reaches_forNext {slot vars : Nat} (hlo : lo + offset <= ip + 1) (hhi : ip < hi) :
    x.Reaches lo hi ip (.forNext slot vars offset, line) := by
  intro t ht
  have hback : offset <= ip + 1 := by lia
  have htarget : t = ip + 1 ∨ t = ip + 1 - offset := by
    simpa [Instr.successors, Instr.continues, Instr.jumpTarget?, hback] using ht
  exact Or.inl (by lia)

theorem Expr.reaches_code (e : Expr) (k : Variable.Index) (p : Nat) :
    Along (x.Reaches p (p + e.size)) p (e.code k) := by
  refine along_iff.mpr ?_
  intro j y hj t ht
  have hlt := (List.getElem?_eq_some_iff.mp hj).1
  have hstays := e.tight_code k j y.1 (by rw [List.getElem?_map, hj]; rfl)
  have hnext := hstays.successors ht
  rw [List.length_map, Expr.length_code] at hnext
  rw [Expr.length_code] at hlt
  exact Or.inl (by lia)

/-- The code of an expression between two indices. -/
theorem Expr.reaches_between (e : Expr) (k : Variable.Index) {p : Nat} (hlo : lo <= p)
    (hhi : p + e.size <= hi) : Along (x.Reaches lo hi) p (e.code k) :=
  (e.reaches_code k p).imp fun _ _ h => h.mono hlo hhi

theorem reaches_pops (n : Nat) {p : Nat} (hlo : lo <= p) (hhi : p + n <= hi) :
    Along (x.Reaches lo hi) p (pops n line) := by
  refine along_iff.mpr ?_
  intro j y hj
  have hlt := (List.getElem?_eq_some_iff.mp hj).1
  have hy : y = (.pop, line) := by
    have hmem := List.mem_of_getElem? hj
    simpa [pops] using (List.eq_of_mem_replicate hmem)
  rw [length_pops] at hlt
  rw [hy]
  exact reaches_of_moves rfl (by lia) (by lia)

theorem reaches_leaveFrom (hbehind : ip < x.leave) :
    x.Reaches lo hi ip (x.leaveFrom ip, line) := by
  intro t ht
  have htarget : t = ip + 1 + (x.leave - (ip + 1)) := by
    simpa [Exits.leaveFrom, Instr.successors, Instr.continues, Instr.jumpTarget?] using ht
  exact Or.inr (Or.inr ⟨by lia, _, rfl⟩)

theorem reaches_againFrom (hbehind : x.ahead = true -> ip < x.again)
    (hbefore : x.ahead = false -> x.again <= ip) :
    x.Reaches lo hi ip (x.againFrom ip, line) := by
  intro t ht
  cases hahead : x.ahead with
  | true =>
      have hlt := hbehind hahead
      have htarget : t = ip + 1 + (x.again - (ip + 1)) := by
        simpa [Exits.againFrom, hahead, Instr.successors, Instr.continues, Instr.jumpTarget?]
          using ht
      exact Or.inr (Or.inl (by lia))
  | false =>
      have hle := hbefore hahead
      have hback : ip + 1 - x.again <= ip + 1 := Nat.sub_le _ _
      have htarget : t = ip + 1 - (ip + 1 - x.again) := by
        simpa [Exits.againFrom, hahead, Instr.successors, Instr.continues, Instr.jumpTarget?]
          using ht
      exact Or.inr (Or.inl (by lia))

end Reaches

section Statements

variable {f : Function} {height : Nat -> Nat} {known : Nat -> Prop} {k : Variable.Index}
variable {loop : Option Nat} {floor n p : Nat} {x : Exits} {s : Stmt}

/-- Control stays in the code of a statement or takes one of the exits of its loop. -/
theorem Stmt.Placed.reaches (h : s.Placed f height known k loop floor n p x) :
    Along (x.Reaches p (p + s.size)) p (s.code k x p) := by
  induction s generalizing loop floor n p x with
  | skip => exact along_nil _ _
  | seq a b iha ihb =>
      rw [Stmt.size]
      refine along_seq.mpr ⟨?_, ?_⟩
      · exact (iha h.of_seq.1).imp fun _ _ hy => hy.mono (Nat.le_refl _) (by lia)
      · exact (ihb h.of_seq.2).imp fun _ _ hy => hy.mono (by lia) (by lia)
  | drop j line => exact reaches_pops j (Nat.le_refl _) (Nat.le_refl _)
  | expr e line | throw e line | define name e line =>
      rw [Stmt.size]
      exact along_expr_then.mpr ⟨e.reaches_between k (Nat.le_refl _) (by lia),
        reaches_of_moves rfl (by lia) (by lia)⟩
  | output sink e line =>
      have hmoves : sink.instr.moves = false := by
        cases sink <;> rfl
      rw [Stmt.size]
      exact along_expr_then.mpr ⟨e.reaches_between k (Nat.le_refl _) (by lia),
        reaches_of_moves hmoves (by lia) (by lia)⟩
  | use e line =>
      rw [Stmt.code, along_append, along_cons, along_cons, Expr.length_code, Stmt.size]
      exact ⟨e.reaches_between k (Nat.le_refl _) (by lia),
        reaches_of_moves rfl (by lia) (by lia), reaches_of_moves rfl (by lia) (by lia),
        along_nil _ _⟩
  | bind e => exact e.reaches_code k p
  | ret e line =>
      rw [Stmt.size]
      refine along_expr_then.mpr ⟨e.reaches_between k (Nat.le_refl _) (by lia), ?_⟩
      intro t ht
      cases ht
  | leave j line =>
      rcases h.fits with ⟨m, hm, -⟩
      have hlands := h.exits m hm
      have hbehind := hlands.leave_behind
      rw [Stmt.size] at hbehind ⊢
      exact along_pops_then.mpr ⟨reaches_pops j (Nat.le_refl _) (by lia),
        reaches_leaveFrom (by lia)⟩
  | again j line =>
      rcases h.fits with ⟨m, hm, -⟩
      have hlands := h.exits m hm
      have hsize : (Stmt.again j line).size = j + 1 := rfl
      rw [Stmt.size]
      refine along_pops_then.mpr ⟨reaches_pops j (Nat.le_refl _) (by lia),
        reaches_againFrom ?_ ?_⟩
      · intro hahead
        have hbehind := hlands.again_behind hahead
        lia
      · intro hahead
        have hbefore := hlands.again_before hahead
        lia
  | cond c line body bodyLine other ihb iho =>
      rw [Stmt.size]
      refine along_cond.mpr
        { test := c.reaches_between k (Nat.le_refl _) (by lia)
          jump := reaches_jumpIfFalse (by lia) (by lia)
          pop := reaches_of_moves rfl (by lia) (by lia)
          body := (ihb h.of_cond.1).imp fun _ _ hy => hy.mono (by lia) (by lia)
          skip := reaches_jump (by lia) (by lia)
          otherPop := reaches_of_moves rfl (by lia) (by lia)
          other := (iho h.of_cond.2).imp fun _ _ hy => hy.mono (by lia) (by lia) }
  | «while» c line body bodyLine ih =>
      rw [Stmt.size]
      refine along_while.mpr
        { test := c.reaches_between k (Nat.le_refl _) (by lia)
          jump := reaches_jumpIfFalse (by lia) (by lia)
          pop := reaches_of_moves rfl (by lia) (by lia)
          body := (ih h.of_while).imp fun _ _ hy => (hy.mono (by lia) (by lia)).close ?_ ?_
          back := reaches_loop (by lia) (by lia)
          stopPop := reaches_of_moves rfl (by lia) (by lia) }
      · simp only
        lia
      · simp only
        lia
  | stepping c line jumpLine step stepLine body bodyLine ih =>
      rw [Stmt.size]
      refine along_stepping.mpr
        { test := c.reaches_between k (Nat.le_refl _) (by lia)
          jump := reaches_jumpIfFalse (by lia) (by lia)
          pop := reaches_of_moves rfl (by lia) (by lia)
          jumpOver := reaches_jump (by lia) (by lia)
          step := step.reaches_between k (by lia) (by lia)
          stepPop := reaches_of_moves rfl (by lia) (by lia)
          again := reaches_loop (by lia) (by lia)
          body := (ih h.of_stepping).imp fun _ _ hy => (hy.mono (by lia) (by lia)).close ?_ ?_
          back := reaches_loop (by lia) (by lia)
          stopPop := reaches_of_moves rfl (by lia) (by lia) }
      · simp only
        lia
      · simp only
        lia
  | iterate slot vars line body bodyLine ih =>
      rw [Stmt.size]
      refine along_iterate.mpr
        { first := reaches_forBegin (by lia) (by lia)
          body := (ih h.of_iterate).imp fun _ _ hy => (hy.mono (by lia) (by lia)).close ?_ ?_
          next := reaches_forNext (by lia) (by lia) }
      · simp only
        lia
      · simp only
        lia
  | «try» depth body bodyLine handler ihb ihh =>
      rw [Stmt.size]
      exact along_try.mpr
        { body := (ihb h.of_try.1).imp fun _ _ hy => hy.mono (by lia) (by lia)
          skip := reaches_jump (by lia) (by lia)
          handler := (ihh h.of_try.2).imp fun _ _ hy => hy.mono (by lia) (by lia) }

/-! ## How high the code stands -/

theorem le_of_mem_descend {b j h : Nat} (hb : b + j <= n) (hh : h ∈ descend n j) : b <= h := by
  induction j generalizing n with
  | zero => cases hh
  | succ j ih =>
      rcases List.mem_cons.mp hh with rfl | hh
      · lia
      · exact ih (by lia) hh

/-- A statement keeps what lies below its own locals and those of its innermost loop. -/
theorem Stmt.Fits.le_of_mem_heights {b h : Nat} (hfits : s.Fits known loop floor n)
    (hfloor : b <= floor) (hn : floor <= n) (hloop : forall m, loop = some m -> b <= m)
    (hh : h ∈ s.heights n) : b <= h := by
  have hbn : b <= n := Nat.le_trans hfloor hn
  induction s generalizing loop floor n with
  | skip => cases hh
  | seq a c iha ihc =>
      have hafter := Stmt.floor_le_after hfits.1 hn
      rcases List.mem_append.mp hh with hh | hh
      · exact iha hfits.1 hfloor hn hloop hh hbn
      · exact ihc hfits.2 hfloor hafter hloop hh (Nat.le_trans hfloor hafter)
  | drop j line =>
      have hj : floor + j <= n := hfits
      exact le_of_mem_descend (by lia) hh
  | expr e | output sink e | throw e | define name e | ret e =>
      rcases List.mem_append.mp hh with hh | hh
      · exact Nat.le_trans hbn (e.le_of_mem_heights hh)
      · rw [List.mem_singleton.mp hh]
        lia
  | use e line =>
      rcases List.mem_append.mp hh with hh | hh
      · exact Nat.le_trans hbn (e.le_of_mem_heights hh)
      · have hsame : h = n + 1 := by simpa using hh
        lia
  | bind e => exact Nat.le_trans hbn (e.le_of_mem_heights hh)
  | leave j line | again j line =>
      rcases hfits with ⟨m, hm, hj⟩
      have hbm := hloop m hm
      rcases List.mem_append.mp hh with hh | hh
      · exact le_of_mem_descend (by lia) hh
      · rw [List.mem_singleton.mp hh]
        lia
  | cond c line body bodyLine other ihb iho =>
      rcases hfits with ⟨-, ⟨hb, -⟩, ho, -⟩
      simp only [Stmt.heights, List.mem_append, List.mem_cons] at hh
      rcases hh with (hh | rfl | rfl | hh) | rfl | rfl | hh
      · exact Nat.le_trans hbn (c.le_of_mem_heights hh)
      · lia
      · lia
      · exact ihb hb hfloor hn hloop hh hbn
      · exact hbn
      · lia
      · exact iho ho hfloor hn hloop hh hbn
  | «while» c line body bodyLine ih =>
      have hown : forall m, some n = some m -> b <= m := by
        intro m hm
        cases hm
        exact hbn
      simp only [Stmt.heights, List.mem_append, List.mem_cons, List.not_mem_nil, or_false] at hh
      rcases hh with (hh | rfl | rfl | hh) | rfl | rfl
      · exact Nat.le_trans hbn (c.le_of_mem_heights hh)
      · lia
      · lia
      · exact ih hfits.2.1 hfloor hn hown hh hbn
      · exact hbn
      · lia
  | stepping c line jumpLine step stepLine body bodyLine ih =>
      have hown : forall m, some n = some m -> b <= m := by
        intro m hm
        cases hm
        exact hbn
      simp only [Stmt.heights, List.mem_append, List.mem_cons, List.not_mem_nil, or_false] at hh
      rcases hh with ((hh | rfl | rfl | rfl | hh) | rfl | rfl | hh) | rfl | rfl
      · exact Nat.le_trans hbn (c.le_of_mem_heights hh)
      · lia
      · lia
      · exact hbn
      · exact Nat.le_trans hbn (step.le_of_mem_heights hh)
      · lia
      · exact hbn
      · exact ih hfits.2.2.1 hfloor hn hown hh hbn
      · exact hbn
      · lia
  | iterate slot vars line body bodyLine ih =>
      have hown : forall m, some (n + vars + 2) = some m -> b <= m := by
        intro m hm
        cases hm
        lia
      simp only [Stmt.heights, List.mem_append, List.mem_cons, List.not_mem_nil, or_false] at hh
      rcases hh with (rfl | hh) | rfl
      · exact hbn
      · exact ih hfits.2.2.1 hfloor (by lia) hown hh (by lia)
      · lia
  | «try» depth body bodyLine handler ihb ihh =>
      rcases hfits with ⟨-, ⟨hb, -⟩, hhandler, -⟩
      simp only [Stmt.heights, List.mem_append, List.mem_cons] at hh
      rcases hh with hh | rfl | hh
      · exact ihb hb hbn (Nat.le_refl _) hloop hh hbn
      · exact hbn
      · exact ihh hhandler hfloor (by lia) hloop hh (by lia)

theorem Stmt.Placed.floor_le_height {q : Nat} (h : s.Placed f height known k loop floor n p x)
    (hloop : forall m, loop = some m -> floor <= m) (hlo : p <= q) (hhi : q < p + s.size) :
    floor <= height q := by
  have hheights := h.heights
  simp only [along_append, along_cons, Stmt.length_heights] at hheights
  have hj : q - p < (s.heights n).length := by
    rw [Stmt.length_heights]
    lia
  have hheight := along_iff.mp hheights.1 _ _ (List.getElem?_eq_getElem hj)
  rw [Nat.add_sub_cancel' hlo] at hheight
  rw [hheight]
  exact h.fits.le_of_mem_heights (Nat.le_refl _) h.floor_le hloop (List.getElem_mem hj)

/-- A handler finds no fewer locals than its `try` keeps. -/
theorem Stmt.Fits.le_depth {r : TryRange} (hfits : s.Fits known loop floor n) (hn : floor <= n)
    (hr : r ∈ s.ranges p) : floor <= r.depth := by
  induction s generalizing loop floor n p with
  | seq a b iha ihb =>
      rcases List.mem_append.mp hr with hr | hr
      · exact iha hfits.1 hn hr
      · exact ihb hfits.2 (Stmt.floor_le_after hfits.1 hn) hr
  | cond c line body bodyLine other ihb iho =>
      rcases List.mem_append.mp hr with hr | hr
      · exact ihb hfits.2.1.1 hn hr
      · exact iho hfits.2.2.1 hn hr
  | «while» c line body bodyLine ih => exact ih hfits.2.1 hn hr
  | stepping c line jumpLine step stepLine body bodyLine ih => exact ih hfits.2.2.1 hn hr
  | iterate slot vars line body bodyLine ih => exact ih hfits.2.2.1 (by lia) hr
  | «try» depth body bodyLine handler ihb ihh =>
      rcases hfits with ⟨hdepth, ⟨hb, -⟩, hhandler, -⟩
      rcases List.mem_cons.mp hr with rfl | hr
      · rw [← hdepth] at hn
        exact hn
      · rcases List.mem_append.mp hr with hr | hr
        · exact Nat.le_trans hn (ihb hb (Nat.le_refl _) hr)
        · exact ihh hhandler (by lia) hr
  | _ => cases hr

theorem Stmt.bounds_of_mem_ranges {r : TryRange} (hr : r ∈ s.ranges p) :
    p <= r.start ∧ r.stop <= p + s.size := by
  rw [Stmt.ranges_eq] at hr
  rcases List.mem_map.mp hr with ⟨t, ht, rfl⟩
  exact (Stmt.isIn_of_mem_tries ht).bounds

end Statements

/-! ## Slots that the code spares -/

/-- The kept slots of an instruction lie from `floor` on. -/
def Instr.SparesBelow (kept : Nat -> Prop) (floor : Nat) (y : Instr × Nat) : Prop :=
  forall slot, slot ∈ y.1.slots -> kept slot -> floor <= slot + 1

section Spares

variable {f : Function} {height : Nat -> Nat} {known : Nat -> Prop} {k : Variable.Index}
variable {loop next : Option Nat} {floor floor' n p ip line : Nat} {x : Exits} {s : Stmt}
variable {kept kept' : Nat -> Prop} {i : Instr} {y : Instr × Nat}

theorem Instr.SparesBelow.mono (h : Instr.SparesBelow kept' floor' y) (hfloor : floor <= floor')
    (hkept : forall slot, kept slot -> kept' slot) : Instr.SparesBelow kept floor y :=
  fun slot hslot hk => Nat.le_trans hfloor (h slot hslot (hkept slot hk))

theorem sparesBelow_of_slots (hi : i.slots = []) : Instr.SparesBelow kept floor (i, line) := by
  intro slot hslot
  rw [hi] at hslot
  cases hslot

theorem sparesBelow_slot {n : Nat} (hi : i.slots = [n]) (hn : ¬ kept n) :
    Instr.SparesBelow kept floor (i, line) := by
  intro slot hslot hk
  rw [hi, List.mem_singleton] at hslot
  rw [hslot] at hk
  exact absurd hk hn

theorem Variable.get_sparesBelow {v : Variable} (hv : v.Spares kept) :
    Instr.SparesBelow kept floor (v.get k, line) := by
  cases v with
  | slot n => exact sparesBelow_slot rfl hv
  | global name => exact sparesBelow_of_slots rfl

theorem Variable.set_sparesBelow {v : Variable} (hv : v.Spares kept) :
    Instr.SparesBelow kept floor (v.set k, line) := by
  cases v with
  | slot n => exact sparesBelow_slot rfl hv
  | global name => exact sparesBelow_of_slots rfl

mutual

theorem Expr.sparesBelow_code (e : Expr) (h : e.Spares kept) :
    forall y, y ∈ e.code k -> Instr.SparesBelow kept floor y := by
  cases e with
  | literal | text | function => exact List.forall_mem_singleton.mpr (sparesBelow_of_slots rfl)
  | read v line => exact List.forall_mem_singleton.mpr (Variable.get_sparesBelow h)
  | assign v a line =>
      exact List.forall_mem_append.mpr ⟨a.sparesBelow_code h.2,
        List.forall_mem_singleton.mpr (Variable.set_sparesBelow h.1)⟩
  | update v op opLine a line =>
      rw [Expr.code]
      cases hi : increment? v op a with
      | some j =>
          rcases increment?_some hi with ⟨rfl, -, -⟩
          exact List.forall_mem_singleton.mpr (sparesBelow_slot rfl h.1)
      | none =>
          refine List.forall_mem_cons.mpr ⟨Variable.get_sparesBelow h.1, ?_⟩
          refine List.forall_mem_append.mpr ⟨a.sparesBelow_code h.2, ?_⟩
          exact List.forall_mem_cons.mpr ⟨sparesBelow_of_slots rfl,
            List.forall_mem_singleton.mpr (Variable.set_sparesBelow h.1)⟩
  | unary op a line =>
      exact List.forall_mem_append.mpr ⟨a.sparesBelow_code h,
        List.forall_mem_singleton.mpr (sparesBelow_of_slots rfl)⟩
  | binary op a b line =>
      refine List.forall_mem_append.mpr ⟨?_, List.forall_mem_singleton.mpr
        (sparesBelow_of_slots rfl)⟩
      exact List.forall_mem_append.mpr ⟨a.sparesBelow_code h.1, b.sparesBelow_code h.2⟩
  | ternary op a b c line =>
      refine List.forall_mem_append.mpr ⟨?_, List.forall_mem_singleton.mpr
        (sparesBelow_of_slots rfl)⟩
      refine List.forall_mem_append.mpr ⟨?_, c.sparesBelow_code h.2.2⟩
      exact List.forall_mem_append.mpr ⟨a.sparesBelow_code h.1, b.sparesBelow_code h.2.1⟩
  | connect op a opLine b =>
      have hjump : (op.jump (b.size + 1)).slots = [] := by
        cases op <;> rfl
      refine List.forall_mem_append.mpr ⟨a.sparesBelow_code h.1, ?_⟩
      refine List.forall_mem_cons.mpr ⟨sparesBelow_of_slots hjump, ?_⟩
      exact List.forall_mem_cons.mpr ⟨sparesBelow_of_slots rfl, b.sparesBelow_code h.2⟩
  | call g args line =>
      refine List.forall_mem_append.mpr ⟨?_, List.forall_mem_singleton.mpr
        (sparesBelow_of_slots rfl)⟩
      exact List.forall_mem_append.mpr ⟨g.sparesBelow_code h.1, Expr.sparesBelow_codes args h.2⟩
  | property o key line =>
      exact List.forall_mem_append.mpr ⟨o.sparesBelow_code h,
        List.forall_mem_singleton.mpr (sparesBelow_of_slots rfl)⟩
  | setProperty o key a line =>
      refine List.forall_mem_append.mpr ⟨?_, List.forall_mem_singleton.mpr
        (sparesBelow_of_slots rfl)⟩
      exact List.forall_mem_append.mpr ⟨o.sparesBelow_code h.1, a.sparesBelow_code h.2⟩
  | updateProperty o key op opLine a line =>
      refine List.forall_mem_append.mpr ⟨?_, ?_⟩
      · refine List.forall_mem_append.mpr ⟨o.sparesBelow_code h.1, ?_⟩
        refine List.forall_mem_cons.mpr ⟨sparesBelow_of_slots rfl, ?_⟩
        exact List.forall_mem_cons.mpr ⟨sparesBelow_of_slots rfl, a.sparesBelow_code h.2⟩
      · exact List.forall_mem_cons.mpr ⟨sparesBelow_of_slots rfl,
          List.forall_mem_singleton.mpr (sparesBelow_of_slots rfl)⟩
  | updateItem o i op opLine a line =>
      refine List.forall_mem_append.mpr ⟨?_, ?_⟩
      · refine List.forall_mem_append.mpr ⟨?_, ?_⟩
        · exact List.forall_mem_append.mpr ⟨o.sparesBelow_code h.1, i.sparesBelow_code h.2.1⟩
        · refine List.forall_mem_cons.mpr ⟨sparesBelow_of_slots rfl, ?_⟩
          exact List.forall_mem_cons.mpr ⟨sparesBelow_of_slots rfl, a.sparesBelow_code h.2.2⟩
      · exact List.forall_mem_cons.mpr ⟨sparesBelow_of_slots rfl,
          List.forall_mem_singleton.mpr (sparesBelow_of_slots rfl)⟩
  | array items line =>
      exact List.forall_mem_append.mpr ⟨Expr.sparesBelow_codes items h,
        List.forall_mem_singleton.mpr (sparesBelow_of_slots rfl)⟩
  | table items line =>
      exact List.forall_mem_append.mpr ⟨Expr.sparesBelow_codes items h,
        List.forall_mem_singleton.mpr (sparesBelow_of_slots rfl)⟩

theorem Expr.sparesBelow_codes (es : List Expr) (h : Expr.AllSpare kept es) :
    forall y, y ∈ Expr.codes k es -> Instr.SparesBelow kept floor y := by
  cases es with
  | nil => exact List.forall_mem_nil _
  | cons e es =>
      exact List.forall_mem_append.mpr ⟨e.sparesBelow_code h.1, Expr.sparesBelow_codes es h.2⟩

end

theorem sparesBelow_pops (j : Nat) :
    forall y, y ∈ pops j line -> Instr.SparesBelow kept floor y := by
  intro y hy
  rw [List.eq_of_mem_replicate hy]
  exact sparesBelow_of_slots rfl

/-- The only kept slots that the code touches are those of loops over collections inside of it. -/
theorem Stmt.sparesBelow_code (h : s.Spares kept next n) (hfits : s.Fits known loop floor n)
    (hn : floor <= n) : forall y, y ∈ s.code k x p -> Instr.SparesBelow kept floor y := by
  induction s generalizing kept next loop floor n p x with
  | skip => exact List.forall_mem_nil _
  | seq a b iha ihb =>
      exact List.forall_mem_append.mpr ⟨iha h.1 hfits.1 hn,
        ihb h.2 hfits.2 (Stmt.floor_le_after hfits.1 hn)⟩
  | drop j line => exact sparesBelow_pops j
  | expr e | throw e | define name e | ret e =>
      exact List.forall_mem_append.mpr ⟨e.sparesBelow_code h,
        List.forall_mem_singleton.mpr (sparesBelow_of_slots rfl)⟩
  | output sink e =>
      have hsink : sink.instr.slots = [] := by
        cases sink <;> rfl
      exact List.forall_mem_append.mpr ⟨e.sparesBelow_code h,
        List.forall_mem_singleton.mpr (sparesBelow_of_slots hsink)⟩
  | use e =>
      refine List.forall_mem_append.mpr ⟨e.sparesBelow_code h, ?_⟩
      exact List.forall_mem_cons.mpr ⟨sparesBelow_of_slots rfl,
        List.forall_mem_singleton.mpr (sparesBelow_of_slots rfl)⟩
  | bind e => exact e.sparesBelow_code h
  | leave j =>
      exact List.forall_mem_append.mpr ⟨sparesBelow_pops j,
        List.forall_mem_singleton.mpr (sparesBelow_of_slots rfl)⟩
  | again j =>
      have hslots (ip : Nat) : (x.againFrom ip).slots = [] := by
        unfold Exits.againFrom
        split <;> rfl
      exact List.forall_mem_append.mpr ⟨sparesBelow_pops j,
        List.forall_mem_singleton.mpr (sparesBelow_of_slots (hslots _))⟩
  | cond c line body bodyLine other ihb iho =>
      refine List.forall_mem_append.mpr
        ⟨List.forall_mem_append.mpr ⟨c.sparesBelow_code h.1, ?_⟩, ?_⟩
      · exact List.forall_mem_cons.mpr ⟨sparesBelow_of_slots rfl,
          List.forall_mem_cons.mpr ⟨sparesBelow_of_slots rfl, ihb h.2.1 hfits.2.1.1 hn⟩⟩
      · exact List.forall_mem_cons.mpr ⟨sparesBelow_of_slots rfl,
          List.forall_mem_cons.mpr ⟨sparesBelow_of_slots rfl, iho h.2.2 hfits.2.2.1 hn⟩⟩
  | «while» c line body bodyLine ih =>
      refine List.forall_mem_append.mpr
        ⟨List.forall_mem_append.mpr ⟨c.sparesBelow_code h.1, ?_⟩, ?_⟩
      · exact List.forall_mem_cons.mpr ⟨sparesBelow_of_slots rfl,
          List.forall_mem_cons.mpr ⟨sparesBelow_of_slots rfl, ih h.2 hfits.2.1 hn⟩⟩
      · exact List.forall_mem_cons.mpr ⟨sparesBelow_of_slots rfl,
          List.forall_mem_singleton.mpr (sparesBelow_of_slots rfl)⟩
  | stepping c line jumpLine step stepLine body bodyLine ih =>
      simp only [Stmt.code, List.forall_mem_append, List.forall_mem_cons]
      exact ⟨⟨⟨c.sparesBelow_code h.1, sparesBelow_of_slots rfl, sparesBelow_of_slots rfl,
        sparesBelow_of_slots rfl, step.sparesBelow_code h.2.1⟩, sparesBelow_of_slots rfl,
        sparesBelow_of_slots rfl, ih h.2.2 hfits.2.2.1 hn⟩, sparesBelow_of_slots rfl,
        sparesBelow_of_slots rfl, List.forall_mem_nil _⟩
  | iterate slot vars line body bodyLine ih =>
      -- The slots of the loop itself lie above the floor.
      have hslot : slot + 1 = n := hfits.1
      have hle : floor <= n + vars + 2 := by lia
      simp only [Stmt.code, List.forall_mem_append, List.forall_mem_cons]
      refine ⟨⟨?_, fun y hy => ?_⟩, ?_, List.forall_mem_nil _⟩
      · intro i hi _
        rw [Instr.slots, List.mem_singleton] at hi
        lia
      · exact (ih h.2.2 hfits.2.2.1 hle y hy).mono (Nat.le_refl _) fun _ => Or.inl
      · intro i hi _
        rw [Instr.slots, List.mem_range'_1] at hi
        lia
  | «try» depth body bodyLine handler ihb ihh =>
      have hle : floor <= n + 1 := Nat.le_succ_of_le hn
      refine List.forall_mem_append.mpr ⟨fun y hy => ?_, ?_⟩
      · exact (ihb h.1 hfits.2.1.1 (Nat.le_refl _) y hy).mono hn fun _ hk => hk
      · exact List.forall_mem_cons.mpr ⟨sparesBelow_of_slots rfl, ihh h.2 hfits.2.2.1 hle⟩

end Spares

end StackScript
