import StackScript.Proofs.Heights.Statement
import StackScript.Proofs.Machine.Levels

/-!
# What an expression leaves alone

While an expression is evaluated nothing is written but slots that it can name, whatever it calls:
the operands that wait for its value stay, and in the end there is one value more on the stack.
-/

namespace StackScript

/-! ## Code that is calm -/

/-- Between two indices the code is not left, keeps `h` values and writes only slots below `n`. -/
structure Seat.Calm (S : Seat) (height : Nat -> Nat) (n h ip stop : Nat) : Prop where
  keeps : forall (p : Nat) (i : Instr), ip <= p -> p < stop ->
    S.function.code.instrs[p]? = some i -> h + i.taken <= height p
  slots : forall (p : Nat) (i : Instr), ip <= p -> p < stop ->
    S.function.code.instrs[p]? = some i -> forall s, s ∈ i.writes -> s < n
  inside : forall (p : Nat) (i : Instr), ip <= p -> p < stop ->
    S.function.code.instrs[p]? = some i -> forall t, t ∈ i.successors p -> ip <= t ∧ t <= stop

/-- A call of the function, in a sound machine, is as high as it should be in front of an
instruction. -/
structure Seat.Stands (S : Seat) (height : Nat -> Nat) (ip : Nat) (m : Machine) : Prop where
  sound : (m.within (S.frame ip)).Sound
  on : S.On m.heap
  size : m.stack.size = S.base + height ip

namespace Seat

variable {S : Seat} {height : Nat -> Nat} {n h ip stop : Nat} {m x : Machine}
variable {outer : List Frame}

theorem Stands.isIn (hs : S.Stands height ip m) : S.In m :=
  ⟨hs.on, hs.sound.lawful.steady⟩

/-- Places on the stack below the height `h` of the call that are none of its first `n` slots. -/
def Apart (S : Seat) (n h j : Nat) : Prop :=
  j < S.base + h ∧ forall s, s < n -> j ≠ S.base + s

theorem Top.not_below {t : Nat} (htop : S.Top height outer t m) :
    ¬ S.Below height outer t m := by
  rintro ⟨base, -, above, c, hframes, -⟩
  rw [htop.frames] at hframes
  have hlength := congrArg List.length hframes
  simp only [List.length_append, List.length_cons] at hlength
  lia

/-- A turn from an index in calm code leads to one, and changes nothing that is kept. -/
theorem Passes.calm {m m' : Machine} {p t : Nat} (hpass : S.Passes height outer m m' p t)
    (hk : S.function.Keeps height) (hc : S.Calm height n h ip stop) (hp : ip <= p ∧ p <= stop)
    (hbelow : S.Below height outer p m -> h + 1 <= height p) (hnot : ¬ m.IsAt outer stop)
    (hraised : m'.frames.length = outer.length + 1 -> m.raised? = none) :
    (ip <= t ∧ t <= stop) ∧ (S.Below height outer t m' -> h + 1 <= height t) ∧
      forall j, S.Apart n h j -> m'.stack[j]? = m.stack[j]? := by
  have hlt (htop : S.Top height outer p m) : p < stop :=
    Nat.lt_of_le_of_ne hp.2 fun heq => hnot ⟨_, htop.frames, heq⟩
  cases hpass with
  | above hb _ hstack =>
      refine ⟨hp, fun _ => hbelow hb, fun j hj => hstack j ?_⟩
      have hheight := hbelow hb
      have hlow := hj.1
      lia
  | back hb htop hstack =>
      refine ⟨hp, fun hb' => (htop.not_below hb').elim, fun j hj => hstack j ?_⟩
      have hheight := hbelow hb
      have hlow := hj.1
      lia
  | goes hi htop _ htop' ht hstack =>
      have hkeeps := hc.keeps p _ hp.1 (hlt htop) hi
      refine ⟨hc.inside p _ hp.1 (hlt htop) hi t ht, fun hb => (htop'.not_below hb).elim, ?_⟩
      intro j hj
      have hlow := hj.1
      have hsize := htop.size
      exact hstack j (by lia) fun s hs => hj.2 s (hc.slots p _ hp.1 (hlt htop) hi s hs)
  | opens hi hopens htop _ hstack =>
      have hkeeps := hc.keeps p _ hp.1 (hlt htop) hi
      have hflow := (hk.instrs p _ hi).flow _ (Instr.successors_of_opens hopens)
      rw [Instr.heightAfter, Instr.given_of_opens hopens] at hflow
      refine ⟨⟨by lia, hlt htop⟩, fun _ => by lia, fun j hj => ?_⟩
      have hlow := hj.1
      have hsize := htop.size
      exact hstack j (by lia)
  | catches hne _ _ _ htop _ =>
      have hlength := congrArg List.length htop.frames
      exact absurd (hraised hlength) hne

/-- From the beginning of calm code to its end nothing changes that is kept. -/
theorem Calm.runs (hc : S.Calm height n h ip stop) (hk : S.function.Keeps height)
    (hle : ip <= stop) (hs : S.Stands height ip m) (hrun : S.runs ip stop m none x) :
    S.Stands height stop x ∧ forall j, S.Apart n h j -> x.stack[j]? = m.stack[j]? := by
  have hwalk : forall {M x : Machine} {v : Option Value} {outer : List Frame} {p : Nat},
      M.Outcome outer stop v x -> v = none -> M.Sound -> S.On M.heap ->
      S.Active height outer p M -> ip <= p ∧ p <= stop ->
      (S.Below height outer p M -> h + 1 <= height p) ->
      S.Stands height stop x ∧ forall j, S.Apart n h j -> x.stack[j]? = M.stack[j]? := by
    intro M x v outer p hout
    induction hout generalizing p with
    | arrives hat =>
        rename_i M
        intro _ hsound hon hactive _ _
        rcases hat with ⟨f, hframes, hip⟩
        rcases hactive with htop | ⟨base, -, above, c, hbelow, -⟩
        · have hf := htop.frames
          rw [hframes] at hf
          cases hf
          refine ⟨⟨?_, hon, ?_⟩, fun _ _ => rfl⟩
          · have hsame : ({ M with frames := outer } : Machine).within (S.frame stop) = M := by
              unfold Machine.within
              rw [← hip]
              show ({ M with frames := S.frame p :: outer } : Machine) = M
              rw [← htop.frames]
            rw [hsame]
            exact hsound
          · rw [← hip]
            exact htop.size
        · rw [hframes] at hbelow
          have hlength := congrArg List.length hbelow
          simp only [List.length_append, List.length_cons] at hlength
          lia
    | throws => exact fun hv => nomatch hv
    | goes hnot hmoves hout ih =>
        intro hv hsound hon hactive hp hbelow
        rename_i M M' x' v'
        rcases hmoves.frames with ⟨above, f, hframes, hraised⟩
        have hlength : outer.length < M'.frames.length := by
          rw [hframes, List.length_append, List.length_cons]
          lia
        rcases hactive.passes hsound hon hk hmoves.tick hlength with ⟨t, hpass⟩
        have hlast : M'.frames.length = outer.length + 1 -> M.raised? = none := by
          intro heq
          refine hraised (List.eq_nil_of_length_eq_zero ?_)
          rw [hframes, List.length_append, List.length_cons] at heq
          lia
        rcases hpass.calm hk hc hp hbelow hnot hlast with ⟨ht, hbelow', hstack⟩
        rcases ih hv (hsound.next hmoves.tick) (hon.extends (hsound.extends hmoves.tick))
          hpass.active ht hbelow' with ⟨hstands, hrest⟩
        exact ⟨hstands, fun j hj => (hrest j hj).trans (hstack j hj)⟩
  have htop : S.Top height m.frames ip (m.within (S.frame ip)) := ⟨rfl, hs.size⟩
  exact hwalk (M := m.within (S.frame ip)) hrun rfl hs.sound hs.on (Or.inl htop)
    ⟨Nat.le_refl _, hle⟩ fun hb => (htop.not_below hb).elim

end Seat

/-! ## The code of expressions -/

mutual

/-- The code of an expression is left only at its end. -/
theorem Expr.tight_code (e : Expr) (k : Variable.Index) :
    Instr.Tight ((e.code k).map Prod.fst) := by
  cases e with
  | literal | text | function => exact Instr.tight_singleton rfl
  | read v => cases v <;> exact Instr.tight_singleton rfl
  | assign v a =>
      rw [Expr.code, List.map_append]
      refine (a.tight_code k).append ?_
      cases v <;> exact Instr.tight_singleton rfl
  | update v op opLine a =>
      rw [Expr.code]
      split
      · exact Instr.tight_singleton rfl
      · rw [List.map_append, List.map_cons]
        refine Instr.Tight.append ?_ (Instr.Tight.cons ?_ ?_)
        · refine (a.tight_code k).cons ?_
          cases v <;> trivial
        · cases v <;> exact Instr.tight_singleton rfl
        · trivial
  | unary op a =>
      rw [Expr.code, List.map_append]
      exact (a.tight_code k).append (Instr.tight_singleton rfl)
  | binary op a b =>
      rw [Expr.code, List.map_append, List.map_append]
      exact ((a.tight_code k).append (b.tight_code k)).append (Instr.tight_singleton rfl)
  | ternary op a b c =>
      rw [Expr.code, List.map_append, List.map_append, List.map_append]
      exact (((a.tight_code k).append (b.tight_code k)).append (c.tight_code k)).append
        (Instr.tight_singleton rfl)
  | connect op a opLine b =>
      rw [Expr.code, List.map_append, List.map_cons, List.map_cons]
      have hb : Instr.Tight (.pop :: (b.code k).map Prod.fst) := (b.tight_code k).cons trivial
      refine (a.tight_code k).append (hb.cons ?_)
      have hlength : (Instr.pop :: (b.code k).map Prod.fst).length = b.size + 1 := by
        rw [List.length_cons, List.length_map, Expr.length_code]
      cases op
      · exact Nat.le_of_eq hlength.symm
      · exact Nat.le_of_eq hlength.symm
  | call f args =>
      rw [Expr.code, List.map_append, List.map_append]
      exact ((f.tight_code k).append (Expr.tight_codes args k)).append (Instr.tight_singleton rfl)
  | property o key =>
      rw [Expr.code, List.map_append]
      exact (o.tight_code k).append (Instr.tight_singleton rfl)
  | setProperty o key a =>
      rw [Expr.code, List.map_append, List.map_append]
      exact ((o.tight_code k).append (a.tight_code k)).append (Instr.tight_singleton rfl)
  | updateProperty o key op opLine a =>
      rw [Expr.code, List.map_append, List.map_append, List.map_cons, List.map_cons]
      have ha : Instr.Tight (.getProperty (k (.text key)) :: (a.code k).map Prod.fst) :=
        (a.tight_code k).cons trivial
      refine Instr.Tight.append ((o.tight_code k).append ?_) ?_
      · exact ha.cons trivial
      · exact (Instr.tight_singleton rfl).cons trivial
  | updateItem o i op opLine a =>
      rw [Expr.code, List.map_append, List.map_append, List.map_append, List.map_cons,
        List.map_cons]
      have ha : Instr.Tight (.binary .get :: (a.code k).map Prod.fst) :=
        (a.tight_code k).cons trivial
      refine Instr.Tight.append (((o.tight_code k).append (i.tight_code k)).append ?_) ?_
      · exact ha.cons trivial
      · exact (Instr.tight_singleton rfl).cons trivial
  | array items | table items =>
      rw [Expr.code, List.map_append]
      exact (Expr.tight_codes items k).append (Instr.tight_singleton rfl)

theorem Expr.tight_codes (es : List Expr) (k : Variable.Index) :
    Instr.Tight ((Expr.codes k es).map Prod.fst) := by
  cases es with
  | nil => exact Instr.tight_nil
  | cons e es =>
      rw [Expr.codes, List.map_append]
      exact (e.tight_code k).append (Expr.tight_codes es k)

end

mutual

theorem Expr.le_of_mem_heights {n h : Nat} (e : Expr) (hh : h ∈ e.heights n) : n <= h := by
  cases e with
  | literal | text | function | read => exact Nat.le_of_eq (List.mem_singleton.mp hh).symm
  | assign v a =>
      rcases List.mem_append.mp hh with ha | hlast
      · exact a.le_of_mem_heights ha
      · simp only [List.mem_singleton] at hlast
        lia
  | update v op opLine a =>
      rw [Expr.heights] at hh
      split at hh
      · exact Nat.le_of_eq (List.mem_singleton.mp hh).symm
      · simp only [List.cons_append, List.mem_cons, List.mem_append, List.not_mem_nil, or_false]
          at hh
        rcases hh with rfl | ha | hlast
        · exact Nat.le_refl _
        · exact Nat.le_of_succ_le (a.le_of_mem_heights ha)
        · lia
  | unary op a =>
      rcases List.mem_append.mp hh with ha | hlast
      · exact a.le_of_mem_heights ha
      · simp only [List.mem_singleton] at hlast
        lia
  | binary op a b =>
      simp only [Expr.heights, List.mem_append, List.mem_singleton] at hh
      rcases hh with (ha | hb) | hlast
      · exact a.le_of_mem_heights ha
      · exact Nat.le_of_succ_le (b.le_of_mem_heights hb)
      · lia
  | ternary op a b c =>
      simp only [Expr.heights, List.mem_append, List.mem_singleton] at hh
      rcases hh with ((ha | hb) | hc) | hlast
      · exact a.le_of_mem_heights ha
      · exact Nat.le_of_succ_le (b.le_of_mem_heights hb)
      · have hle := c.le_of_mem_heights hc
        lia
      · lia
  | connect op a opLine b =>
      simp only [Expr.heights, List.mem_append, List.mem_cons] at hh
      rcases hh with ha | hjump | hpop | hb
      · exact a.le_of_mem_heights ha
      · lia
      · lia
      · exact b.le_of_mem_heights hb
  | call f args =>
      simp only [Expr.heights, List.mem_append, List.mem_singleton] at hh
      rcases hh with (hf | hargs) | hlast
      · exact f.le_of_mem_heights hf
      · exact Nat.le_of_succ_le (Expr.le_of_mem_allHeights args hargs)
      · lia
  | property o key =>
      rcases List.mem_append.mp hh with ho | hlast
      · exact o.le_of_mem_heights ho
      · simp only [List.mem_singleton] at hlast
        lia
  | setProperty o key a =>
      simp only [Expr.heights, List.mem_append, List.mem_singleton] at hh
      rcases hh with (ho | ha) | hlast
      · exact o.le_of_mem_heights ho
      · exact Nat.le_of_succ_le (a.le_of_mem_heights ha)
      · lia
  | updateProperty o key op opLine a =>
      simp only [Expr.heights, List.mem_append, List.mem_cons, List.not_mem_nil, or_false] at hh
      rcases hh with (ho | hdup | hget | ha) | hlast
      · exact o.le_of_mem_heights ho
      · lia
      · lia
      · have hle := a.le_of_mem_heights ha
        lia
      · lia
  | updateItem o i op opLine a =>
      simp only [Expr.heights, List.mem_append, List.mem_cons, List.not_mem_nil, or_false] at hh
      rcases hh with ((ho | hi) | hdup | hget | ha) | hlast
      · exact o.le_of_mem_heights ho
      · exact Nat.le_of_succ_le (i.le_of_mem_heights hi)
      · lia
      · lia
      · have hle := a.le_of_mem_heights ha
        lia
      · lia
  | array items | table items =>
      simp only [Expr.heights, List.mem_append, List.mem_singleton] at hh
      rcases hh with hitems | hlast
      · exact Expr.le_of_mem_allHeights items hitems
      · lia

theorem Expr.le_of_mem_allHeights {n h : Nat} (es : List Expr) (hh : h ∈ Expr.allHeights n es) :
    n <= h := by
  cases es with
  | nil => cases hh
  | cons e es =>
      rcases List.mem_append.mp hh with he | hes
      · exact e.le_of_mem_heights he
      · exact Nat.le_of_succ_le (Expr.le_of_mem_allHeights es hes)

end

def Lines.WritesBelow (n : Nat) (lines : Lines) : Prop :=
  forall x, x ∈ lines -> forall s, s ∈ x.1.writes -> s < n

namespace Lines

variable {n : Nat} {a b : Lines}

@[simp] theorem writesBelow_nil : WritesBelow n [] := by
  simp [WritesBelow]

@[simp] theorem writesBelow_cons {x : Instr × Nat} :
    WritesBelow n (x :: a) ↔ (forall s, s ∈ x.1.writes -> s < n) ∧ WritesBelow n a := by
  simp [WritesBelow]

@[simp] theorem writesBelow_append :
    WritesBelow n (a ++ b) ↔ WritesBelow n a ∧ WritesBelow n b := by
  simp [WritesBelow, or_imp, forall_and]

end Lines

theorem Variable.writes_get {v : Variable} {k : Variable.Index} : (v.get k).writes = [] := by
  cases v <;> rfl

theorem Variable.writes_set_lt {v : Variable} {n : Nat} {k : Variable.Index} (hv : v.Within n) :
    forall s, s ∈ (v.set k).writes -> s < n := by
  intro s hs
  cases v with
  | slot m =>
      rw [List.mem_singleton.mp hs]
      exact hv
  | global x => cases hs

section Writes

variable {known : Nat -> Prop} {k : Variable.Index} {n : Nat}

mutual

theorem Expr.writesBelow_code (e : Expr) (hw : e.Within known n) :
    Lines.WritesBelow n (e.code k) := by
  cases e with
  | literal | text | function => simp [Expr.code, Instr.writes]
  | read v => simp [Expr.code, Variable.writes_get]
  | assign v a =>
      simp only [Expr.code, Lines.writesBelow_append, Lines.writesBelow_cons,
        Lines.writesBelow_nil, and_true]
      exact ⟨a.writesBelow_code hw.2, Variable.writes_set_lt hw.1⟩
  | update v op opLine a =>
      rw [Expr.code]
      split
      · rename_i slot i hinc
        have hslot : Variable.Within n (.slot slot) := (increment?_some hinc).1 ▸ hw.1
        simp only [Lines.writesBelow_cons, Lines.writesBelow_nil, and_true]
        exact fun s hs => List.mem_singleton.mp hs ▸ hslot
      · simp only [Lines.writesBelow_append, Lines.writesBelow_cons, Lines.writesBelow_nil,
          Variable.writes_get, and_true]
        exact ⟨⟨nofun, a.writesBelow_code hw.2⟩, nofun, Variable.writes_set_lt hw.1⟩
  | unary op a => simp [Expr.code, Instr.writes, a.writesBelow_code hw]
  | binary op a b =>
      simp [Expr.code, Instr.writes, a.writesBelow_code hw.1, b.writesBelow_code hw.2]
  | ternary op a b c =>
      simp [Expr.code, Instr.writes, a.writesBelow_code hw.1, b.writesBelow_code hw.2.1,
        c.writesBelow_code hw.2.2]
  | connect op a opLine b =>
      cases op <;> simp [Expr.code, Connective.jump, Instr.writes, a.writesBelow_code hw.1,
        b.writesBelow_code hw.2]
  | call f args =>
      simp [Expr.code, Instr.writes, f.writesBelow_code hw.1, Expr.writesBelow_codes args hw.2]
  | property o key => simp [Expr.code, Instr.writes, o.writesBelow_code hw]
  | setProperty o key a =>
      simp [Expr.code, Instr.writes, o.writesBelow_code hw.1, a.writesBelow_code hw.2]
  | updateProperty o key op opLine a =>
      simp [Expr.code, Instr.writes, o.writesBelow_code hw.1, a.writesBelow_code hw.2]
  | updateItem o i op opLine a =>
      simp [Expr.code, Instr.writes, o.writesBelow_code hw.1, i.writesBelow_code hw.2.1,
        a.writesBelow_code hw.2.2]
  | array items => simp [Expr.code, Instr.writes, Expr.writesBelow_codes items hw]
  | table items => simp [Expr.code, Instr.writes, Expr.writesBelow_codes items hw.2]

theorem Expr.writesBelow_codes (es : List Expr) (hw : Expr.AllWithin known n es) :
    Lines.WritesBelow n (Expr.codes k es) := by
  cases es with
  | nil => exact Lines.writesBelow_nil
  | cons e es => simp [Expr.codes, e.writesBelow_code hw.1, Expr.writesBelow_codes es hw.2]

end

end Writes

theorem Instr.StaysWithin.successors {i : Instr} {room p t : Nat} (hi : i.StaysWithin room)
    (ht : t ∈ i.successors p) : p < t ∧ t <= p + 1 + room := by
  cases i with
  | jump | jumpIfFalse | jumpIfTrue =>
      have hroom : _ <= room := hi
      simp only [Instr.successors, Instr.continues, Instr.jumpTarget?] at ht
      simp at ht
      lia
  | loop | forBegin | forNext | ret => exact hi.elim
  | throw => cases ht
  | _ =>
      simp only [Instr.successors, Instr.continues, Instr.jumpTarget?] at ht
      simp at ht
      lia

/-- An expression stands in a function at an index and a height, and can name the slots below
`n`. -/
structure Seat.Places (S : Seat) (height : Nat -> Nat) (known : Nat -> Prop) (k : Variable.Index)
    (n h ip : Nat) (e : Expr) : Prop where
  pos : 0 < n
  le : n <= h
  within : e.Within known n
  code : S.Has ip ((e.code k).map Prod.fst)
  constants : Indexed S.function k e.constants
  inside : ip + e.size < S.function.code.size
  heights : HeightsAt height ip (e.heights h)
  stop : height (ip + e.size) = h + 1

/-- The code at an index of a function. -/
theorem Seat.has_of_codeAt {S : Seat} {ip : Nat} {lines : Lines}
    (h : CodeAt S.function ip lines) : S.Has ip (lines.map Prod.fst) := by
  intro j i hi
  rw [List.getElem?_map] at hi
  rcases Option.map_eq_some_iff.mp hi with ⟨x, hx, rfl⟩
  exact along_iff.mp h j x hx

/-- Where an expression is a statement. -/
theorem Stmt.Placed.places {S : Seat} {height : Nat -> Nat} {known : Nat -> Prop}
    {k : Variable.Index} {loop : Option Nat} {floor n ip line : Nat} {x : Exits} {e : Expr}
    (h : (Stmt.expr e line).Placed S.function height known k loop floor n ip x)
    (hcode : CodeAt S.function ip ((Stmt.expr e line).code k x ip)) :
    S.Places height known k n n ip e := by
  rcases h.after_expr rfl with ⟨he, hstop, -⟩
  have hsize := h.inside
  simp only [Stmt.code, along_append] at hcode
  simp only [Stmt.size] at hsize
  exact ⟨Nat.lt_of_lt_of_le h.pos h.floor_le, Nat.le_refl n, h.fits, Seat.has_of_codeAt hcode.1,
    h.constants, by lia, he, hstop⟩

namespace Seat

variable {S : Seat} {height : Nat -> Nat} {known : Nat -> Prop} {k : Variable.Index}
variable {n h ip : Nat} {e : Expr} {m x : Machine}

/-- The code of an expression is calm. -/
theorem Places.calm (hp : S.Places height known k n h ip e) :
    S.Calm height n h ip (ip + e.size) := by
  have hline {p : Nat} {i : Instr} (hlo : ip <= p) (hhi : p < ip + e.size)
      (hi : S.function.code.instrs[p]? = some i) :
      exists j line, p = ip + j ∧ (e.code k)[j]? = some (i, line) := by
    rcases Nat.exists_eq_add_of_le hlo with ⟨j, rfl⟩
    have hj : j < (e.code k).length := by
      rw [Expr.length_code]
      lia
    have hget : ((e.code k).map Prod.fst)[j]? = some (e.code k)[j].1 := by
      rw [List.getElem?_map, List.getElem?_eq_getElem hj]
      rfl
    have hcode := hp.code j _ hget
    rw [hi] at hcode
    cases hcode
    exact ⟨j, _, rfl, List.getElem?_eq_getElem hj⟩
  have hlow {p : Nat} (hlo : ip <= p) (hhi : p <= ip + e.size) : h <= height p := by
    rcases Nat.lt_or_eq_of_le hhi with hlt | rfl
    · rcases Nat.exists_eq_add_of_le hlo with ⟨j, rfl⟩
      have hj : j < (e.heights h).length := by
        rw [Expr.length_heights]
        lia
      rw [along_iff.mp hp.heights j _ (List.getElem?_eq_getElem hj)]
      exact e.le_of_mem_heights (List.getElem_mem hj)
    · rw [hp.stop]
      exact Nat.le_succ h
  have hfits := e.code_fits hp.pos hp.within hp.le hp.constants hp.inside hp.heights hp.stop
  refine ⟨fun p i hlo hhi hi => ?_, fun p i hlo hhi hi => ?_, fun p i hlo hhi hi t ht => ?_⟩
  · rcases hline hlo hhi hi with ⟨j, line, rfl, hj⟩
    rcases along_iff.mp hfits j _ hj with ⟨hfit, hquiet | hfloor⟩
    · -- What is quiet takes at most the value that it forgets, and then the height is kept.
      have hbefore := hlow hlo (Nat.le_of_lt hhi)
      cases i with
      | pop =>
          have hafter := hlow (Nat.le_succ_of_le hlo) hhi
          have hflow := hfit.flow (ip + j + 1) (by simp [Instr.successors, Instr.continues])
          have hreach : 1 < height (ip + j) := hfit.operands
          simp only [Instr.heightAfter, Instr.taken, Instr.given] at hflow ⊢
          lia
      | jump | loop => exact hbefore
      | _ => cases hquiet
    · exact hfloor
  · rcases hline hlo hhi hi with ⟨j, line, rfl, hj⟩
    exact e.writesBelow_code hp.within _ (List.mem_of_getElem? hj)
  · rcases hline hlo hhi hi with ⟨j, line, rfl, hj⟩
    have hget : ((e.code k).map Prod.fst)[j]? = some i := by
      rw [List.getElem?_map, hj]
      rfl
    have hsucc := (e.tight_code k j i hget).successors ht
    rw [List.length_map, Expr.length_code] at hsucc
    lia

end Seat
end StackScript
