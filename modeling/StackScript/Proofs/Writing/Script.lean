import StackScript.Proofs.Writing.Progress

/-!
# Functions that are written from front to back

Written on a sheet in one pass, where the read of a local and an integer may be taken back, a
function comes out as the layout has it.  Each forward jump is filled in once, and none waits at the
end.
-/

namespace StackScript

/-! ## Expressions -/

section Expr

variable {k : Variable.Index}

/-- Only an integer literal is written as one integer. -/
theorem Expr.eq_integer_of_code {a : Expr} {i : Int64}
    (h : (a.code k).map Prod.fst = [.literal (.int i)]) :
    exists line, a = .literal (.int i) line := by
  have hlast := congrArg List.getLast? h
  have hlength := congrArg List.length h
  simp only [List.length_map, Expr.length_code, List.length_singleton] at hlength
  cases a with
  | literal v line =>
      simp only [Expr.code, List.map_cons, List.map_nil, List.cons.injEq, Instr.literal.injEq,
        and_true] at h
      exact ⟨line, by rw [h]⟩
  | connect | updateProperty | updateItem =>
      simp only [Expr.size] at hlength
      lia
  | read v => cases v <;> simp [Expr.code, Variable.get] at h
  | assign v => cases v <;> simp [Expr.code, Variable.set] at hlast
  | update v op opLine a =>
      rw [Expr.code] at h
      split at h
      · cases h
      · simp at h
  | _ => simp [Expr.code] at hlast

/-- The end of an assignment with an operator, when just the code of the right side stands behind
the read of the variable.  Code is taken back just if an integer is added to a local. -/
theorem Sheet.update_eq {t : Sheet} {text : Lines} {cs : List Value} {rs : List TryRange}
    {a : Expr} (h : t.Shows (text ++ a.code k) cs rs) (v : Variable) (op : Operator) (line : Nat) :
    t.update k v op text.length line =
      match increment? v op a with
      | some (n, i) => (t.cut (text.length - 1) n i).write [(.increment n i, line)]
      | none => t.write [(.binary (.arith op), line), (v.set k, line)] := by
  have hsince : t.since text.length = (a.code k).map Prod.fst := by
    rw [Sheet.since, h.instrs, List.map_append]
    exact List.drop_left' (by simp)
  cases hinc : increment? v op a with
  | some found =>
      rcases increment?_some hinc with ⟨rfl, rfl, l, rfl⟩
      unfold Sheet.update
      rw [hsince]
      rfl
  | none =>
      unfold Sheet.update
      split
      · rename_i n i hwritten
        rw [hsince] at hwritten
        rcases Expr.eq_integer_of_code hwritten with ⟨l, rfl⟩
        cases hinc
      · rfl

mutual

/-- Writing an expression adds its code and its constants, and no jump in it is left. -/
theorem Expr.emit_adds (a : Expr) {s t : Sheet} {text lines : Lines} {cs : List Value}
    {rs : List TryRange} {left : List (Nat × Nat)} {rounds others : List Nat}
    (h : s.Adds text lines cs rs left rounds others t) (hk : Places k (cs ++ a.constants)) :
    s.Adds text (lines ++ a.code k) (cs ++ a.constants) rs left rounds others (a.emit k t) := by
  cases a with
  | literal v line =>
      rw [Expr.constants, List.append_nil]
      exact h.plain (List.forall_mem_singleton.mpr rfl)
  | text t line =>
      refine (h.mention _).write (List.forall_mem_singleton.mpr ?_)
      exact Instr.settles_of_constant rfl (hk.lt (by simp [Expr.constants]))
  | function id line =>
      refine (h.mention _).write (List.forall_mem_singleton.mpr ?_)
      exact Instr.settles_of_constant rfl (hk.lt (by simp [Expr.constants]))
  | read v line => exact h.mention_get hk line
  | assign v a line =>
      simp only [Expr.code, Expr.constants, ← List.append_assoc] at hk ⊢
      refine (a.emit_adds (h.mention _) hk).write (List.forall_mem_singleton.mpr ?_)
      exact Variable.settles_set fun c hc => hk.lt (by simp [hc])
  | update v op opLine a line =>
      rw [Expr.constants, ← List.append_assoc] at hk ⊢
      have hget := h.mention_get hk.left opLine
      have ha := a.emit_adds hget hk
      have hshows := ha.shows
      rw [← List.append_assoc] at hshows
      rw [Expr.emit, hget.shows.size, Sheet.update_eq hshows, Expr.code]
      cases hinc : increment? v op a with
      | none =>
          have hset : ∀ x, x ∈ ([(.binary (.arith op), line), (v.set k, line)] : Lines) ->
              x.1.Settles (poolOf (cs ++ v.constants ++ a.constants)).size := by
            refine List.forall_mem_cons.mpr ⟨Instr.settles_of_isPlain rfl _, ?_⟩
            exact List.forall_mem_singleton.mpr
              (Variable.settles_set fun c hc => hk.lt (by simp [hc]))
          simpa using ha.write hset
      | some found =>
          rcases found with ⟨n, i⟩
          rcases increment?_some hinc with ⟨rfl, rfl, l, rfl⟩
          simp only [Variable.constants, Expr.constants, List.append_nil] at ha ⊢
          rw [Expr.code, List.append_assoc] at ha
          have hcut := h.cut ha rfl line
          rw [h.size] at hcut
          simpa using hcut
  | unary op a line =>
      rw [Expr.code, Expr.constants, ← List.append_assoc]
      exact (a.emit_adds h hk).plain (List.forall_mem_singleton.mpr rfl)
  | binary op a b line =>
      simp only [Expr.code, Expr.constants, ← List.append_assoc] at hk ⊢
      have hb := b.emit_adds (a.emit_adds h hk.left) hk
      exact hb.plain (List.forall_mem_singleton.mpr rfl)
  | ternary op a b c line =>
      simp only [Expr.code, Expr.constants, ← List.append_assoc] at hk ⊢
      have hb := b.emit_adds (a.emit_adds h hk.left.left) hk.left
      exact (c.emit_adds hb hk).plain (List.forall_mem_singleton.mpr rfl)
  | connect op a opLine b =>
      simp only [Expr.code, Expr.constants, ← List.append_assoc] at hk ⊢
      have hover := (a.emit_adds h hk.left).jumpOver op.isForward_jump op.aim_jump opLine
        fun u hu _ => b.emit_adds ((Sheet.Adds.refl hu).pop opLine) hk
      simpa [Expr.emit] using hover
  | call f args line =>
      simp only [Expr.code, Expr.constants, ← List.append_assoc] at hk ⊢
      have hargs := Expr.emitAll_adds args (f.emit_adds h hk.left) hk
      exact hargs.plain (List.forall_mem_singleton.mpr rfl)
  | property o key line =>
      simp only [Expr.code, Expr.constants, ← List.append_assoc] at hk ⊢
      refine ((o.emit_adds h hk.left).mention _).write (List.forall_mem_singleton.mpr ?_)
      exact Instr.settles_of_constant rfl (hk.lt (by simp))
  | setProperty o key a line =>
      rw [Expr.constants, List.append_cons, ← List.append_assoc, ← List.append_assoc] at hk ⊢
      rw [Expr.code, ← List.append_assoc, ← List.append_assoc]
      have ha := a.emit_adds ((o.emit_adds h hk.left.left).mention _) hk
      refine ha.write (List.forall_mem_singleton.mpr ?_)
      exact Instr.settles_of_constant rfl (hk.lt (by simp))
  | updateProperty o key op opLine a line =>
      rw [Expr.constants, List.append_cons, ← List.append_assoc, ← List.append_assoc] at hk ⊢
      have hlines : forall x,
          x ∈ ([(.duplicate, opLine), (.getProperty (k (.text key)), opLine)] : Lines) ->
          x.1.Settles (poolOf (cs ++ o.constants ++ [Value.text key])).size := by
        refine List.forall_mem_cons.mpr ⟨Instr.settles_of_isPlain rfl _, ?_⟩
        refine List.forall_mem_singleton.mpr ?_
        exact Instr.settles_of_constant rfl (hk.left.lt (by simp))
      have hend : forall x,
          x ∈ ([(.binary (.arith op), line), (.setProperty (k (.text key)), line)] : Lines) ->
          x.1.Settles (poolOf (cs ++ o.constants ++ [Value.text key] ++ a.constants)).size := by
        refine List.forall_mem_cons.mpr ⟨Instr.settles_of_isPlain rfl _, ?_⟩
        refine List.forall_mem_singleton.mpr ?_
        exact Instr.settles_of_constant rfl (hk.lt (by simp))
      have hread := ((o.emit_adds h hk.left.left).mention [.text key]).write hlines
      simpa [Expr.emit, Expr.code] using (a.emit_adds hread hk).write hend
  | updateItem o i op opLine a line =>
      simp only [Expr.constants, ← List.append_assoc] at hk ⊢
      have hi := i.emit_adds (o.emit_adds h hk.left.left) hk.left
      have hplain : forall x, x ∈ ([(.duplicatePair, opLine), (.binary .get, opLine)] : Lines) ->
          x.1.isPlain = true := List.forall_mem_cons.mpr ⟨rfl, List.forall_mem_singleton.mpr rfl⟩
      have hend : forall x, x ∈ ([(.binary (.arith op), line), (.ternary .set, line)] : Lines) ->
          x.1.isPlain = true := List.forall_mem_cons.mpr ⟨rfl, List.forall_mem_singleton.mpr rfl⟩
      simpa [Expr.emit, Expr.code] using (a.emit_adds (hi.plain hplain) hk).plain hend
  | array items line | table items line =>
      rw [Expr.code, ← List.append_assoc]
      exact (Expr.emitAll_adds items h hk).plain (List.forall_mem_singleton.mpr rfl)

theorem Expr.emitAll_adds (as : List Expr) {s t : Sheet} {text lines : Lines} {cs : List Value}
    {rs : List TryRange} {left : List (Nat × Nat)} {rounds others : List Nat}
    (h : s.Adds text lines cs rs left rounds others t)
    (hk : Places k (cs ++ Expr.allConstants as)) :
    s.Adds text (lines ++ Expr.codes k as) (cs ++ Expr.allConstants as) rs left rounds others
      (Expr.emitAll k as t) := by
  cases as with
  | nil =>
      rw [Expr.allConstants, Expr.codes, List.append_nil, List.append_nil]
      exact h
  | cons a as =>
      simp only [Expr.allConstants, Expr.codes, ← List.append_assoc] at hk ⊢
      exact Expr.emitAll_adds as (a.emit_adds h hk.left) hk

end

end Expr

/-! ## Statements -/

/-- Of the jumps to the next round, those that wait. -/
def Round.waiting (loop : Round) (ips : List Nat) : List Nat :=
  if loop.start?.isNone then ips else []

@[simp] theorem Round.waiting_nil (loop : Round) : loop.waiting [] = [] := by
  simp [waiting]

theorem Round.waiting_append (loop : Round) (ips ips' : List Nat) :
    loop.waiting (ips ++ ips') = loop.waiting ips ++ loop.waiting ips' := by
  unfold waiting
  split <;> rfl

/-- Writing a statement adds its code, its constants and its ranges, and its jumps out of the loop
around it wait. -/
def Stmt.Emits (k : Variable.Index) (a : Stmt) : Prop :=
  forall (loop : Round) (s : Sheet) (text : Lines) (cs : List Value) (rs : List TryRange)
    (ip : Nat), s.Shows text cs rs -> text.length = ip ->
      (forall x, x ∈ s.leaving -> x.2 <= loop.depth) ->
      Places k (cs ++ a.constants) ->
        s.Adds text (a.code k loop.exits ip) (cs ++ a.constants) (rs ++ a.ranges ip)
          ((a.exitsBy .leave ip).map fun j => (j, loop.depth))
          (loop.waiting (a.exitsBy .again ip)) [] (a.emit k loop s)

section Stmt

variable {k : Variable.Index}

theorem depth_le_append {leaving : List (Nat × Nat)} {depth : Nat}
    (h : forall x, x ∈ leaving -> x.2 <= depth) (ips : List Nat) :
    forall x, x ∈ ips.map (fun j => (j, depth)) ++ leaving -> x.2 <= depth :=
  List.forall_mem_append.mpr ⟨by simp, h⟩

theorem pops_plain (n line : Nat) : forall x, x ∈ pops n line -> x.1.isPlain = true := by
  intro x hx
  rw [List.eq_of_mem_replicate hx]
  rfl

namespace Stmt

variable {a b body other handler : Stmt} {c step : Expr} {line bodyLine : Nat}

/-- Statements without ranges and without jumps out of a loop. -/
theorem emits_of_adds (hexits : forall w ip, a.exitsBy w ip = [])
    (hranges : forall ip, a.ranges ip = [])
    (h : forall (loop : Round) (s : Sheet) (text : Lines) (cs : List Value) (rs : List TryRange)
      (ip : Nat), s.Shows text cs rs -> Places k (cs ++ a.constants) ->
        s.Adds text (a.code k loop.exits ip) (cs ++ a.constants) rs [] [] [] (a.emit k loop s)) :
    a.Emits k := by
  intro loop s text cs rs ip hs _ _ hk
  rw [hexits, hexits, hranges, Round.waiting_nil, List.append_nil]
  exact h loop s text cs rs ip hs hk

theorem emits_seq (ha : a.Emits k) (hb : b.Emits k) : (seq a b).Emits k := by
  intro loop s text cs rs ip hs hip hdepth hk
  simp only [constants, ranges, ← List.append_assoc] at hk ⊢
  have hadds := ha loop s text cs rs ip hs hip hdepth hk.left
  have hadds' := hb loop _ _ _ _ (ip + a.size) hadds.shows (by simp [hip])
    (by rw [hadds.leaving]; exact depth_le_append hdepth _) hk
  have hboth : s.Adds _ _ _ _ _ _ _ ((seq a b).emit k loop s) := hadds.trans hadds'
  simpa [code, exitsBy, Round.waiting_append] using hboth

theorem emits_leave (n line : Nat) : (leave n line).Emits k := by
  intro loop s text cs rs ip hs hip _ _
  have hpops := (Sheet.Adds.refl hs).plain (pops_plain n line)
  have hleave : s.Adds _ _ _ _ _ _ _ ((leave n line).emit k loop s) :=
    hpops.leave loop.depth line
  simpa [code, constants, ranges, exitsBy, hip, Exits.leaveFrom, Round.exits] using hleave

theorem emits_again (n line : Nat) : (again n line).Emits k := by
  intro loop s text cs rs ip hs hip _ _
  have hpops := (Sheet.Adds.refl hs).plain (pops_plain n line)
  cases hstart : loop.start? with
  | some start =>
      have hback := hpops.backTo (i := .loop) (fun _ => rfl) start line (ip + n + 1 - start)
        (by simp [hip])
      simpa [code, constants, ranges, exitsBy, emit, hstart, Exits.againFrom, Round.exits,
        Round.waiting] using hback
  | none =>
      have hnext := hpops.next line
      simpa [code, constants, ranges, exitsBy, emit, hip, hstart, Exits.againFrom, Round.exits,
        Round.waiting] using hnext

/-- A statement behind a pop. -/
theorem Emits.behind_pop (ha : a.Emits k) (loop : Round) {s : Sheet} {text : Lines}
    {cs : List Value} {rs : List TryRange} (hs : s.Shows text cs rs) (ip line : Nat)
    (hip : text.length + 1 = ip) (hdepth : forall x, x ∈ s.leaving -> x.2 <= loop.depth)
    (hk : Places k (cs ++ a.constants)) :
    s.Adds text ((.pop, line) :: a.code k loop.exits ip) (cs ++ a.constants) (rs ++ a.ranges ip)
      ((a.exitsBy .leave ip).map fun j => (j, loop.depth)) (loop.waiting (a.exitsBy .again ip)) []
      (a.emit k loop (s.write [(.pop, line)])) := by
  have hpop := (Sheet.Adds.refl hs).pop line
  simpa using hpop.trans (ha loop _ _ _ _ ip hpop.shows (by simpa using hip) hdepth hk)

theorem emits_cond (hb : body.Emits k) (ho : other.Emits k) :
    (cond c line body bodyLine other).Emits k := by
  intro loop s text cs rs ip hs hip hdepth hk
  simp only [constants, ranges, ← List.append_assoc] at hk ⊢
  have hcond := c.emit_adds (.refl hs) hk.left.left
  have hdepth' : forall x, x ∈ (c.emit k s).leaving -> x.2 <= loop.depth := by
    rwa [hcond.leaving]
  have hadds := hcond.branch line bodyLine
    (fun u hu hleaving => hb.behind_pop loop hu (ip + c.size + 2) line
      (by simp [hip]; lia) (by rwa [hleaving]) hk.left)
    (fun u front hfront hu hleaving => ho.behind_pop loop hu (ip + c.size + body.size + 4) bodyLine
      (by simp [hfront, hip]; lia) (by rw [hleaving]; exact depth_le_append hdepth' _) hk)
  have hboth : s.Adds _ _ _ _ _ _ _ ((cond c line body bodyLine other).emit k loop s) := hadds
  simpa [code, exitsBy, Round.waiting_append] using hboth

theorem emits_try {depth : Nat} (hb : body.Emits k) (hh : handler.Emits k) :
    (Stmt.try depth body bodyLine handler).Emits k := by
  intro loop s text cs rs ip hs hip hdepth hk
  simp only [constants, ranges, ← List.append_assoc] at hk ⊢
  have hbody := hb loop _ _ _ _ ip (hs.openRange depth) hip hdepth hk.left
  have hover := hbody.jumpOver (i := .jump) rfl (fun _ => rfl) bodyLine fun u hu hleaving => by
    rw [List.append_assoc, List.singleton_append] at hu
    have hhandler := hh loop _ _ _ _ (ip + body.size + 1) hu.closeRange (by simp [hip]; lia)
      (by rw [show (u.closeRange rs.length).leaving = u.leaving from rfl, hleaving, hbody.leaving]
          exact depth_le_append hdepth _) hk
    exact hhandler.of_closeRange
  rw [emit, hs.ranges_size]
  simpa [code, exitsBy, Round.waiting_append, hip, Nat.add_assoc] using hover.of_openRange

theorem emits_while (hb : body.Emits k) : (Stmt.while c line body bodyLine).Emits k := by
  intro loop s text cs rs ip hs hip hdepth hk
  subst hip
  simp only [constants, ranges, ← List.append_assoc] at hk ⊢
  have hcond := c.emit_adds (.refl hs) hk.left
  have hover := hcond.jumpOver (i := .jumpIfFalse) rfl (fun _ => rfl) line fun u hu hleaving =>
    have hbody := hb.behind_pop ⟨loop.depth + 1, some text.length⟩ hu
      (text.length + c.size + 2) line (by simp; lia)
      (by rw [hleaving, hcond.leaving]; exact fun x hx => Nat.le_succ_of_le (hdepth x hx)) hk
    hbody.backTo (i := .loop) (fun _ => rfl) text.length bodyLine (c.size + body.size + 3)
      (by simp; lia)
  have hpop := hover.pop bodyLine
  have hclose := hpop.close_body (k := k) body ⟨0, text.length, false⟩ (text.length + c.size + 2)
    (text.length + c.size + body.size + 4)
    (c.code k ++ [(Instr.jumpIfFalse (body.size + 2), line), (.pop, line)])
    [(.loop (c.size + body.size + 3), bodyLine), (.pop, bodyLine)] (by simp [Round.exits])
    (by simp; lia) (by simp; lia) (by simp) fun x hx => Nat.lt_succ_of_le (hdepth x hx)
  rw [emit, hs.size]
  simpa [code, exitsBy] using hclose

theorem emits_stepping {jumpLine stepLine : Nat} (hb : body.Emits k) :
    (stepping c line jumpLine step stepLine body bodyLine).Emits k := by
  intro loop s text cs rs ip hs hip hdepth hk
  subst hip
  simp only [constants, ranges, ← List.append_assoc] at hk ⊢
  have hcond := c.emit_adds (.refl hs) hk.left.left
  have hover := hcond.jumpOver (i := .jumpIfFalse) rfl (fun _ => rfl) line fun u hu hleaving =>
    have hpop := (Sheet.Adds.refl hu).pop line
    have hstep := hpop.jumpOver (i := .jump) rfl (fun _ => rfl) jumpLine fun v hv _ =>
      ((step.emit_adds (.refl hv) hk.left).pop stepLine).backTo (i := .loop) (fun _ => rfl)
        text.length stepLine (c.size + step.size + 5) (by simp; lia)
    have hbody := hb ⟨loop.depth + 1, some (text.length + c.size + 3)⟩ _ _ _ _
      (text.length + c.size + step.size + 5) hstep.shows (by simp; lia)
      (by rw [hstep.leaving, hleaving, hcond.leaving]
          exact fun x hx => Nat.le_succ_of_le (hdepth x hx)) hk
    (hstep.trans hbody).backTo (i := .loop) (fun _ => rfl) (text.length + c.size + 3) bodyLine
      (step.size + body.size + 3) (by simp; lia)
  have hpop := hover.pop bodyLine
  have hclose := hpop.close_body (k := k) body
    ⟨0, text.length + c.size + 3, false⟩ (text.length + c.size + step.size + 5)
    (text.length + c.size + step.size + body.size + 7)
    (c.code k ++ (.jumpIfFalse (step.size + body.size + 5), line) :: (.pop, line) ::
      (.jump (step.size + 2), jumpLine) :: step.code k ++
      [(Instr.pop, stepLine), (.loop (c.size + step.size + 5), stepLine)])
    [(.loop (step.size + body.size + 3), bodyLine), (.pop, bodyLine)]
    (by simp [Round.exits]; lia) (by simp; lia) (by simp; lia) (by simp)
    fun x hx => Nat.lt_succ_of_le (hdepth x hx)
  rw [emit, hs.size, hcond.size, List.nil_append, Expr.length_code]
  simpa [code, exitsBy] using hclose

theorem emits_iterate {slot vars : Nat} (hb : body.Emits k) :
    (iterate slot vars line body bodyLine).Emits k := by
  intro loop s text cs rs ip hs hip hdepth hk
  subst hip
  have hround (u : Sheet) (front : Lines) (hfront : front.length = text.length + 1)
      (hu : u.Shows front cs rs) (hleaving : u.leaving = s.leaving) :
      u.Adds front (body.code k ⟨0, text.length + body.size + 1, true⟩ (text.length + 1))
        (cs ++ body.constants) (rs ++ body.ranges (text.length + 1))
        ((body.exitsBy .leave (text.length + 1)).map fun j => (j, loop.depth + 1)) [] []
        (u.round (body.emit k ⟨loop.depth + 1, none⟩)) := by
    have hbody := hb ⟨loop.depth + 1, none⟩ { u with again := [] } front cs rs (text.length + 1)
      { hu with } hfront
      (by rw [hleaving]; exact fun x hx => Nat.le_succ_of_le (hdepth x hx)) hk
    have haim := body.aim_exitsBy (k := k) (x := ⟨0, 0, true⟩) .again
      (front.length + body.size) (text.length + 1) front [] hfront fun _ => rfl
    refine hbody.round ?_
    simpa [Round.waiting, Round.exits, Exits.toward, hfront, Nat.add_right_comm] using haim
  have hover := (Sheet.Adds.refl hs).jumpOver (i := .forBegin slot vars) rfl (fun _ => rfl) line
    fun u hu hleaving => (hround u _ (by simp) hu hleaving).backTo (i := .forNext slot vars)
      (fun _ => rfl) u.size bodyLine (body.size + 1) (by simp [hu.size]; lia)
  have hclose := hover.close_body (k := k) body ⟨0, text.length + body.size + 1, true⟩
    (text.length + 1) (text.length + body.size + 2) [(.forBegin slot vars (body.size + 1), line)]
    [(.forNext slot vars (body.size + 1), bodyLine)] (by simp) rfl (by simp; lia) (by simp)
    fun x hx => Nat.lt_succ_of_le (hdepth x hx)
  have hall : s.Adds _ _ _ _ _ _ _ ((iterate slot vars line body bodyLine).emit k loop s) := hclose
  simpa [code, constants, ranges, exitsBy] using hall

theorem emits (a : Stmt) : a.Emits k := by
  induction a with
  | skip =>
      refine emits_of_adds (fun _ _ => rfl) (fun _ => rfl) fun _ s text cs rs _ hs _ => ?_
      rw [constants, List.append_nil]
      exact .refl hs
  | seq a b iha ihb => exact emits_seq iha ihb
  | drop n line =>
      refine emits_of_adds (fun _ _ => rfl) (fun _ => rfl) fun _ s text cs rs _ hs _ => ?_
      rw [constants, List.append_nil]
      exact (Sheet.Adds.refl hs).plain (pops_plain n line)
  | output sink e =>
      refine emits_of_adds (fun _ _ => rfl) (fun _ => rfl) fun _ s text cs rs _ hs hk => ?_
      refine (e.emit_adds (.refl hs) hk).plain (List.forall_mem_singleton.mpr ?_)
      cases sink <;> rfl
  | expr e | throw e | ret e =>
      exact emits_of_adds (fun _ _ => rfl) (fun _ => rfl) fun _ s text cs rs _ hs hk =>
        (e.emit_adds (.refl hs) hk).plain (List.forall_mem_singleton.mpr rfl)
  | use e =>
      exact emits_of_adds (fun _ _ => rfl) (fun _ => rfl) fun _ s text cs rs _ hs hk =>
        (e.emit_adds (.refl hs) hk).plain
          (List.forall_mem_cons.mpr ⟨rfl, List.forall_mem_singleton.mpr rfl⟩)
  | define name e line =>
      refine emits_of_adds (fun _ _ => rfl) (fun _ => rfl) fun _ s text cs rs _ hs hk => ?_
      rw [constants, List.append_cons] at hk ⊢
      have hadds := e.emit_adds ((Sheet.Adds.refl hs).mention [.text name]) hk
      refine hadds.write (List.forall_mem_singleton.mpr ?_)
      exact Instr.settles_of_constant rfl (hk.lt (by simp))
  | bind e =>
      exact emits_of_adds (fun _ _ => rfl) (fun _ => rfl) fun _ s text cs rs _ hs hk =>
        e.emit_adds (.refl hs) hk
  | leave n line => exact emits_leave n line
  | again n line => exact emits_again n line
  | cond c line body bodyLine other ihb iho => exact emits_cond ihb iho
  | «while» c line body bodyLine ih => exact emits_while ih
  | stepping c line jumpLine step stepLine body bodyLine ih => exact emits_stepping ih
  | iterate slot vars line body bodyLine ih => exact emits_iterate ih
  | «try» depth body bodyLine handler ihb ihh => exact emits_try ihb ihh

end Stmt

end Stmt

/-! ## Functions -/

theorem Sheet.shows_empty : Sheet.Shows {} [] [] [] where
  instrs := rfl
  lines := rfl
  pool := rfl
  ranges := rfl
  head := rfl
  targets := nofun
  bounds := nofun
  known := nofun
  clean := nofun
  increments := by simp

/-- A function has been written on the sheet: no jump waits, and each forward jump was written
without an offset and filled in once. -/
structure Sheet.Finishes (s : Sheet) (f : Function) : Prop where
  code : f.code = s.code
  leaving : s.leaving = []
  again : s.again = []
  holes : forall ip, ip ∈ s.holes ↔ exists i, f.code.instrs[ip]? = some i ∧ i.isForward = true
  distinct : s.holes.Nodup
  once : s.filled.Perm s.holes

/-- A function has been written on the sheet.  Code was taken back safely, just where the function
increments a local. -/
structure Sheet.Writes (s : Sheet) (f : Function) : Prop where
  code : f.code = s.code
  ranges : f.ranges = s.ranges
  head : f.head = s.head
  aligned : f.code.lines.size = f.code.instrs.size
  clean : forall c, c ∈ s.cuts -> c.Clean ∧ c.code.constants.toList <+: f.code.constants.toList
  increments : forall (ip slot : Nat) (n : Int64),
    f.code.instrs[ip]? = some (.increment slot n) ↔
      exists c, c ∈ s.cuts ∧ c.mark = ip ∧ c.slot = slot ∧ c.amount = n

section Body

variable {known : Nat -> Prop} {floor n : Nat} {body : Stmt}

theorem Stmt.Fits.emitBody_adds (h : body.Fits known none floor n) (line : Nat) :
    Sheet.Adds {} [] (bodyLines body line) body.constants (body.ranges 0) [] [] []
      (body.emitBody line) := by
  have hadds := body.emits (k := (poolOf body.constants).idxOf) Round.outside {} [] [] [] 0
    Sheet.shows_empty rfl nofun (places_poolOf _)
  rw [h.exitsBy_eq_nil, h.exitsBy_eq_nil, Round.waiting_nil] at hadds
  exact hadds.plain (List.forall_mem_cons.mpr ⟨rfl, List.forall_mem_singleton.mpr rfl⟩)

/-- The sheet has the code that the layout makes of a body that fits. -/
theorem Stmt.Fits.emitBody_code (h : body.Fits known none floor n) (name script : Option String)
    (arity line : Nat) :
    (assemble name script arity body line).code = (body.emitBody line).code := by
  have hshows := (h.emitBody_adds line).shows
  have hinstrs := congrArg List.toArray hshows.instrs.symm
  have hlines := congrArg List.toArray hshows.lines.symm
  exact congr (congr (congrArg Code.mk hinstrs) hlines) hshows.pool.symm

theorem Stmt.Fits.emitBody_finishes (h : body.Fits known none floor n)
    (name script : Option String) (arity line : Nat) :
    (body.emitBody line).Finishes (assemble name script arity body line) := by
  have hadds := h.emitBody_adds line
  have hholes : (body.emitBody line).holes = forwardJumps 0 (bodyLines body line) := by
    rw [hadds.holes]
    exact List.append_nil _
  refine ⟨h.emitBody_code name script arity line, hadds.leaving, hadds.again, ?_, ?_, ?_⟩
  · intro ip
    rw [hholes, mem_forwardJumps, assemble_instrs]
    simp
  · rw [hholes]
    exact nodup_forwardJumps 0 _
  · rcases hadds.filled with ⟨fs, hfs, hperm⟩
    simp only [List.map_nil, List.append_nil] at hperm
    rw [hholes, hfs, List.append_nil]
    exact hperm.symm

theorem Stmt.Fits.emitBody_writes (h : body.Fits known none floor n)
    (name script : Option String) (arity line : Nat) :
    (body.emitBody line).Writes (assemble name script arity body line) := by
  have hshows := (h.emitBody_adds line).shows
  refine ⟨h.emitBody_code name script arity line, hshows.ranges.symm, hshows.head.symm, ?_,
    hshows.clean, fun ip slot n => ?_⟩
  · show ((bodyLines body line).map Prod.snd).toArray.size =
      ((bodyLines body line).map Prod.fst).toArray.size
    simp
  · rw [← hshows.increments ip slot n, assemble_instrs]
    simp

end Body

end StackScript
