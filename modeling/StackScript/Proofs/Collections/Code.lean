import StackScript.Proofs.Collections.Control

/-!
# Loops over collections in compiled code

Behind the instruction that begins a loop over a collection stand the body, the instruction that
goes on with the loop, and the pops that forget its locals.  The body keeps more values than the
locals of the loop, none of its instructions touches the three hidden ones, and control leaves it
for the instruction behind it or, by a jump, for the pops.  A `try` is inside the body or around the
whole loop.
-/

namespace StackScript

/-! ## Loops in the code of a function -/

/-- A statement in the code of a function; what is forgotten behind it is forgotten there. -/
structure Stmt.Sits (f : Function) (height : Nat -> Nat) (known : Nat -> Prop)
    (k : Variable.Index) (loop : Option Nat) (floor n p : Nat) (x : Exits) (kept : Nat -> Prop)
    (next : Option Nat) (s : Stmt) : Prop where
  placed : s.Placed f height known k loop floor n p x
  code : CodeAt f p (s.code k x p)
  spares : s.Spares kept next n
  drops : forall j, next = some j -> forall d, d < j ->
    f.code.instrs[p + s.size + d]? = some .pop

/-- A loop over a collection in the code of a function, with its body.  A range that covers one of
its instructions belongs to the body or goes on behind the loop. -/
structure Function.Circles (f : Function) (height : Nat -> Nat) (known : Nat -> Prop)
    (k : Variable.Index) (ranges : List TryRange) (ip slot vars : Nat) (body : Stmt) : Prop where
  sits : exists loop floor n x kept next line bodyLine,
    (Stmt.iterate slot vars line body bodyLine).Sits f height known k loop floor n ip x kept next
  ranges : forall r, r ∈ ranges -> forall q, r.covers q = true -> ip <= q ->
    q < ip + body.size + 2 -> r ∈ body.ranges (ip + 1) ∨ ip + body.size + 2 < r.stop

section Loops

variable {f : Function} {height : Nat -> Nat} {known : Nat -> Prop} {k : Variable.Index}
variable {loop next : Option Nat} {floor n p ip slot vars offset : Nat} {x : Exits}
variable {s body : Stmt} {kept : Nat -> Prop} {ranges ranges' : List TryRange}

theorem TryRange.covers_iff {r : TryRange} {q : Nat} :
    r.covers q = true ↔ r.start <= q ∧ q < r.stop := by
  simp [TryRange.covers]

/-- Ranges elsewhere do not matter. -/
theorem Function.Circles.more (h : f.Circles height known k ranges ip slot vars body)
    (hmore : forall r, r ∈ ranges' -> r ∈ ranges ∨ r.stop <= ip ∨
      ip + body.size + 2 <= r.start ∨ ip + body.size + 2 < r.stop) :
    f.Circles height known k ranges' ip slot vars body where
  sits := h.sits
  ranges := by
    intro r hr q hcovers hlo hhi
    have hin := TryRange.covers_iff.mp hcovers
    rcases hmore r hr with hold | hbefore | hbehind | haround
    · exact h.ranges r hold q hcovers hlo hhi
    · lia
    · lia
    · exact Or.inr haround

theorem Function.Circles.left (h : f.Circles height known k (s.ranges p) ip slot vars body)
    {t : Stmt} {q : Nat} (hend : ip + body.size + 2 <= q) :
    f.Circles height known k (s.ranges p ++ t.ranges q) ip slot vars body := by
  apply h.more
  intro r hr
  rcases List.mem_append.mp hr with hr | hr
  · exact Or.inl hr
  · have hbounds := Stmt.bounds_of_mem_ranges hr
    exact Or.inr (Or.inr (Or.inl (by lia)))

theorem Function.Circles.right {t : Stmt} {q : Nat}
    (h : f.Circles height known k (t.ranges q) ip slot vars body) (hstart : p + s.size <= ip) :
    f.Circles height known k (s.ranges p ++ t.ranges q) ip slot vars body := by
  apply h.more
  intro r hr
  rcases List.mem_append.mp hr with hr | hr
  · have hbounds := Stmt.bounds_of_mem_ranges hr
    exact Or.inr (Or.inl (by lia))
  · exact Or.inl hr

theorem Function.Circles.cons (h : f.Circles height known k ranges ip slot vars body)
    {r : TryRange} (hr : r.stop <= ip ∨ ip + body.size + 2 < r.stop) :
    f.Circles height known k (r :: ranges) ip slot vars body := by
  apply h.more
  intro r' hr'
  rcases List.mem_cons.mp hr' with rfl | hr'
  · rcases hr with hbefore | haround
    · exact Or.inr (Or.inl hbefore)
    · exact Or.inr (Or.inr (Or.inr haround))
  · exact Or.inl hr'

/-! ### Finding the loop -/

theorem not_at {q : Nat} {i : Instr}
    (hi : f.code.instrs[ip]? = some (.forBegin slot vars offset))
    (hq : f.code.instrs[q]? = some i) (hne : i ≠ .forBegin slot vars offset) : ip ≠ q := by
  rintro rfl
  rw [hi] at hq
  exact hne (Option.some.inj hq).symm

/-- Code without a certain instruction is elsewhere. -/
theorem CodeAt.elsewhere {q : Nat} {l : Lines} {i : Instr} (hi : f.code.instrs[ip]? = some i)
    (hcode : CodeAt f q l) (hl : forall y, y ∈ l -> y.1 ≠ i) : ip < q ∨ q + l.length <= ip := by
  by_contra hin
  have hj : ip - q < l.length := by lia
  have hat := along_iff.mp hcode _ _ (List.getElem?_eq_getElem hj)
  rw [show q + (ip - q) = ip by lia, hi] at hat
  exact hl _ (List.getElem_mem hj) (Option.some.inj hat).symm

/-- No expression begins a loop. -/
theorem Expr.not_forBegin (e : Expr) (y : Instr × Nat) (hy : y ∈ e.code k) :
    y.1 ≠ .forBegin slot vars offset := by
  intro heq
  rcases List.getElem?_of_mem hy with ⟨j, hj⟩
  have hstays := e.tight_code k j y.1 (by rw [List.getElem?_map, hj]; rfl)
  rw [heq] at hstays
  exact hstays

theorem Expr.elsewhere {e : Expr} {q : Nat}
    (hi : f.code.instrs[ip]? = some (.forBegin slot vars offset))
    (hcode : CodeAt f q (e.code k)) : ip < q ∨ q + e.size <= ip := by
  have hout := CodeAt.elsewhere hi hcode e.not_forBegin
  rwa [Expr.length_code] at hout

theorem pops_not_forBegin {j line : Nat} (y : Instr × Nat) (hy : y ∈ pops j line) :
    y.1 ≠ .forBegin slot vars offset := by
  rw [List.eq_of_mem_replicate hy]
  nofun

theorem Stmt.Sits.inner (hplaced : s.Placed f height known k loop floor n p x)
    (hcode : CodeAt f p (s.code k x p)) (hspares : s.Spares kept none n) :
    s.Sits f height known k loop floor n p x kept none :=
  ⟨hplaced, hcode, hspares, by simp⟩

theorem Stmt.Sits.of_seq {a b : Stmt}
    (h : (Stmt.seq a b).Sits f height known k loop floor n p x kept next) :
    a.Sits f height known k loop floor n p x kept b.drops? ∧
      b.Sits f height known k loop floor (a.after n) (p + a.size) x kept next := by
  have hcode := along_seq.mp h.code
  have hdrops := h.drops
  simp only [Stmt.size, ← Nat.add_assoc] at hdrops
  constructor
  · constructor
    · exact h.placed.of_seq.1
    · exact hcode.1
    · exact h.spares.1
    · intro j hj d hd
      cases b with
      | drop j' line =>
          cases hj
          exact along_iff.mp hcode.2 d (.pop, line) (by simp [Stmt.code, pops, hd])
      | _ => cases hj
  · exact ⟨h.placed.of_seq.2, hcode.2, h.spares.2, hdrops⟩

/-- A statement whose code does not begin a loop over a collection has none. -/
theorem Stmt.Sits.not_between (h : s.Sits f height known k loop floor n p x kept next)
    (hlo : p <= ip) (hhi : ip < p + s.size)
    (hi : f.code.instrs[ip]? = some (.forBegin slot vars offset))
    (hs : forall y, y ∈ s.code k x p -> y.1 ≠ .forBegin slot vars offset) : False := by
  have hout := CodeAt.elsewhere hi h.code hs
  rw [Stmt.length_code] at hout
  lia

/-- Where a loop over a collection begins there is such a loop in the statement. -/
theorem Stmt.Sits.circles (h : s.Sits f height known k loop floor n p x kept next)
    (hlo : p <= ip) (hhi : ip < p + s.size)
    (hi : f.code.instrs[ip]? = some (.forBegin slot vars offset)) :
    exists body, f.Circles height known k (s.ranges p) ip slot vars body ∧
      ip + body.size + 2 <= p + s.size := by
  induction s generalizing loop floor n p x kept next with
  | skip => exact absurd hhi (Nat.not_lt.mpr hlo)
  | seq a b iha ihb =>
      rw [Stmt.size] at hhi ⊢
      by_cases hin : ip < p + a.size
      · rcases iha h.of_seq.1 hlo hin with ⟨body, hbody, hend⟩
        exact ⟨body, hbody.left (by lia), by lia⟩
      · rcases ihb h.of_seq.2 (by lia) (by lia) with ⟨body, hbody, hend⟩
        exact ⟨body, hbody.right (by lia), by lia⟩
  | drop j line => exact (h.not_between hlo hhi hi pops_not_forBegin).elim
  | expr e | throw e | define name e | ret e | use e =>
      refine (h.not_between hlo hhi hi ?_).elim
      exact List.forall_mem_append.mpr ⟨e.not_forBegin, by simp⟩
  | output sink e line =>
      refine (h.not_between hlo hhi hi ?_).elim
      refine List.forall_mem_append.mpr ⟨e.not_forBegin, ?_⟩
      cases sink <;> simp [Sink.instr]
  | bind e => exact (h.not_between hlo hhi hi e.not_forBegin).elim
  | leave j line =>
      refine (h.not_between hlo hhi hi ?_).elim
      exact List.forall_mem_append.mpr ⟨pops_not_forBegin, by simp [Exits.leaveFrom]⟩
  | again j line =>
      refine (h.not_between hlo hhi hi ?_).elim
      refine List.forall_mem_append.mpr ⟨pops_not_forBegin, ?_⟩
      unfold Exits.againFrom
      split <;> simp
  | cond c line body bodyLine other ihb iho =>
      have hparts := along_cond.mp h.code
      have hout := Expr.elsewhere hi hparts.test
      have h1 := not_at hi hparts.jump (by simp)
      have h2 := not_at hi hparts.pop (by simp)
      have h3 := not_at hi hparts.skip (by simp)
      have h4 := not_at hi hparts.otherPop (by simp)
      rw [Stmt.size] at hhi ⊢
      by_cases hin : ip < p + c.size + body.size + 2
      · have hbody := Sits.inner h.placed.of_cond.1 hparts.body h.spares.2.1
        rcases ihb hbody (by lia) (by lia) with ⟨inner, hinner, hend⟩
        exact ⟨inner, hinner.left (by lia), by lia⟩
      · have hother := Sits.inner h.placed.of_cond.2 hparts.other h.spares.2.2
        rcases iho hother (by lia) (by lia) with ⟨inner, hinner, hend⟩
        exact ⟨inner, hinner.right (by lia), by lia⟩
  | «while» c line body bodyLine ih =>
      have hparts := along_while.mp h.code
      have hout := Expr.elsewhere hi hparts.test
      have h1 := not_at hi hparts.jump (by simp)
      have h2 := not_at hi hparts.pop (by simp)
      have h3 := not_at hi hparts.back (by simp)
      have h4 := not_at hi hparts.stopPop (by simp)
      rw [Stmt.size] at hhi ⊢
      have hbody := Sits.inner h.placed.of_while hparts.body h.spares.2
      rcases ih hbody (by lia) (by lia) with ⟨inner, hinner, hend⟩
      exact ⟨inner, hinner, by lia⟩
  | stepping c line jumpLine step stepLine body bodyLine ih =>
      have hparts := along_stepping.mp h.code
      have hout := Expr.elsewhere hi hparts.test
      have hout' := Expr.elsewhere hi hparts.step
      have h1 := not_at hi hparts.jump (by simp)
      have h2 := not_at hi hparts.pop (by simp)
      have h3 := not_at hi hparts.jumpOver (by simp)
      have h4 := not_at hi hparts.stepPop (by simp)
      have h5 := not_at hi hparts.again (by simp)
      have h6 := not_at hi hparts.back (by simp)
      have h7 := not_at hi hparts.stopPop (by simp)
      rw [Stmt.size] at hhi ⊢
      have hbody := Sits.inner h.placed.of_stepping hparts.body h.spares.2.2
      rcases ih hbody (by lia) (by lia) with ⟨inner, hinner, hend⟩
      exact ⟨inner, hinner, by lia⟩
  | iterate slot' vars' line body bodyLine ih =>
      have hparts := along_iterate.mp h.code
      rw [Stmt.size] at hhi ⊢
      by_cases hfirst : ip = p
      · have hbegin := hparts.first
        rw [← hfirst, hi] at hbegin
        cases hbegin
        subst hfirst
        exact ⟨body, ⟨⟨_, _, _, _, _, _, _, _, h⟩, fun r hr _ _ _ _ => Or.inl hr⟩, by lia⟩
      · have h1 := not_at hi hparts.next (by simp)
        have hbody := Sits.inner h.placed.of_iterate hparts.body h.spares.2.2
        rcases ih hbody (by lia) (by lia) with ⟨inner, hinner, hend⟩
        exact ⟨inner, hinner, by lia⟩
  | «try» depth body bodyLine handler ihb ihh =>
      have hparts := along_try.mp h.code
      have h1 := not_at hi hparts.skip (by simp)
      rw [Stmt.size] at hhi ⊢
      by_cases hin : ip < p + body.size
      · have hbody := Sits.inner h.placed.of_try.1 hparts.body h.spares.1
        rcases ihb hbody hlo hin with ⟨inner, hinner, hend⟩
        exact ⟨inner, (hinner.left (by lia)).cons (Or.inr (by simp only; lia)), by lia⟩
      · have hhandler := Sits.inner h.placed.of_try.2 hparts.handler h.spares.2
        rcases ihh hhandler (by lia) (by lia) with ⟨inner, hinner, hend⟩
        exact ⟨inner, (hinner.right (by lia)).cons (Or.inl (by simp only; lia)), by lia⟩

end Loops

/-! ## What a loop over a collection is in compiled code -/

/-- A loop over the collection in a slot that begins at index `first`.  Its body ends at index
`first + offset`, where the loop goes on. -/
structure Function.Iterates (f : Function) (height : Nat -> Nat) (first slot vars offset : Nat) :
    Prop where
  count : vars = 1 ∨ vars = 2
  pos : 0 < offset
  start : height first = slot + 1
  next : f.code.instrs[first + offset]? = some (.forNext slot vars offset)
  /-- Behind the loop its locals are forgotten. -/
  pops : forall d, d < vars + 3 -> f.code.instrs[first + offset + 1 + d]? = some .pop
  /-- The body keeps the locals of the loop. -/
  floor : forall ip, first < ip -> ip <= first + offset -> slot + 3 + vars <= height ip
  level : height (first + offset) = slot + 3 + vars
  kept : forall ip i, first < ip -> ip < first + offset -> f.code.instrs[ip]? = some i ->
    i.quiet = true ∨ slot + 3 + vars + i.taken <= height ip
  /-- The body does not touch the hidden slots. -/
  spares : forall ip i, first < ip -> ip < first + offset -> f.code.instrs[ip]? = some i ->
    forall s, s ∈ i.slots -> s < slot ∨ slot + 3 <= s
  /-- The body is left by a jump to the pops, if at all. -/
  inside : forall ip i, first < ip -> ip < first + offset -> f.code.instrs[ip]? = some i ->
    forall t, t ∈ i.successors ip -> (first < t ∧ t <= first + offset) ∨
      (t = first + offset + 1 ∧ exists o, i = .jump o)
  /-- A `try` in the body keeps the locals of the loop; any other one ends further back. -/
  ranges : forall r, r ∈ f.ranges -> forall ip, r.covers ip = true -> first <= ip ->
    ip <= first + offset ->
      (first < r.stop ∧ r.stop <= first + offset ∧ slot + 3 + vars <= r.depth) ∨
        first + offset + 1 < r.stop

section Iterates

variable {f : Function} {height : Nat -> Nat} {known : Nat -> Prop} {k : Variable.Index}
variable {ip slot vars offset : Nat} {body : Stmt} {ranges : List TryRange}

theorem Function.Circles.iterates (h : f.Circles height known k ranges ip slot vars body)
    (hi : f.code.instrs[ip]? = some (.forBegin slot vars offset))
    (hranges : forall r, r ∈ f.ranges -> exists r', r' ∈ ranges ∧ r'.start = r.start ∧
      r'.stop = r.stop ∧ r'.depth = r.depth) : f.Iterates height ip slot vars offset := by
  rcases h.sits with ⟨loop, floor, n, x, kept, next, line, bodyLine, hsits⟩
  rcases hsits with ⟨hplaced, hcode, ⟨hnext, hfits, hspares⟩, hdrops⟩
  have hbody := hplaced.of_iterate
  have hslot : slot + 1 = n := hplaced.fits.1
  have hvars : vars = 1 ∨ vars = 2 := hplaced.fits.2.1
  have hafter : body.after (n + vars + 2) = n + vars + 2 := hplaced.fits.2.2.2
  have hlevel : n + vars + 2 = slot + 3 + vars := by lia
  have hpops := hdrops _ hnext
  simp only [Stmt.size] at hpops
  rcases Stmt.along_iterate.mp hcode with ⟨hbegin, hb, hforNext⟩
  have hoffset : offset = body.size + 1 := by
    rw [hi] at hbegin
    cases hbegin
    rfl
  subst hoffset
  -- The body keeps the locals of the loop, not only those of the statement around it.
  have hkept : body.Placed f height (fun _ => True) k (some (n + vars + 2)) (n + vars + 2)
      (n + vars + 2) (ip + 1) ⟨ip + body.size + 2, ip + body.size + 1, true⟩ :=
    { pos := by lia
      floor_le := Nat.le_refl _
      fits := hfits
      exits := hbody.exits
      constants := hbody.constants
      inside := hbody.inside
      heights := hbody.heights }
  have hline {P : Nat -> Instr × Nat -> Prop} {q : Nat} {i : Instr}
      (hP : Along P (ip + 1) (body.code k ⟨ip + body.size + 2, ip + body.size + 1, true⟩ (ip + 1)))
      (hlo : ip < q) (hhi : q < ip + (body.size + 1)) (hq : f.code.instrs[q]? = some i) :
      exists line, P q (i, line) :=
    CodeAt.line hb hP hlo (by rw [Stmt.length_code]; lia) hq
  have hstop : height (ip + (body.size + 1)) = slot + 3 + vars := by
    have hstop := hbody.stop
    rw [hafter, hlevel] at hstop
    rw [← hstop]
    congr 1
    lia
  constructor
  · exact hvars
  · exact Nat.succ_pos _
  · rw [hplaced.start, hslot]
  · exact hforNext
  · intro d hd
    rw [← hpops d hd]
    congr 1
  · intro q hlo hhi
    rw [← hlevel]
    rcases Nat.lt_or_eq_of_le hhi with hlt | rfl
    · apply hkept.floor_le_height _ hlo (by lia)
      intro m hm
      cases hm
      exact Nat.le_refl _
    · rw [hstop, hlevel]
  · exact hstop
  · intro q i hlo hhi hq
    rcases hline hkept.code_fits hlo hhi hq with ⟨line', -, hquiet⟩
    rw [hlevel] at hquiet
    exact hquiet
  · intro q i hlo hhi hq s hs
    have hbelow : Along (fun _ => Instr.SparesBelow
        (fun j => kept j ∨ slot <= j ∧ j < slot + 3) (n + vars + 2)) (ip + 1)
        (body.code k ⟨ip + body.size + 2, ip + body.size + 1, true⟩ (ip + 1)) :=
      along_iff.mpr fun j y hy => Stmt.sparesBelow_code hspares hfits (Nat.le_refl _) y
        (List.mem_of_getElem? hy)
    rcases hline hbelow hlo hhi hq with ⟨line', hspare⟩
    by_contra hin
    have habove := hspare s hs (Or.inr (by lia))
    lia
  · intro q i hlo hhi hq t ht
    rcases hline hkept.reaches hlo hhi hq with ⟨line', hreaches⟩
    rcases hreaches t ht with hin | rfl | ⟨rfl, hjump⟩
    · exact Or.inl (by lia)
    · exact Or.inl (by simp only; lia)
    · exact Or.inr ⟨by simp only; lia, hjump⟩
  · intro r hr q hcovers hlo hhi
    rcases hranges r hr with ⟨r', hr', hstart, hstop', hdepth⟩
    have hcovers' : r'.covers q = true := by
      rw [TryRange.covers_iff, hstart, hstop']
      exact TryRange.covers_iff.mp hcovers
    rw [← hstop', ← hdepth]
    rcases h.ranges r' hr' q hcovers' hlo (by lia) with hin | hout
    · have hbounds := Stmt.bounds_of_mem_ranges hin
      have hcovered := TryRange.covers_iff.mp hcovers'
      have hdeep := hfits.le_depth (Nat.le_refl _) hin
      exact Or.inl (by lia)
    · exact Or.inr (by lia)

end Iterates

/-! ## Scripts -/

section Scripts

variable {known : Nat -> Prop} {arity first slot vars offset : Nat} {body : Stmt}

theorem assemble_iterates (name script : Option String) (line : Nat)
    (hfits : body.Fits known none (arity + 1) (arity + 1))
    (hspares : body.Spares (fun _ => False) none (arity + 1))
    (hi : (assemble name script arity body line).code.instrs[first]? =
      some (.forBegin slot vars offset)) :
    (assemble name script arity body line).Iterates (bodyHeight arity body) first slot vars
      offset := by
  have hassembled : CodeAt (assemble name script arity body line) 0 (bodyLines body line) :=
    codeAt_assemble name script line
  simp only [bodyLines, along_append, along_cons, Stmt.length_code] at hassembled
  rcases hassembled with ⟨hcode, hnone, hret, -⟩
  have hsits := Stmt.Sits.inner (assemble_placed name script line hfits) hcode hspares
  have hlt : first < (assemble name script arity body line).code.size :=
    (Array.getElem?_eq_some_iff.mp hi).1
  rw [assemble_code_size] at hlt
  have h1 := not_at hi hnone (by simp)
  have h2 := not_at hi hret (by simp)
  rcases hsits.circles (Nat.zero_le _) (by lia) hi with ⟨inner, hinner, -⟩
  refine hinner.iterates hi ?_
  intro r hr
  rcases Array.getElem?_of_mem hr with ⟨i, hi⟩
  have hchain : (chain (body.ranges 0))[i]? = some r := hi
  rw [chain_getElem?] at hchain
  rcases Option.map_eq_some_iff.mp hchain with ⟨r', hr', rfl⟩
  exact ⟨r', List.mem_of_getElem? hr', rfl, rfl, rfl⟩

/-- Where a compiled function begins a loop over a collection there is such a loop. -/
theorem Function.Compiled.iterates {f : Function} (hf : f.Compiled)
    (hi : f.code.instrs[first]? = some (.forBegin slot vars offset)) :
    exists height, f.Keeps height ∧ f.Iterates height first slot vars offset := by
  rcases hf with ⟨base, name, source, p, hp, hmem⟩
  rcases compile_eq_ok hp with ⟨s, hs, rfl⟩
  have hfits := parse_fits hs
  have hspares := parse_spares hs
  rcases Script.of_mem_program hmem with ⟨j, d, hj, rfl⟩ | rfl
  · have hd := hfits.definitions j d hj
    have hspare := hspares.2 d (Array.mem_of_getElem? hj)
    exact ⟨_, assemble_keeps _ _ _ hd, assemble_iterates _ _ _ hd hspare hi⟩
  · exact ⟨_, assemble_keeps _ _ _ hfits.body,
      assemble_iterates _ _ _ hfits.body hspares.1 hi⟩

end Scripts

end StackScript
