import StackScript.Proofs.Compiled

/-!
# Try ranges and try bodies

A statement has its parts, and the code of a part stands inside the code of the
statement.  The ranges of a function are the ones of the `try` statements in its body,
in the order of the text.  Of two of them the later one lies behind the earlier one or
inside its body, so that the chain, which is walked from the last range down, comes to
the innermost body first.
-/

namespace StackScript

/-! ## Parts of statements -/

/-- The statement `t`, whose code starts at index `j`, is a part of the statement whose code
starts at the given index. -/
inductive Stmt.Part (t : Stmt) (j : Nat) : Nat -> Stmt -> Prop where
  | whole : Part t j j t
  | first {ip : Nat} {a b : Stmt} : Part t j ip a -> Part t j ip (.seq a b)
  | second {ip : Nat} {a b : Stmt} : Part t j (ip + a.size) b -> Part t j ip (.seq a b)
  | branch {ip line bodyLine : Nat} {c : Expr} {body other : Stmt} :
      Part t j (ip + c.size + 2) body -> Part t j ip (.cond c line body bodyLine other)
  | other {ip line bodyLine : Nat} {c : Expr} {body other : Stmt} :
      Part t j (ip + c.size + body.size + 4) other ->
        Part t j ip (.cond c line body bodyLine other)
  | whileBody {ip line bodyLine : Nat} {c : Expr} {body : Stmt} :
      Part t j (ip + c.size + 2) body -> Part t j ip (.while c line body bodyLine)
  | steppingBody {ip line jumpLine stepLine bodyLine : Nat} {c step : Expr} {body : Stmt} :
      Part t j (ip + c.size + step.size + 5) body ->
        Part t j ip (.stepping c line jumpLine step stepLine body bodyLine)
  | iterateBody {ip slot vars line bodyLine : Nat} {body : Stmt} :
      Part t j (ip + 1) body -> Part t j ip (.iterate slot vars line body bodyLine)
  | tried {ip depth line : Nat} {body handler : Stmt} :
      Part t j ip body -> Part t j ip (.try depth body line handler)
  | handled {ip depth line : Nat} {body handler : Stmt} :
      Part t j (ip + body.size + 1) handler -> Part t j ip (.try depth body line handler)

namespace Stmt.Part

variable {s t : Stmt} {ip j : Nat}

/-- The code of a part lies inside the code of the whole. -/
theorem bounds (h : t.Part j ip s) : ip <= j ∧ j + t.size <= ip + s.size := by
  induction h with
  | whole => exact ⟨Nat.le_refl _, Nat.le_refl _⟩
  | _ _ ih =>
      simp only [Stmt.size]
      lia

/-- Where a part stands, there is its code. -/
theorem codeAt {f : Function} {k : Variable.Index} {x : Exits} (h : t.Part j ip s)
    (hcode : CodeAt f ip (s.code k x ip)) : exists x', CodeAt f j (t.code k x' j) := by
  induction h generalizing x with
  | whole => exact ⟨x, hcode⟩
  | first _ ih => exact ih (along_seq.mp hcode).1
  | second _ ih => exact ih (along_seq.mp hcode).2
  | branch _ ih => exact ih (along_cond.mp hcode).body
  | other _ ih => exact ih (along_cond.mp hcode).other
  | whileBody _ ih => exact ih (along_while.mp hcode).body
  | steppingBody _ ih => exact ih (along_stepping.mp hcode).body
  | iterateBody _ ih => exact ih (along_iterate.mp hcode).body
  | tried _ ih => exact ih (along_try.mp hcode).body
  | handled _ ih => exact ih (along_try.mp hcode).handler

/-- A part of a placed statement is placed, and there is its code. -/
theorem placed {f : Function} {height : Nat -> Nat} {known : Nat -> Prop} {k : Variable.Index}
    {loop : Option Nat} {floor n : Nat} {x : Exits} (h : t.Part j ip s)
    (hs : s.Placed f height known k loop floor n ip x) (hcode : CodeAt f ip (s.code k x ip)) :
    exists loop' floor' n' x', t.Placed f height known k loop' floor' n' j x' ∧
      CodeAt f j (t.code k x' j) := by
  induction h generalizing x loop floor n with
  | whole => exact ⟨loop, floor, n, x, hs, hcode⟩
  | first _ ih => exact ih hs.of_seq.1 (along_seq.mp hcode).1
  | second _ ih => exact ih hs.of_seq.2 (along_seq.mp hcode).2
  | branch _ ih => exact ih hs.of_cond.1 (along_cond.mp hcode).body
  | other _ ih => exact ih hs.of_cond.2 (along_cond.mp hcode).other
  | whileBody _ ih => exact ih hs.of_while (along_while.mp hcode).body
  | steppingBody _ ih => exact ih hs.of_stepping (along_stepping.mp hcode).body
  | iterateBody _ ih => exact ih hs.of_iterate (along_iterate.mp hcode).body
  | tried _ ih => exact ih hs.of_try.1 (along_try.mp hcode).body
  | handled _ ih => exact ih hs.of_try.2 (along_try.mp hcode).handler

end Stmt.Part

/-! ## Try statements -/

/-- A `try` statement and where its code starts. -/
structure Try where
  start : Nat
  depth : Nat
  body : Stmt
  line : Nat
  handler : Stmt

namespace Try

def stmt (t : Try) : Stmt :=
  .try t.depth t.body t.line t.handler

/-- Where the code of the handler starts.  In front of it stand the body and the jump that
leaves the body over the handler. -/
def stop (t : Try) : Nat :=
  t.start + t.body.size + 1

/-- The body, up to the jump that leaves it, has the instruction at index `ip`. -/
def Encloses (t : Try) (ip : Nat) : Prop :=
  t.start <= ip ∧ ip < t.stop

def IsIn (t : Try) (ip : Nat) (s : Stmt) : Prop :=
  t.stmt.Part t.start ip s

def Within (t u : Try) : Prop :=
  t.IsIn u.start u.body

def range (t : Try) : TryRange :=
  ⟨t.start, t.stop, t.depth, none⟩

end Try

/-- The `try` statements in a statement at an index, in the order of the text. -/
def Stmt.tries (ip : Nat) : Stmt -> List Try
  | .seq a b => a.tries ip ++ b.tries (ip + a.size)
  | .cond c _ body _ other =>
    body.tries (ip + c.size + 2) ++ other.tries (ip + c.size + body.size + 4)
  | .while c _ body _ => body.tries (ip + c.size + 2)
  | .stepping c _ _ step _ body _ => body.tries (ip + c.size + step.size + 5)
  | .iterate _ _ _ body _ => body.tries (ip + 1)
  | .try depth body line handler =>
    ⟨ip, depth, body, line, handler⟩ :: (body.tries ip ++ handler.tries (ip + body.size + 1))
  | _ => []

theorem Stmt.ranges_eq (s : Stmt) (ip : Nat) : s.ranges ip = (s.tries ip).map Try.range := by
  induction s generalizing ip with
  | seq a b iha ihb => simp [Stmt.ranges, Stmt.tries, iha, ihb]
  | cond c line body bodyLine other ihb iho => simp [Stmt.ranges, Stmt.tries, ihb, iho]
  | «while» c line body bodyLine ih => simp [Stmt.ranges, Stmt.tries, ih]
  | stepping c line jumpLine step stepLine body bodyLine ih => simp [Stmt.ranges, Stmt.tries, ih]
  | iterate slot vars line body bodyLine ih => simp [Stmt.ranges, Stmt.tries, ih]
  | «try» depth body line handler ihb ihh =>
      simp [Stmt.ranges, Stmt.tries, ihb, ihh, Try.range, Try.stop]
  | _ => rfl

theorem Stmt.isIn_of_mem_tries {s : Stmt} {ip : Nat} {t : Try} (h : t ∈ s.tries ip) :
    t.IsIn ip s := by
  induction s generalizing ip with
  | seq a b iha ihb =>
      rcases List.mem_append.mp h with h | h
      · exact .first (iha h)
      · exact .second (ihb h)
  | cond c line body bodyLine other ihb iho =>
      rcases List.mem_append.mp h with h | h
      · exact .branch (ihb h)
      · exact .other (iho h)
  | «while» c line body bodyLine ih => exact .whileBody (ih h)
  | stepping c line jumpLine step stepLine body bodyLine ih => exact .steppingBody (ih h)
  | iterate slot vars line body bodyLine ih => exact .iterateBody (ih h)
  | «try» depth body line handler ihb ihh =>
      rcases List.mem_cons.mp h with rfl | h
      · exact .whole
      · rcases List.mem_append.mp h with h | h
        · exact .tried (ihb h)
        · exact .handled (ihh h)
  | _ => cases h

theorem Stmt.mem_tries_iff {s : Stmt} {ip : Nat} {t : Try} : t ∈ s.tries ip ↔ t.IsIn ip s := by
  refine ⟨Stmt.isIn_of_mem_tries, ?_⟩
  intro h
  unfold Try.IsIn at h
  generalize ht : t.stmt = u at h
  generalize hj : t.start = j at h
  induction h with
  | whole =>
      subst ht hj
      exact List.mem_cons_self
  | first _ ih | branch _ ih => exact List.mem_append_left _ ih
  | second _ ih | other _ ih => exact List.mem_append_right _ ih
  | whileBody _ ih | steppingBody _ ih | iterateBody _ ih => exact ih
  | tried _ ih => exact List.mem_cons_of_mem _ (List.mem_append_left _ ih)
  | handled _ ih => exact List.mem_cons_of_mem _ (List.mem_append_right _ ih)

section Tries

variable {s : Stmt} {t u : Try} {ip : Nat}

theorem Try.IsIn.bounds (h : t.IsIn ip s) : ip <= t.start ∧ t.stop <= ip + s.size := by
  have hbounds := Stmt.Part.bounds h
  simp only [Try.stmt, Stmt.size] at hbounds
  simp only [Try.stop]
  lia

/-- Of two `try` statements the later one lies behind the earlier one or in its body. -/
theorem Stmt.tries_pairwise (s : Stmt) (ip : Nat) :
    (s.tries ip).Pairwise fun t u => t.stop <= u.start ∨ u.Within t := by
  induction s generalizing ip with
  | seq a b iha ihb =>
      refine List.pairwise_append.mpr ⟨iha _, ihb _, ?_⟩
      intro t ht u hu
      have htb := (Stmt.isIn_of_mem_tries ht).bounds
      have hub := (Stmt.isIn_of_mem_tries hu).bounds
      exact Or.inl (by lia)
  | cond c line body bodyLine other ihb iho =>
      refine List.pairwise_append.mpr ⟨ihb _, iho _, ?_⟩
      intro t ht u hu
      have htb := (Stmt.isIn_of_mem_tries ht).bounds
      have hub := (Stmt.isIn_of_mem_tries hu).bounds
      exact Or.inl (by lia)
  | «while» c line body bodyLine ih => exact ih _
  | stepping c line jumpLine step stepLine body bodyLine ih => exact ih _
  | iterate slot vars line body bodyLine ih => exact ih _
  | «try» depth body line handler ihb ihh =>
      refine List.pairwise_cons.mpr ⟨?_, List.pairwise_append.mpr ⟨ihb _, ihh _, ?_⟩⟩
      · intro u hu
        rcases List.mem_append.mp hu with hu | hu
        · exact Or.inr (Stmt.isIn_of_mem_tries hu)
        · exact Or.inl (Stmt.isIn_of_mem_tries hu).bounds.1
      · intro t ht u hu
        have htb := (Stmt.isIn_of_mem_tries ht).bounds
        have hub := (Stmt.isIn_of_mem_tries hu).bounds
        exact Or.inl (by lia)
  | _ => exact .nil

end Tries

/-! ## The chain of ranges -/

/-- A walk along the chain of ranges from a link visits the ranges with the given indices. -/
inductive Function.Visits (f : Function) : Option Nat -> List Nat -> Prop where
  | done : Visits f none []
  | step {i : Nat} {r : TryRange} {is : List Nat} :
      f.ranges[i]? = some r -> Visits f r.next is -> Visits f (some i) (i :: is)

section Chain

variable {f : Function} {n fuel ip : Nat}

theorem Function.visits_before? (hlinks : forall (i : Nat) (r : TryRange),
    f.ranges[i]? = some r -> r.next = before? i) (hn : n <= f.ranges.size) :
    f.Visits (before? n) (List.range n).reverse := by
  induction n with
  | zero => exact .done
  | succ n ih =>
      have hr : f.ranges[n]? = some f.ranges[n] := Array.getElem?_eq_getElem hn
      rw [List.range_succ, List.reverse_append]
      refine .step hr ?_
      rw [hlinks n _ hr]
      exact ih (Nat.le_of_succ_le hn)

/-- Walking down the chain finds the last range that covers an index. -/
theorem Function.findRangeFrom?_before? (hlinks : forall (i : Nat) (r : TryRange),
    f.ranges[i]? = some r -> r.next = before? i) (hn : n <= f.ranges.size) (hfuel : n < fuel) :
    (f.findRangeFrom? ip fuel (before? n) = none ∧
      forall j q, j < n -> f.ranges[j]? = some q -> q.covers ip = false) ∨
    exists i r, f.findRangeFrom? ip fuel (before? n) = some r ∧ f.ranges[i]? = some r ∧
      r.covers ip = true ∧
        forall j q, i < j -> j < n -> f.ranges[j]? = some q -> q.covers ip = false := by
  induction n generalizing fuel with
  | zero =>
      cases fuel with
      | zero => cases hfuel
      | succ fuel => exact Or.inl ⟨rfl, nofun⟩
  | succ n ih =>
      cases fuel with
      | zero => cases hfuel
      | succ fuel =>
          have hr : f.ranges[n]? = some f.ranges[n] := Array.getElem?_eq_getElem hn
          rw [before?, Function.findRangeFrom?]
          simp only [hr]
          cases hcovers : f.ranges[n].covers ip with
          | true =>
              refine Or.inr ⟨n, f.ranges[n], rfl, hr, hcovers, ?_⟩
              intro j q hlo hhi
              exact absurd hlo (Nat.not_lt.mpr (Nat.le_of_lt_succ hhi))
          | false =>
              -- The range is passed over, so it may be added to those that do not cover.
              have hlast {j : Nat} {q : TryRange} (hj : j < n + 1) (hjn : ¬ j < n)
                  (hq : f.ranges[j]? = some q) : q.covers ip = false := by
                have hjn' : j = n := by lia
                rw [hjn', hr] at hq
                cases hq
                exact hcovers
              simp only [Bool.false_eq_true, if_false]
              rw [hlinks n _ hr]
              have hfuel' : n < fuel := by lia
              rcases ih (by lia) hfuel' with ⟨hnone, hout⟩ | ⟨i, r, hsome, hi, hc, hout⟩
              · refine Or.inl ⟨hnone, ?_⟩
                intro j q hj hq
                by_cases hjn : j < n
                · exact hout j q hjn hq
                · exact hlast hj hjn hq
              · refine Or.inr ⟨i, r, hsome, hi, hc, ?_⟩
                intro j q hlo hj hq
                by_cases hjn : j < n
                · exact hout j q hlo hjn hq
                · exact hlast hj hjn hq

end Chain

/-! ## Functions -/

/-- The range that a `try` makes. -/
structure TryRange.Of (r : TryRange) (t : Try) : Prop where
  start : r.start = t.start
  stop : r.stop = t.stop
  depth : r.depth = t.depth

/-- Of the `try` statements in a body, the innermost one that encloses an instruction: every other
one that does has it in its own body. -/
structure Try.Innermost (t : Try) (body : Stmt) (ip : Nat) : Prop where
  isIn : t.IsIn 0 body
  encloses : t.Encloses ip
  inner : forall u : Try, u.IsIn 0 body -> u.Encloses ip -> u = t ∨ t.Within u

/-- The ranges of a function are those of the `try` statements in its body, and the search for a
range goes by the text. -/
structure Function.TriesOf (f : Function) (body : Stmt) : Prop where
  /-- The code of a `try` stands where the `try` says. -/
  code : forall t : Try, t.IsIn 0 body ->
    exists k x, CodeAt f t.start (t.stmt.code k x t.start)
  owner : forall (i : Nat) r, f.ranges[i]? = some r -> exists t : Try, t.IsIn 0 body ∧ r.Of t
  /-- Each `try` has one range. -/
  range : forall t : Try, t.IsIn 0 body -> exists (i : Nat) (r : TryRange),
    f.ranges[i]? = some r ∧ r.Of t ∧
      forall (j : Nat) q, f.ranges[j]? = some q -> q.Of t -> j = i
  /-- Of two ranges one lies in front of the other or inside the other. -/
  nested : forall (i j : Nat) r q, f.ranges[i]? = some r -> f.ranges[j]? = some q -> i ≠ j ->
    r.stop <= q.start ∨ q.stop <= r.start ∨
      (r.start <= q.start ∧ q.stop < r.stop) ∨ (q.start <= r.start ∧ r.stop < q.stop)
  links : forall (i n : Nat) r, f.ranges[i]? = some r -> r.next = some n -> n < i
  /-- A walk along the chain visits every range once. -/
  walk : f.Visits f.head (List.range f.ranges.size).reverse
  found : forall ip r, f.findRange? ip = some r ↔
    r ∈ f.ranges ∧ exists t : Try, t.Innermost body ip ∧ r.Of t
  outside : forall ip, f.findRange? ip = none ↔
    forall t : Try, t.IsIn 0 body -> ¬ t.Encloses ip
  /-- A handler is not covered by its own `try`. -/
  handler : forall (t : Try) r ip, t.IsIn 0 body -> r ∈ f.ranges -> r.Of t ->
    t.stop <= ip -> ip < t.stop + t.handler.size -> r.covers ip = false

theorem TryRange.Of.covers_iff {r : TryRange} {t : Try} {ip : Nat} (h : r.Of t) :
    r.covers ip = true ↔ t.Encloses ip := by
  rw [TryRange.covers, h.start, h.stop, Bool.and_eq_true, decide_eq_true_eq, decide_eq_true_eq]
  rfl

theorem Try.Within.bounds {t u : Try} (h : t.Within u) : u.start <= t.start ∧ t.stop < u.stop := by
  have hbounds := Try.IsIn.bounds h
  refine ⟨hbounds.1, ?_⟩
  have hstop : u.stop = u.start + u.body.size + 1 := rfl
  lia

section Search

variable {f : Function} {body : Stmt} {ip : Nat} {r q : TryRange}

/-- Where no range is found, no range covers the instruction. -/
theorem Function.TriesOf.not_covers (h : f.TriesOf body) (hnone : f.findRange? ip = none)
    (hq : q ∈ f.ranges) : q.covers ip = false := by
  rcases Array.getElem?_of_mem hq with ⟨i, hi⟩
  rcases h.owner i q hi with ⟨t, ht, hqt⟩
  rw [Bool.eq_false_iff, ne_eq, hqt.covers_iff]
  exact (h.outside ip).mp hnone t ht

/-- The range that is found lies inside every other one that covers the instruction. -/
theorem Function.TriesOf.within (h : f.TriesOf body) (hsome : f.findRange? ip = some r)
    (hq : q ∈ f.ranges) (hcovers : q.covers ip = true) :
    q.start <= r.start ∧ r.stop <= q.stop := by
  rcases ((h.found ip r).mp hsome).2 with ⟨t, ht, hrt⟩
  rcases Array.getElem?_of_mem hq with ⟨i, hi⟩
  rcases h.owner i q hi with ⟨u, hu, hqu⟩
  rw [hrt.start, hrt.stop, hqu.start, hqu.stop]
  rcases ht.inner u hu (hqu.covers_iff.mp hcovers) with rfl | hwithin
  · exact ⟨Nat.le_refl _, Nat.le_refl _⟩
  · exact ⟨hwithin.bounds.1, Nat.le_of_lt hwithin.bounds.2⟩

end Search

section Assemble

variable {name script : Option String} {arity line : Nat} {body : Stmt} {ip : Nat}

theorem assemble_ranges_getElem? (i : Nat) :
    (assemble name script arity body line).ranges[i]? =
      ((body.tries 0)[i]?).map fun t => { t.range with next := before? i } := by
  show (chain (body.ranges 0))[i]? = _
  rw [chain_getElem?, Stmt.ranges_eq, List.getElem?_map, Option.map_map]
  rfl

theorem assemble_range {i : Nat} {r : TryRange}
    (hr : (assemble name script arity body line).ranges[i]? = some r) :
    exists t, (body.tries 0)[i]? = some t ∧ r.Of t ∧ r.next = before? i := by
  rw [assemble_ranges_getElem?] at hr
  rcases Option.map_eq_some_iff.mp hr with ⟨t, ht, rfl⟩
  exact ⟨t, ht, ⟨rfl, rfl, rfl⟩, rfl⟩

theorem assemble_range_of (name script : Option String) (arity line : Nat) {i : Nat} {t : Try}
    (ht : (body.tries 0)[i]? = some t) :
    exists r, (assemble name script arity body line).ranges[i]? = some r ∧ r.Of t := by
  refine ⟨{ t.range with next := before? i }, ?_, ⟨rfl, rfl, rfl⟩⟩
  rw [assemble_ranges_getElem?, ht]
  rfl

theorem assemble_link {i : Nat} {r : TryRange}
    (hr : (assemble name script arity body line).ranges[i]? = some r) : r.next = before? i := by
  rcases assemble_range hr with ⟨t, -, -, hnext⟩
  exact hnext

theorem assemble_head : (assemble name script arity body line).head =
    before? (assemble name script arity body line).ranges.size := by
  have hsize : (assemble name script arity body line).ranges.size = (body.ranges 0).length := by
    simp [assemble, chain]
  rw [hsize]
  rfl

/-- Of two ranges the later one lies behind the earlier one or inside it. -/
theorem Stmt.apart_or_within {i j : Nat} {t u : Try} (hij : i < j)
    (ht : (body.tries 0)[i]? = some t) (hu : (body.tries 0)[j]? = some u) :
    t.stop <= u.start ∨ u.Within t := by
  rcases List.getElem?_eq_some_iff.mp ht with ⟨hi, rfl⟩
  rcases List.getElem?_eq_some_iff.mp hu with ⟨hj, rfl⟩
  exact List.pairwise_iff_getElem.mp (body.tries_pairwise 0) i j hi hj hij

theorem Try.start_lt_stop (t : Try) : t.start < t.stop := by
  simp only [Try.stop]
  lia

theorem assemble_nested {i j : Nat} {r q : TryRange}
    (hr : (assemble name script arity body line).ranges[i]? = some r)
    (hq : (assemble name script arity body line).ranges[j]? = some q) (hij : i < j) :
    r.stop <= q.start ∨ (r.start <= q.start ∧ q.stop < r.stop) := by
  rcases assemble_range hr with ⟨t, ht, hrt, -⟩
  rcases assemble_range hq with ⟨u, hu, hqu, -⟩
  rw [hrt.start, hrt.stop, hqu.start, hqu.stop]
  rcases Stmt.apart_or_within hij ht hu with hapart | hwithin
  · exact Or.inl hapart
  · exact Or.inr hwithin.bounds

/-- The search gives the range of the innermost `try` around an instruction, if there is one. -/
theorem assemble_findRange? (ip : Nat) :
    ((assemble name script arity body line).findRange? ip = none ∧
      forall t : Try, t.IsIn 0 body -> ¬ t.Encloses ip) ∨
    exists r t, (assemble name script arity body line).findRange? ip = some r ∧
      r ∈ (assemble name script arity body line).ranges ∧ Try.Innermost t body ip ∧
        r.Of t := by
  rw [Function.findRange?, assemble_head]
  rcases Function.findRangeFrom?_before? (fun i r hr => assemble_link hr) (Nat.le_refl _)
    (Nat.lt_succ_self _) with ⟨hnone, hout⟩ | ⟨i, r, hsome, hi, hcovers, hout⟩
  · refine Or.inl ⟨hnone, ?_⟩
    intro t ht hencloses
    rcases List.getElem?_of_mem (Stmt.mem_tries_iff.mpr ht) with ⟨j, hj⟩
    rcases assemble_range_of name script arity line hj with ⟨q, hq, hqt⟩
    have hjlt := (Array.getElem?_eq_some_iff.mp hq).1
    rw [← hqt.covers_iff, hout j q hjlt hq] at hencloses
    cases hencloses
  · rcases assemble_range hi with ⟨t, ht, hrt, -⟩
    refine Or.inr ⟨r, t, hsome, Array.mem_of_getElem? hi, ?_, hrt⟩
    refine ⟨Stmt.isIn_of_mem_tries (List.mem_of_getElem? ht), hrt.covers_iff.mp hcovers, ?_⟩
    intro u hu hencloses
    rcases List.getElem?_of_mem (Stmt.mem_tries_iff.mpr hu) with ⟨j, hj⟩
    rcases assemble_range_of name script arity line hj with ⟨q, hq, hqu⟩
    rcases Nat.lt_trichotomy i j with hij | rfl | hji
    · -- A later range that covers the instruction would have been found first.
      have hjlt := (Array.getElem?_eq_some_iff.mp hq).1
      rw [← hqu.covers_iff, hout j q hij hjlt hq] at hencloses
      cases hencloses
    · rw [hj] at ht
      exact Or.inl (Option.some.inj ht)
    · rcases Stmt.apart_or_within hji hj ht with hapart | hwithin
      · have hin := hrt.covers_iff.mp hcovers
        exact absurd (Nat.lt_of_lt_of_le hencloses.2 hapart) (Nat.not_lt.mpr hin.1)
      · exact Or.inr hwithin

theorem Try.Innermost.unique {t u : Try} (ht : t.Innermost body ip) (hu : u.Innermost body ip) :
    t = u := by
  rcases hu.inner t ht.isIn ht.encloses with heq | hwithin
  · exact heq
  · rcases ht.inner u hu.isIn hu.encloses with heq | hwithin'
    · exact heq.symm
    · have hlt := hwithin.bounds
      have hlt' := hwithin'.bounds
      lia

theorem assemble_index_unique {i j : Nat} {r q : TryRange} {t : Try}
    (hr : (assemble name script arity body line).ranges[i]? = some r)
    (hq : (assemble name script arity body line).ranges[j]? = some q) (hrt : r.Of t)
    (hqt : q.Of t) : i = j := by
  have hlt := t.start_lt_stop
  rcases Nat.lt_trichotomy i j with hij | heq | hji
  · have hnested := assemble_nested hr hq hij
    rw [hrt.start, hrt.stop, hqt.start, hqt.stop] at hnested
    lia
  · exact heq
  · have hnested := assemble_nested hq hr hji
    rw [hrt.start, hrt.stop, hqt.start, hqt.stop] at hnested
    lia

theorem assemble_triesOf (name script : Option String) (arity : Nat) (body : Stmt) (line : Nat) :
    (assemble name script arity body line).TriesOf body where
  code := by
    intro t ht
    have hcode : CodeAt (assemble name script arity body line) 0 (bodyLines body line) :=
      codeAt_assemble name script line
    exact ⟨_, Stmt.Part.codeAt ht ((along_append _ _ _ _).mp hcode).1⟩
  owner := by
    intro i r hr
    rcases assemble_range hr with ⟨t, ht, hrt, -⟩
    exact ⟨t, Stmt.isIn_of_mem_tries (List.mem_of_getElem? ht), hrt⟩
  range := by
    intro t ht
    rcases List.getElem?_of_mem (Stmt.mem_tries_iff.mpr ht) with ⟨i, hi⟩
    rcases assemble_range_of name script arity line hi with ⟨r, hr, hrt⟩
    exact ⟨i, r, hr, hrt, fun j q hq hqt => assemble_index_unique hq hr hqt hrt⟩
  nested := by
    intro i j r q hr hq hne
    rcases Nat.lt_or_gt_of_ne hne with hij | hji
    · have hnested := assemble_nested hr hq hij
      lia
    · have hnested := assemble_nested hq hr hji
      lia
  links := by
    intro i n r hr hn
    rw [assemble_link hr] at hn
    cases i with
    | zero => cases hn
    | succ i =>
        cases hn
        exact Nat.lt_succ_self _
  walk := by
    rw [assemble_head]
    exact Function.visits_before? (fun i r hr => assemble_link hr) (Nat.le_refl _)
  found := by
    intro ip r
    rcases assemble_findRange? ip with ⟨hnone, hout⟩ | ⟨r', t', hsome, hmem', hinner', hrt'⟩
    · rw [hnone]
      refine ⟨nofun, ?_⟩
      rintro ⟨-, t, ht, -⟩
      exact absurd ht.encloses (hout t ht.isIn)
    · rw [hsome]
      constructor
      · intro hr
        cases hr
        exact ⟨hmem', t', hinner', hrt'⟩
      · rintro ⟨hmem, t, ht, hrt⟩
        rw [ht.unique hinner'] at hrt
        rcases Array.getElem?_of_mem hmem with ⟨i, hi⟩
        rcases Array.getElem?_of_mem hmem' with ⟨j, hj⟩
        rw [assemble_index_unique hi hj hrt hrt', hj] at hi
        exact hi
  outside := by
    intro ip
    rcases assemble_findRange? ip with ⟨hnone, hout⟩ | ⟨r, t, hsome, -, hinner, -⟩
    · exact ⟨fun _ => hout, fun _ => hnone⟩
    · rw [hsome]
      exact ⟨nofun, fun hout => absurd hinner.encloses (hout t hinner.isIn)⟩
  handler := by
    intro t r ip _ _ hrt hstop _
    rw [Bool.eq_false_iff, ne_eq, hrt.covers_iff]
    exact fun hencloses => absurd hencloses.2 (Nat.not_lt.mpr hstop)

end Assemble

/-! ## Scripts -/

theorem compile_ranges_follow_tries {base : Nat} {name : Option String} {source : String}
    {p : Program} (h : compile base name source = .ok p) :
    exists s, parse base source = .ok s ∧ p.functions.size = s.definitions.size ∧
      (forall (i : Nat) f d, p.functions[i]? = some f -> s.definitions[i]? = some d ->
        f.TriesOf d.body) ∧ p.main.TriesOf s.body := by
  rcases compile_eq_ok h with ⟨s, hs, rfl⟩
  refine ⟨s, hs, Script.functions_size, ?_, assemble_triesOf ..⟩
  intro i f d hf hd
  rw [← Script.of_functions_getElem? hf hd]
  exact assemble_triesOf ..

def nestedTries : String :=
  "try \x7b try \x7b throw 1 \x7d except e \x7b throw e \x7d \x7d except e " ++
    "\x7b try \x7b throw e \x7d except f \x7b echo f \x7d \x7d"

theorem nestedTries_ranges_follow_tries :
    exists p, compile 0 none nestedTries = .ok p ∧ p.main.ranges.size = 3 ∧
      exists s, parse 0 nestedTries = .ok s ∧ p.functions.size = s.definitions.size ∧
        (forall (i : Nat) f d, p.functions[i]? = some f -> s.definitions[i]? = some d ->
          f.TriesOf d.body) ∧ p.main.TriesOf s.body := by
  have hsize : (compile 0 none nestedTries).toOption.map (fun p => p.main.ranges.size) =
      some 3 := by
    decide +kernel
  rcases Option.map_eq_some_iff.mp hsize with ⟨p, hp, hthree⟩
  have h : compile 0 none nestedTries = .ok p := by
    cases hc : compile 0 none nestedTries with
    | error e =>
        rw [hc] at hp
        cases hp
    | ok q =>
        rw [hc] at hp
        cases hp
        rfl
  exact ⟨p, h, hthree, compile_ranges_follow_tries h⟩

end StackScript
