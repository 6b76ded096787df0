import StackScript.Proofs.Source.Reading
import StackScript.Proofs.Source.Term

/-!
# Printed terms are read back

Reading the words of a term gives the tree of the term.  A term whose outermost
operator binds loosely is never read on its own: its left operand comes first and the
loop then goes on behind it.  So the statement that carries the induction speaks of
what follows: if the loop succeeds from behind the tree of a term, it succeeds from the
first word of the term.
-/

namespace StackScript

/-- A token behind an expression that does not make it the target of an assignment. -/
def Token.Calm (t : Token) : Prop :=
  t ≠ .mark .assign ∧ t.compound? = none

theorem BinarySign.calm_word (op : BinarySign) : op.word.token.Calm := by
  cases op <;> exact ⟨by simp [BinarySign.word, Word.token], rfl⟩

theorem Connective.calm_word (op : Connective) : op.word.token.Calm := by
  cases op <;> exact ⟨by decide, rfl⟩

namespace Term

open StackScript.Parser

/-- No name of a term is in the middle of being declared, and each stands for its variable. -/
def Settled (t : Term) (scope : Scope) (look : Name -> Variable) : Prop :=
  forall x, x ∈ t.names -> scope.resolve x.text ≠ .unsettled ∧ scope.look x = look x

/-! ## Pieces of the loop -/

/-- Reading an operand and going on with it. -/
def lead (p : Precedence) (canAssign : Bool) (fuel : Nat) : Parser Expr := do
  advance
  let e ← operand fuel canAssign
  follow fuel p canAssign e

section Loop

variable {n m N : Nat} {p : Precedence} {canAssign : Bool} {r : Reading} {s : Surroundings}
  {look : Name -> Variable} {t : Term} {e : Expr} {u v : Token} {ts rest : List Token}
  {post : Expr -> Reading -> Prop}

/-- What is known when the tree of a term has been read. -/
def Read (t : Term) (look : Name -> Variable) (s : Surroundings) (ts : List Token) (e : Expr)
    (r : Reading) : Prop :=
  t.Matches look e ∧ r.Sees s ts

theorem lead_of_operand (hsees : r.Sees s (v :: ts)) (hts : ts ≠ [])
    (hoperand : forall r', r'.previous.token = v -> r'.Sees s ts ->
      Runs m (fun fuel => operand fuel canAssign) r' (t.Read look s rest))
    (hfollow : forall e r', t.Read look s rest e r' ->
      Runs n (fun fuel => follow fuel p canAssign e) r' post)
    (hm : m <= N) (hn : n <= N) : Runs N (lead p canAssign) r post := by
  refine Runs.advance hsees ?_ hts
  intro r1 hprevious hsees1
  apply Runs.bind ((hoperand r1 hprevious hsees1).weaken hm)
  intro e r2 hread
  exact (hfollow e r2 hread).weaken hn

theorem follow_stop (hsees : r.Sees s (u :: rest)) (hu : u.rule.precedence.rank < p.rank)
    (hpost : post e r) : Runs 1 (fun fuel => follow fuel p canAssign e) r post := by
  apply Runs.spend (fun fuel => rfl)
  apply Runs.current hsees
  simp only [Nat.not_le.mpr hu, if_false]
  exact Runs.pure hpost

theorem follow_step (hsees : r.Sees s (v :: ts)) (hts : ts ≠ [])
    (hv : p.rank <= v.rule.precedence.rank)
    (hcontinuation : forall r', r'.previous.token = v -> r'.Sees s ts ->
      Runs m (fun fuel => continuation fuel canAssign e v) r' (t.Read look s rest))
    (hfollow : forall e r', t.Read look s rest e r' ->
      Runs n (fun fuel => follow fuel p canAssign e) r' post)
    (hm : m < N) (hn : n < N) : Runs N (fun fuel => follow fuel p canAssign e) r post := by
  cases N with
  | zero => exact absurd hm (Nat.not_lt_zero m)
  | succ N =>
      apply Runs.spend (fun fuel => rfl)
      apply Runs.current hsees
      simp only [hv, if_true]
      refine Runs.advance hsees ?_ hts
      intro r1 hprevious hsees1
      apply Runs.bind ((hcontinuation r1 hprevious hsees1).weaken (Nat.le_of_lt_succ hm))
      intro e' r2 hread
      exact (hfollow e' r2 hread).weaken (Nat.le_of_lt_succ hn)

end Loop

/-! ## Terms in their places -/

/-- From the first word of the term on, reading goes on as from behind its tree. -/
def Leads (t : Term) (look : Name -> Variable) (s : Surroundings) : Prop :=
  forall (canAssign : Bool) {n p r u rest post},
    p.rank <= t.level -> u.rule.precedence.rank < t.edge -> u.Calm ->
    r.Sees s (ahead t.words (u :: rest)) ->
    (forall e r', t.Read look s (u :: rest) e r' ->
      Runs n (fun fuel => follow fuel p canAssign e) r' post) ->
    Runs (n + 4 * t.words.length) (lead p canAssign) r post

/-- Reading an expression of at least the given precedence gives the tree of the term. -/
def Reads (t : Term) (look : Name -> Variable) (s : Surroundings) (p : Precedence) : Prop :=
  forall {r u rest}, u.rule.precedence.rank < p.rank -> u.Calm ->
    r.Sees s (ahead (t.wordsAt p.rank) (u :: rest)) ->
    Runs (4 * (t.wordsAt p.rank).length + 2) (fun fuel => expression fuel p) r
      (t.Read look s (u :: rest))

section Places

variable {t : Term} {look : Name -> Variable} {s : Surroundings}

theorem expression_succ (fuel : Nat) (p : Precedence) :
    expression (fuel + 1) p =
      lead p (p.rank <= Precedence.assign.rank) fuel >>= fun e => do
        let t ← current
        if decide (p.rank <= Precedence.assign.rank) &&
            (t == .mark .assign || t.compound?.isSome) then
          failHere .invalidTarget
        else
          return e := by
  rw [expression]
  simp only [lead, bind_assoc]

/-- The end of an expression: the token in front is no assignment. -/
theorem runs_expression {n : Nat} {p : Precedence} {r : Reading} {u : Token} {rest : List Token}
    {post : Expr -> Reading -> Prop} (hu : u.Calm)
    (hsees : forall e r', post e r' -> r'.Sees s (u :: rest))
    (h : Runs n (lead p (p.rank <= Precedence.assign.rank)) r post) :
    Runs (n + 1) (fun fuel => expression fuel p) r post := by
  apply Runs.spend (fun fuel => expression_succ fuel p)
  apply Runs.bind h
  intro e r1 hread
  apply Runs.current (hsees e r1 hread)
  simp only [beq_eq_false_iff_ne.mpr hu.1, hu.2, Option.isSome_none, Bool.or_self, Bool.and_false,
    Bool.false_eq_true, if_false]
  exact Runs.pure hread

/-- A term in no parentheses. -/
theorem Leads.reads_bare (h : t.Leads look s) {p : Precedence} (hp : p.rank <= t.level)
    {r : Reading} {u : Token} {rest : List Token} (hu : u.rule.precedence.rank < p.rank)
    (hcalm : u.Calm) (hsees : r.Sees s (ahead t.words (u :: rest))) :
    Runs (4 * t.words.length + 2) (fun fuel => expression fuel p) r
      (t.Read look s (u :: rest)) := by
  have hedge : u.rule.precedence.rank < t.edge :=
    Nat.lt_of_lt_of_le hu (Nat.le_trans hp t.level_le_edge)
  have hlead := h (p.rank <= Precedence.assign.rank) hp hedge hcalm hsees
    fun e r' hread => follow_stop hread.2 hu hread
  exact (runs_expression hcalm (fun _ _ hread => hread.2) hlead).weaken (by lia)

/-- A term in parentheses. -/
theorem Leads.operand_group (h : t.Leads look s) {canAssign : Bool} {r : Reading} {ts : List Token}
    (hts : ts ≠ []) (hprevious : r.previous.token = .mark .leftParen)
    (hsees : r.Sees s (ahead t.words (.mark .rightParen :: ts))) :
    Runs (4 * t.words.length + 3) (fun fuel => operand fuel canAssign) r (t.Read look s ts) := by
  apply Runs.spend (fun fuel => rfl)
  apply Runs.previous hprevious
  apply Runs.bind (h.reads_bare (Nat.le_of_lt t.assign_lt_level) (by decide) ⟨by decide, rfl⟩ hsees)
  intro e r1 hread
  refine Runs.expect hread.2 ?_ hts
  intro r2 _ hsees2
  exact Runs.pure ⟨hread.1, hsees2⟩

/-- A term in a place that asks for a rank, in parentheses or not. -/
theorem Leads.lead_wordsAt (h : t.Leads look s) {rank n : Nat} {p : Precedence} {canAssign : Bool}
    {r : Reading} {u : Token} {rest : List Token} {post : Expr -> Reading -> Prop}
    (hp : p.rank <= rank) (hu : rank <= t.level -> u.rule.precedence.rank < t.edge)
    (hcalm : u.Calm) (hsees : r.Sees s (ahead (t.wordsAt rank) (u :: rest)))
    (hfollow : forall e r', t.Read look s (u :: rest) e r' ->
      Runs n (fun fuel => follow fuel p canAssign e) r' post) :
    Runs (n + 4 * (t.wordsAt rank).length) (lead p canAssign) r post := by
  by_cases hrank : t.level < rank
  · have hwords : t.wordsAt rank = .mark .leftParen :: (t.words ++ [Word.mark .rightParen]) := by
      simp [wordsAt, grouped, hrank]
    rw [hwords] at hsees ⊢
    simp only [ahead_cons, ahead_append, ahead_nil] at hsees
    refine lead_of_operand hsees (ahead_ne_nil _ (by simp)) ?_ hfollow (m := 4 * t.words.length + 3)
      ?_ ?_
    · intro r1 hprevious hsees1
      exact h.operand_group (by simp) hprevious hsees1
    · simp
      lia
    · lia
  · have hwords : t.wordsAt rank = t.words := by
      simp [wordsAt, grouped, hrank]
    rw [hwords] at hsees ⊢
    exact h canAssign (by lia) (hu (by lia)) hcalm hsees hfollow

theorem Leads.reads (h : t.Leads look s) (p : Precedence) : t.Reads look s p := by
  intro r u rest hu hcalm hsees
  have hlead : Runs (1 + 4 * (t.wordsAt p.rank).length)
      (lead p (p.rank <= Precedence.assign.rank)) r (t.Read look s (u :: rest)) := by
    apply h.lead_wordsAt (Nat.le_refl p.rank) _ hcalm hsees
    · intro e r' hread
      exact follow_stop hread.2 hu hread
    · intro hlevel
      exact Nat.lt_of_lt_of_le hu (Nat.le_trans hlevel t.level_le_edge)
  exact (runs_expression hcalm (fun _ _ hread => hread.2) hlead).weaken (by lia)

theorem exists_ahead_words (t : Term) (ts : List Token) :
    exists v rest, ahead t.words ts = v :: rest ∧ v.opensTerm := by
  rcases t.starts_words with ⟨w, ws, hws, hopens⟩
  exact ⟨w.token, ahead ws ts, by rw [hws, ahead_cons], hopens⟩

/-- Arguments with commas between them, up to the closing parenthesis. -/
theorem runs_items {args : List Term} (h : forall a, a ∈ args -> a.Leads look s) {r : Reading}
    {rest : List Token} (hsees : r.Sees s (ahead (listed args) (.mark .rightParen :: rest))) :
    Runs (4 * (listed args).length + 3) (fun fuel => items fuel .rightParen) r fun es r' =>
      AllMatch look args es ∧ r'.Sees s (.mark .rightParen :: rest) := by
  induction args generalizing r with
  | nil =>
      apply Runs.spend (fun fuel => rfl)
      apply Runs.at? hsees
      exact Runs.pure ⟨rfl, hsees⟩
  | cons a args ih =>
      have hbare := h a (by simp)
      apply Runs.spend (fun fuel => rfl)
      rw [listed, ahead_append] at hsees
      rcases exists_ahead_words a (ahead (listedBehind args) (.mark .rightParen :: rest)) with
        ⟨v, ts, hv, hopens⟩
      have hfront := hsees
      rw [hv] at hfront
      apply Runs.at? hfront
      have hne : (v == Token.mark .rightParen) = false :=
        beq_eq_false_iff_ne.mpr (Token.ne_of_opensTerm hopens rfl)
      simp only [hne, Bool.false_eq_true, if_false]
      cases args with
      | nil =>
          simp only [listedBehind, ahead_nil] at hsees
          have hread := hbare.reads_bare (Nat.le_of_lt a.assign_lt_level) (by decide)
            ⟨by decide, rfl⟩ hsees
          apply Runs.bind (hread.weaken (by simp [listed, listedBehind]))
          intro e r1 hread
          apply Runs.decline hread.2 (by decide)
          exact Runs.pure ⟨⟨e, [], rfl, hread.1, rfl⟩, hread.2⟩
      | cons b args =>
          simp only [listedBehind, ahead_cons] at hsees
          have hread := hbare.reads_bare (Nat.le_of_lt a.assign_lt_level) (by decide)
            ⟨by decide, rfl⟩ hsees
          apply Runs.bind (hread.weaken (by
            simp only [listed, listedBehind, List.length_append, List.length_cons]
            lia))
          intro e r1 hread
          refine Runs.accept hread.2 ?_ (ahead_ne_nil _ (by simp))
          intro r2 _ hsees2
          have hitems := ih (fun c hc => h c (List.mem_cons_of_mem a hc)) (r := r2)
            (by simpa [listed] using hsees2)
          apply Runs.bind (hitems.weaken (by simp [listed, listedBehind]; lia))
          intro es r3 hes
          exact Runs.pure ⟨⟨e, es, rfl, hread.1, hes.1⟩, hes.2⟩

/-! ## One lemma for each form of term -/

/-- A term of one word, which is an operand by itself. -/
theorem leads_single {w : Word} (hwords : t.words = [w])
    (hoperand : forall {canAssign r u rest}, u.Calm -> r.previous.token = w.token ->
      r.Sees s (u :: rest) ->
      Runs 2 (fun fuel => operand fuel canAssign) r (t.Read look s (u :: rest))) :
    t.Leads look s := by
  intro canAssign n p r u rest post _ _ hcalm hsees hfollow
  rw [hwords] at hsees ⊢
  apply lead_of_operand (m := 2) hsees (by simp) _ hfollow (by simp) (by simp)
  intro r1 hprevious hsees1
  exact hoperand hcalm hprevious hsees1

theorem leads_named {x : Name} (hsettled : s.scope.resolve x.text ≠ .unsettled)
    (hlook : s.scope.look x = look x) : (named x).Leads look s := by
  apply leads_single rfl
  intro canAssign r u rest hcalm hprevious hsees
  apply Runs.spend (fun fuel => rfl)
  apply Runs.previous hprevious
  apply Runs.spend (fun fuel => rfl)
  apply Runs.resolve hsees hsettled
  apply Runs.current hsees
  simp only [beq_eq_false_iff_ne.mpr hcalm.1, Bool.and_false, Bool.false_eq_true, if_false]
  apply Runs.compound? hsees hcalm.2
  apply Runs.line
  exact Runs.pure ⟨⟨_, by rw [hlook]⟩, hsees⟩

theorem leads_unary {op : UnarySign} {a : Term} (ha : a.Leads look s) :
    (unary op a).Leads look s := by
  intro canAssign n p r u rest post _ hu hcalm hsees hfollow
  have hwords : (unary op a).words = op.word :: a.wordsAt Precedence.unary.rank := rfl
  rw [hwords] at hsees ⊢
  refine lead_of_operand (m := 4 * (a.wordsAt Precedence.unary.rank).length + 3) hsees
    (ahead_ne_nil _ (by simp)) ?_ hfollow (by simp; lia) (by simp)
  intro r1 hprevious hsees1
  have hread := ha.reads .unary hu hcalm hsees1
  apply Runs.spend (fun fuel => rfl)
  apply Runs.previous hprevious
  cases op with
  | negate | bitNot | not =>
      apply Runs.bind hread
      intro e r2 hread2
      apply Runs.line
      exact Runs.pure ⟨⟨e, _, rfl, hread2.1⟩, hread2.2⟩

/-- A term that goes on behind an operand with a token of its own rank. -/
theorem leads_behind {a : Term} {rank m : Nat} {w : Word} {ws : List Word} (ha : a.Leads look s)
    (hwords : t.words = a.wordsAt rank ++ w :: ws)
    (hlevel : w.token.rule.precedence.rank = t.level) (hrank : t.level <= rank)
    (hedge : rank <= a.level -> t.level < a.edge) (hw : w.token.Calm)
    (hm : m < 4 * ws.length + 4)
    (hcontinuation : forall {canAssign r u rest e}, u.rule.precedence.rank < t.edge -> u.Calm ->
      a.Matches look e -> r.Sees s (ahead ws (u :: rest)) ->
      Runs m (fun fuel => continuation fuel canAssign e w.token) r (t.Read look s (u :: rest))) :
    t.Leads look s := by
  intro canAssign n p r u rest post hp hu hcalm hsees hfollow
  rw [hwords] at hsees ⊢
  rw [ahead_append, ahead_cons] at hsees
  have hlead : Runs (n + (4 * ws.length + 4) + 4 * (a.wordsAt rank).length) (lead p canAssign) r
      post := by
    apply ha.lead_wordsAt (Nat.le_trans hp hrank) _ hw hsees
    · intro e r1 hread
      refine follow_step hread.2 (ahead_ne_nil _ (by simp)) (hlevel ▸ hp) ?_ hfollow (m := m)
        (by lia) (by lia)
      intro r2 _ hsees2
      exact hcontinuation hu hcalm hread.1 hsees2
    · intro hle
      rw [hlevel]
      exact hedge hle
  apply hlead.weaken
  simp only [List.length_append, List.length_cons]
  lia

theorem leads_binary {op : BinarySign} {a b : Term} (ha : a.Leads look s) (hb : b.Leads look s) :
    (binary op a b).Leads look s := by
  have hwords : (binary op a b).words =
      a.wordsAt op.precedence.rank ++ op.word :: b.wordsAt op.precedence.next.rank := by
    rw [op.rank_next]
    rfl
  refine leads_behind (m := 4 * (b.wordsAt op.precedence.next.rank).length + 3) ha hwords
    (by rw [op.rule_word]; rfl) (Nat.le_refl _) binary_lt_edge op.calm_word (by lia) ?_
  intro canAssign r u rest e hu hcalm he hsees
  have hright := hb.reads op.precedence.next (by rw [op.rank_next]; exact hu) hcalm hsees
  cases op with
  | arith op | compare c =>
      apply Runs.spend (fun fuel => rfl)
      apply Runs.bind hright
      intro e' r' hread
      apply Runs.line
      exact Runs.pure ⟨⟨e, e', _, rfl, he, hread.1⟩, hread.2⟩

theorem leads_connect {op : Connective} {a b : Term} (ha : a.Leads look s) (hb : b.Leads look s) :
    (connect op a b).Leads look s := by
  have hwords : (connect op a b).words =
      a.wordsAt (op.precedence.rank + 1) ++ op.word :: b.wordsAt op.precedence.rank := rfl
  refine leads_behind (m := 4 * (b.wordsAt op.precedence.rank).length + 3) ha hwords
    (by cases op <;> rfl) (Nat.le_succ _) connective_lt_edge op.calm_word (by lia) ?_
  intro canAssign r u rest e hu hcalm he hsees
  have hright := hb.reads op.precedence hu hcalm hsees
  cases op with
  | and | or =>
      apply Runs.spend (fun fuel => rfl)
      apply Runs.line
      apply Runs.bind hright
      intro e' r' hread
      exact Runs.pure ⟨⟨e, _, e', rfl, he, hread.1⟩, hread.2⟩

theorem leads_call {f : Term} {args : List Term} (hf : f.Leads look s)
    (hargs : forall a, a ∈ args -> a.Leads look s) : (call f args).Leads look s := by
  have hwords : (call f args).words = f.wordsAt Precedence.call.rank ++
      Word.mark .leftParen :: (listed args ++ [Word.mark .rightParen]) := rfl
  refine leads_behind (m := 4 * (listed args).length + 4) hf hwords rfl (Nat.le_refl _)
    call_lt_edge ⟨by simp [Word.token], rfl⟩ (by simp) ?_
  intro canAssign r u rest e hu hcalm he hsees
  rw [ahead_append] at hsees
  apply Runs.spend (fun fuel => rfl)
  apply Runs.bind (runs_items hargs hsees)
  intro es r1 hread
  refine Runs.expect hread.2 ?_ (by simp)
  intro r2 _ hsees2
  apply Runs.line
  exact Runs.pure ⟨⟨e, es, _, rfl, he, hread.1⟩, hsees2⟩

theorem leads_index {a i : Term} (ha : a.Leads look s) (hi : i.Leads look s) :
    (index a i).Leads look s := by
  have hwords : (index a i).words = a.wordsAt Precedence.call.rank ++
      Word.mark .leftSquare :: (i.words ++ [Word.mark .rightSquare]) := rfl
  refine leads_behind (m := 4 * i.words.length + 4) ha hwords rfl (Nat.le_refl _)
    call_lt_edge ⟨by simp [Word.token], rfl⟩ (by simp) ?_
  intro canAssign r u rest e hu hcalm he hsees
  rw [ahead_append] at hsees
  apply Runs.spend (fun fuel => rfl)
  apply Runs.spend (fun fuel => rfl)
  rcases exists_ahead_words i (ahead [.mark .rightSquare] (u :: rest)) with ⟨v, ts, hv, hopens⟩
  apply Runs.decline (hv ▸ hsees) (Token.ne_of_opensTerm hopens rfl)
  apply Runs.bind
    (hi.reads_bare (Nat.le_of_lt i.assign_lt_level) (by decide) ⟨by decide, rfl⟩ hsees)
  intro e' r1 hread
  apply Runs.decline hread.2 (by decide)
  refine Runs.expect hread.2 ?_ (by simp)
  intro r2 _ hsees2
  apply Runs.current hsees2
  simp only [beq_eq_false_iff_ne.mpr hcalm.1, Bool.and_false, Bool.false_eq_true, if_false]
  apply Runs.compound? hsees2 hcalm.2
  apply Runs.line
  exact Runs.pure ⟨⟨e, e', _, rfl, he, hread.1⟩, hsees2⟩

theorem leads_property {a : Term} {key : Name} (ha : a.Leads look s) :
    (property a key).Leads look s := by
  have hwords : (property a key).words = a.wordsAt Precedence.call.rank ++
      Word.mark .dot :: [.name key] := rfl
  refine leads_behind (m := 2) ha hwords rfl (Nat.le_refl _) call_lt_edge
    ⟨by simp [Word.token], rfl⟩ (by simp) ?_
  intro canAssign r u rest e hu hcalm he hsees
  apply Runs.spend (fun fuel => rfl)
  apply Runs.spend (fun fuel => rfl)
  refine Runs.expectName hsees ?_ (by simp)
  intro r1 _ hsees1
  apply Runs.current hsees1
  simp only [beq_eq_false_iff_ne.mpr hcalm.1, Bool.and_false, Bool.false_eq_true, if_false]
  apply Runs.compound? hsees1 hcalm.2
  apply Runs.line
  exact Runs.pure ⟨⟨e, _, rfl, he⟩, hsees1⟩

mutual

/-- Reading goes on from the first word of every term as from behind its tree. -/
theorem leads {t : Term} (h : t.Settled s.scope look) : t.Leads look s := by
  cases t with
  | integer | float | none | text =>
      apply leads_single rfl
      intro canAssign r u rest _ hprevious hsees
      apply Runs.spend (fun fuel => rfl)
      apply Runs.previous hprevious
      apply Runs.line
      exact Runs.pure ⟨⟨_, rfl⟩, hsees⟩
  | bool b =>
      cases b with
      | true | false =>
          apply leads_single rfl
          intro canAssign r u rest _ hprevious hsees
          apply Runs.spend (fun fuel => rfl)
          apply Runs.previous hprevious
          apply Runs.line
          exact Runs.pure ⟨⟨_, rfl⟩, hsees⟩
  | named x => exact leads_named (h x (by simp [names])).1 (h x (by simp [names])).2
  | unary op a => exact leads_unary (leads h)
  | binary op a b =>
      exact leads_binary (leads fun x hx => h x (by simp [names, hx]))
        (leads fun x hx => h x (by simp [names, hx]))
  | connect op a b =>
      exact leads_connect (leads fun x hx => h x (by simp [names, hx]))
        (leads fun x hx => h x (by simp [names, hx]))
  | call f args =>
      exact leads_call (leads fun x hx => h x (by simp [names, hx]))
        (all_lead fun x hx => h x (by simp [names, hx]))
  | index a i =>
      exact leads_index (leads fun x hx => h x (by simp [names, hx]))
        (leads fun x hx => h x (by simp [names, hx]))
  | property a key => exact leads_property (leads h)

theorem all_lead {ts : List Term}
    (h : forall x, x ∈ allNames ts ->
      s.scope.resolve x.text ≠ .unsettled ∧ s.scope.look x = look x) :
    forall t, t ∈ ts -> t.Leads look s := by
  cases ts with
  | nil => simp
  | cons t ts =>
      have hfirst : t.Leads look s := leads fun x hx => h x (by simp [allNames, hx])
      have hothers : forall a, a ∈ ts -> a.Leads look s :=
        all_lead fun x hx => h x (by simp [allNames, hx])
      exact List.forall_mem_cons.mpr ⟨hfirst, hothers⟩

end

end Places
end Term
end StackScript
