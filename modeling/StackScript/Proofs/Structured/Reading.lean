import StackScript.Proofs.Structured.Tree

/-!
# Printed programs are read back

Reading the words of a well-scoped phrase gives the tree of the phrase and leaves the
reader in the scope behind it.
-/

namespace StackScript

open Phrase (Names)

def Token.isNameToken : Token -> Bool
  | name _ => true
  | _ => false

namespace Parser
namespace Runs

section Scopes

variable {α β : Type} {n : Nat} {r : Reading} {s : Surroundings} {ts : List Token}
  {post : β -> Reading -> Prop}

theorem scope {f : Nat -> Scope -> Parser β} (h : r.Sees s ts)
    (hf : Runs n (fun fuel => f fuel s.scope) r post) :
    Runs n (fun fuel => Parser.scope >>= f fuel) r post :=
  step (scope_eq_ok.mpr ⟨h.scope, rfl⟩) hf

theorem atName {f : Nat -> Bool -> Parser β} {t : Token} (h : r.Sees s (t :: ts))
    (hf : Runs n (fun fuel => f fuel t.isNameToken) r post) :
    Runs n (fun fuel => Parser.atName >>= f fuel) r post := by
  refine step ?_ hf
  exact bind_eq_ok.mpr ⟨t, r, current_eq_ok.mpr ⟨h.current_token, rfl⟩, rfl⟩

theorem modifyScope {g : Scope -> Scope} {f : Nat -> Unit -> Parser β} (h : r.Sees s ts)
    (hf : forall r', r'.Sees { s with scope := g s.scope } ts ->
      Runs n (fun fuel => f fuel ()) r' post) :
    Runs n (fun fuel => Parser.modifyScope g >>= f fuel) r post := by
  rcases h with ⟨hsound, hahead, rfl⟩
  exact step (modifyScope_eq_ok.mpr rfl) (hf _ ⟨hsound, hahead, rfl⟩)

theorem modifyScope_last {g : Scope -> Scope} {post : Unit -> Reading -> Prop} (h : r.Sees s ts)
    (hpost : forall r', r'.Sees { s with scope := g s.scope } ts -> post () r') :
    Runs n (fun _ => Parser.modifyScope g) r post := by
  rcases h with ⟨hsound, hahead, rfl⟩
  exact ⟨(), _, fun _ _ => modifyScope_eq_ok.mpr rfl, hpost _ ⟨hsound, hahead, rfl⟩⟩

theorem declare {name : String} {scope : Scope} {f : Nat -> Unit -> Parser β} (h : r.Sees s ts)
    (hscope : s.scope.declare? name = some scope)
    (hf : forall r', r'.Sees { s with scope := scope } ts ->
      Runs n (fun fuel => f fuel ()) r' post) :
    Runs n (fun fuel => Parser.declare name >>= f fuel) r post := by
  rcases h with ⟨hsound, hahead, rfl⟩
  have hdeclare : Parser.declare name r = .ok ((), { r with scope := scope }) := by
    have hscope' : r.scope.declare? name = some scope := hscope
    simp [Parser.declare, hscope']
  exact step hdeclare (hf _ ⟨hsound, hahead, rfl⟩)

theorem exitScope {f : Nat -> Stmt -> Parser β} (h : r.Sees s ts)
    (hf : forall line r', r'.Sees { s with scope := s.scope.exit } ts ->
      Runs n (fun fuel => f fuel (.drop (s.scope.above (s.scope.depth - 1)) line)) r' post) :
    Runs n (fun fuel => Parser.exitScope >>= f fuel) r post := by
  rcases h with ⟨hsound, hahead, rfl⟩
  have hexit : Parser.exitScope r =
      .ok (.drop (r.scope.above (r.scope.depth - 1)) r.previous.start.line,
        { r with scope := r.scope.exit }) := rfl
  exact step hexit (hf _ _ ⟨hsound, hahead, rfl⟩)

theorem loopLocals {f : Nat -> Nat -> Parser β} {depth : Nat} {outside : SyntaxFault}
    (h : r.Sees s ts) (hloop : s.loop = some depth)
    (hf : Runs n (fun fuel => f fuel (s.scope.above depth)) r post) :
    Runs n (fun fuel => Parser.loopLocals outside >>= f fuel) r post := by
  rcases h with ⟨-, -, rfl⟩
  have hlocals : Parser.loopLocals outside r = .ok (r.scope.above depth, r) := by
    have hloop' : r.loop = some depth := hloop
    simp [Parser.loopLocals, hloop']
  exact step hlocals hf

/-- Inside a loop the reader knows its depth; behind it the loop around it counts again. -/
theorem inLoop {x : Nat -> Parser α} {f : Nat -> α -> Parser β} {mid : α -> Prop}
    {s' : Surroundings} {ts' : List Token} (h : r.Sees s ts)
    (hx : forall r', r'.Sees { s with loop := some s.scope.depth } ts ->
      Runs n x r' fun a r'' => mid a ∧ r''.Sees s' ts')
    (hf : forall a r', mid a -> r'.Sees { s' with loop := s.loop } ts' ->
      Runs n (fun fuel => f fuel a) r' post) :
    Runs n (fun fuel => Parser.inLoop (x fuel) >>= f fuel) r post := by
  rcases h with ⟨hsound, hahead, rfl⟩
  rcases hx { r with loop := some r.scope.depth } ⟨hsound, hahead, rfl⟩ with
    ⟨a, r1, hrun, hmid, hsound1, hahead1, rfl⟩
  rcases hf a { r1 with loop := r.loop } hmid ⟨hsound1, hahead1, rfl⟩ with ⟨b, r2, hrest, hpost⟩
  refine ⟨b, r2, ?_, hpost⟩
  intro fuel hfuel
  have hloop : Parser.inLoop (x fuel) r = .ok (a, { r1 with loop := r.loop }) := by
    refine bind_eq_ok.mpr ⟨r, r, get_eq_ok.mpr ⟨rfl, rfl⟩, ?_⟩
    refine bind_eq_ok.mpr ⟨(), _, modify_eq_ok.mpr rfl, ?_⟩
    refine bind_eq_ok.mpr ⟨a, r1, hrun fuel hfuel, ?_⟩
    exact bind_eq_ok.mpr ⟨(), _, modify_eq_ok.mpr rfl, rfl⟩
  exact bind_eq_ok.mpr ⟨a, _, hloop, hrest fuel hfuel⟩

end Scopes
end Runs
end Parser

open StackScript.Parser

/-! ## Actions -/

/-- The token behind an expression of a statement. -/
def Token.Ends (t : Token) : Prop :=
  t.rule.precedence.rank < Precedence.assign.rank ∧ t.Calm

theorem Token.ends_semicolon : Token.Ends (.mark .semicolon) :=
  ⟨by decide, by decide, rfl⟩

theorem Token.ends_leftCurly : Token.Ends (.mark .leftCurly) :=
  ⟨by decide, by decide, rfl⟩

section Expressions

variable {look : Name -> Variable} {s : Surroundings} {r : Reading} {u : Token} {rest : List Token}

theorem Term.runs_term {t : Term} (ht : t.Settled s.scope look) (hu : u.Ends)
    (hsees : r.Sees s (ahead t.words (u :: rest))) :
    Runs (4 * t.words.length + 2) (fun fuel => expression fuel .assign) r
      (t.Read look s (u :: rest)) :=
  (leads ht).reads_bare (Nat.le_of_lt t.assign_lt_level) hu.1 hu.2 hsees

/-- An expression that begins with a name and goes on as an assignment to it. -/
theorem runs_assignment {x : Name} {m : Nat} {ts : List Token} {post : Expr -> Reading -> Prop}
    (hsees : r.Sees s (.name x.text :: ts)) (hts : ts ≠ []) (hu : u.Ends)
    (hpost : forall e r', post e r' -> r'.Sees s (u :: rest))
    (hname : forall r', r'.Sees s ts -> Runs m (fun fuel => name fuel true x.text) r' post) :
    Runs (m + 2) (fun fuel => expression fuel .assign) r post := by
  apply Term.runs_expression hu.2 hpost
  refine Runs.advance hsees ?_ hts
  intro r1 hprevious hsees1
  have hoperand : Runs (m + 1) (fun fuel => operand fuel true) r1 post := by
    apply Runs.spend (fun fuel => rfl)
    apply Runs.previous hprevious
    exact hname r1 hsees1
  apply Runs.bind hoperand
  intro e r2 hread
  exact (Term.follow_stop (hpost e r2 hread) hu.1 hread).weaken (by lia)

theorem Action.runs_action {a : Action}
    (ha : forall x, x ∈ a.names -> s.scope.resolve x.text ≠ .unsettled ∧ s.scope.look x = look x)
    (hu : u.Ends) (hsees : r.Sees s (ahead a.words (u :: rest))) :
    Runs (4 * a.words.length + 2) (fun fuel => expression fuel .assign) r fun e r' =>
      a.Matches look e ∧ r'.Sees s (u :: rest) := by
  cases a with
  | evaluate t => exact Term.runs_term ha hu hsees
  | assign x t =>
      have hx := ha x (by simp [names])
      have ht : t.term.Settled s.scope look := fun y hy => ha y (by simp [names, hy])
      apply Runs.weaken (n := 4 * t.term.words.length + 3 + 2)
      · refine runs_assignment hsees (by simp) hu (fun _ _ hread => hread.2) ?_
        intro r1 hsees1
        apply Runs.spend (fun fuel => by rw [name])
        apply Runs.resolve hsees1 hx.1
        apply Runs.current hsees1
        refine Runs.advance hsees1 ?_ (ahead_ne_nil _ (by simp))
        intro r2 _ hsees2
        apply Runs.bind (Term.runs_term ht hu hsees2)
        intro e r3 hread
        apply Runs.line
        exact Runs.pure ⟨⟨e, _, by rw [hx.2], hread.1⟩, hread.2⟩
      · simp [words]
        lia
  | update x op t =>
      have hx := ha x (by simp [names])
      have ht : t.term.Settled s.scope look := fun y hy => ha y (by simp [names, hy])
      apply Runs.weaken (n := 4 * t.term.words.length + 3 + 2)
      · refine runs_assignment hsees (by simp) hu (fun _ _ hread => hread.2) ?_
        intro r1 hsees1
        apply Runs.spend (fun fuel => by rw [name])
        apply Runs.resolve hsees1 hx.1
        apply Runs.current hsees1
        refine Runs.compound_some hsees1 ?_ (ahead_ne_nil _ (by simp))
        intro r2 hsees2
        apply Runs.line
        apply Runs.bind (Term.runs_term ht hu hsees2)
        intro e r3 hread
        apply Runs.line
        exact Runs.pure ⟨⟨_, e, _, by rw [hx.2], hread.1⟩, hread.2⟩
      · simp [words]
        lia

end Expressions

/-! ## Phrases -/

namespace Phrase

/-- The surroundings inside of blocks with the given names and of a loop of the given depth. -/
def inside (s : Surroundings) (names : Names) (loop : Option Nat) : Surroundings :=
  { s with scope := .ofNames names, loop := loop }

theorem enter_inside {s : Surroundings} {names : Names} {loop : Option Nat} :
    { inside s names loop with scope := (inside s names loop).scope.enter } =
      inside s ([] :: names) loop := by
  simp [inside]

theorem size_inside {s : Surroundings} {names : Names} {loop : Option Nat} :
    (inside s names loop).scope.size = names.flatten.length + 1 :=
  Scope.size_ofNames names

/-- Leaving a block forgets its locals. -/
theorem count_inside {s : Surroundings} {top : List Name} {names : Names} {loop : Option Nat} :
    (inside s (top :: names) loop).scope.above ((inside s (top :: names) loop).scope.depth - 1) =
      top.length := by
  show (Scope.ofNames (top :: names)).above (names.length + 1 - 1) = top.length
  rw [Nat.add_sub_cancel, Scope.above_ofNames, Scope.countAbove_cons_length]

theorem after_cons {p : Part} (c : Phrase p) (s : List Name) (outer : Names) :
    exists s', c.after (s :: outer) = s' :: outer := by
  induction c generalizing s with
  | declare x t => exact ⟨x :: s, rfl⟩
  | next first rest ihfirst ihrest =>
      rcases ihfirst s with ⟨s1, h1⟩
      rcases ihrest s1 with ⟨s2, h2⟩
      exact ⟨s2, by rw [after, h1, h2]⟩
  | _ => exact ⟨s, rfl⟩

/-- Reading what follows the body of a conditional. -/
def readBranch (e : Expr) (line : Nat) (body : Stmt) (bodyLine : Nat) (fuel : Nat) :
    Parser Stmt := do
  if ← accept (.keyword .elif) then
    return .cond e line body bodyLine (← conditional fuel)
  else if ← accept (.keyword .else_) then
    return .cond e line body bodyLine (← block fuel)
  else
    return .cond e line body bodyLine .skip

theorem exists_ahead_statement (c : Phrase .statement) (ts : List Token) :
    exists v rest, ahead c.words ts = v :: rest ∧ v ≠ .endOfFile ∧ v ≠ .mark .rightCurly := by
  cases c with
  | perform a =>
      cases a with
      | evaluate t =>
          rcases t.term.exists_ahead_words (ahead [.mark .semicolon] ts) with ⟨v, rest, hv, hopens⟩
          refine ⟨v, rest, ?_, Token.ne_of_opensTerm hopens rfl, Token.ne_of_opensTerm hopens rfl⟩
          rw [words, ahead_append]
          exact hv
      | assign | update => exact ⟨_, _, rfl, by simp [Word.token], by simp [Word.token]⟩
  | _ => exact ⟨_, _, rfl, by simp [Word.token], by simp [Word.token]⟩

theorem length_words_pos (c : Phrase .statement) : 0 < c.words.length := by
  cases c <;> simp [words]

/-- What it means that a phrase is read back, for each part of the language. -/
def ReadsBack : {p : Part} -> Phrase p -> Prop
  | .statement, c =>
    forall {s names loop r u rest}, c.wellScoped names loop.isSome ->
      r.Sees (inside s names loop) (ahead c.words (u :: rest)) ->
      Runs (8 * c.words.length) declaration r fun tree r' =>
        c.Matches names loop tree ∧ r'.Sees (inside s (c.after names) loop) (u :: rest)
  | .block, c =>
    forall {s names loop inBlock r u rest}, c.wellScoped names loop.isSome ->
      (u == .endOfFile || (inBlock && u == .mark .rightCurly)) = true ->
      r.Sees (inside s names loop) (ahead c.words (u :: rest)) ->
      Runs (8 * c.words.length + 1) (fun fuel => declarations fuel inBlock) r fun tree r' =>
        c.Matches names loop tree ∧ r'.Sees (inside s (c.after names) loop) (u :: rest)
  | .branch, c =>
    forall {s names loop r rest e line body bodyLine}, c.wellScoped names loop.isSome ->
      r.Sees (inside s names loop) (ahead c.words (.mark .semicolon :: rest)) ->
      Runs (8 * c.words.length + 1) (readBranch e line body bodyLine) r fun tree r' =>
        (exists o, tree = .cond e line body bodyLine o ∧ c.Matches names loop o) ∧
          r'.Sees (inside s names loop) (.mark .semicolon :: rest)

section Blocks

variable {s : Surroundings} {names : Names} {loop : Option Nat} {r : Reading} {u : Token}
  {ts rest : List Token} {body : Phrase .block} {c : Plain} {other : Phrase .branch}

/-- A block between braces. -/
theorem ReadsBack.runs_block (h : body.ReadsBack)
    (hbody : body.wellScoped ([] :: names) loop.isSome) (hts : ts ≠ [])
    (hsees : r.Sees (inside s names loop) (ahead (braced body.words) ts)) :
    Runs (8 * body.words.length + 2) block r fun tree r' =>
      Closed (body.Matches ([] :: names) loop) (innermost (body.after ([] :: names))) tree ∧
        r'.Sees (inside s names loop) ts := by
  rcases body.after_cons [] names with ⟨top, htop⟩
  rw [braced, ahead_cons, ahead_append] at hsees
  apply Runs.spend (fun fuel => by rw [block])
  refine Runs.expect hsees ?_ (ahead_ne_nil _ (by simp))
  intro r1 _ hsees1
  apply Runs.modifyScope hsees1
  intro r2 hsees2
  rw [enter_inside] at hsees2
  apply Runs.bind (h hbody rfl hsees2)
  rintro tree r3 ⟨hmatches, hsees3⟩
  refine Runs.expect hsees3 ?_ hts
  intro r4 _ hsees4
  rw [htop] at hsees4
  apply Runs.exitScope hsees4
  intro line r5 hsees5
  refine Runs.pure ⟨⟨tree, line, ?_, hmatches⟩, ?_⟩
  · rw [count_inside, htop]
    rfl
  · simpa [inside] using hsees5

theorem conditional_succ (fuel : Nat) :
    conditional (fuel + 1) = (do
      let c ← expression fuel .assign
      let condLine ← Parser.line
      let body ← block fuel
      let bodyLine ← Parser.line
      readBranch c condLine body bodyLine fuel) := by
  rw [conditional]
  rfl

/-- A condition, its block and what follows it. -/
theorem ReadsBack.runs_conditional (hbody : body.ReadsBack) (hother : other.ReadsBack)
    (hsbody : body.wellScoped ([] :: names) loop.isSome)
    (hsother : other.wellScoped names loop.isSome)
    (hsees : r.Sees (inside s names loop)
      (ahead (c.term.words ++ (braced body.words ++ other.words)) (.mark .semicolon :: rest))) :
    Runs (8 * (c.term.words ++ (braced body.words ++ other.words)).length) conditional r
      fun tree r' => (cond c body other).Matches names loop tree ∧
        r'.Sees (inside s names loop) (.mark .semicolon :: rest) := by
  simp only [ahead_append] at hsees
  apply Runs.weaken (n := 4 * c.term.words.length + 8 * body.words.length +
    8 * other.words.length + 2 + 1)
  · apply Runs.spend conditional_succ
    have hcond := Term.runs_term (c.term.settled_ofNames names) Token.ends_leftCurly hsees
    apply Runs.bind (hcond.weaken (by lia))
    intro e r1 hread
    apply Runs.line
    have hblock := hbody.runs_block hsbody (ahead_ne_nil _ (by simp)) hread.2
    apply Runs.bind (hblock.weaken (by lia))
    intro b r2 hb
    apply Runs.line
    apply (hother hsother hb.2).mono (by lia)
    rintro tree r3 ⟨⟨o, rfl, ho⟩, hsees3⟩
    exact ⟨⟨e, _, b, _, o, rfl, hread.1, hb.1, ho⟩, hsees3⟩
  · simp only [List.length_append, braced, List.length_cons, List.length_nil]
    lia

/-! ## Statements -/

variable {s' : Surroundings} {v : Token} {m : Nat}

/-- A statement and its semicolon. -/
theorem runs_declaration {tree : Stmt -> Prop} (hsees : r.Sees s (v :: ts))
    (hlet : v ≠ .keyword .let_) (hfunction : v ≠ .keyword .function)
    (h : Runs m statement r fun a r' => tree a ∧ r'.Sees s' (.mark .semicolon :: u :: rest)) :
    Runs (m + 1) declaration r fun a r' => tree a ∧ r'.Sees s' (u :: rest) := by
  apply Runs.spend (fun fuel => by rw [declaration])
  apply Runs.current hsees
  split
  · exact absurd rfl hlet
  · exact absurd rfl hfunction
  · apply Runs.bind h
    intro a r1 ha
    refine Runs.accept ha.2 ?_ (by simp)
    intro r2 _ hsees2
    exact Runs.pure ⟨ha.1, hsees2⟩

theorem runs_expression_statement {tree : Expr -> Prop} (hsees : r.Sees s (v :: ts))
    (hv : v.opensTerm)
    (h : Runs m (fun fuel => expression fuel .assign) r fun e r' =>
      tree e ∧ r'.Sees s' (.mark .semicolon :: u :: rest)) :
    Runs (m + 2) declaration r fun a r' =>
      (exists e line, a = .expr e line ∧ tree e) ∧ r'.Sees s' (u :: rest) := by
  apply runs_declaration hsees (Token.ne_of_opensTerm hv rfl) (Token.ne_of_opensTerm hv rfl)
  apply Runs.spend (fun fuel => by rw [statement])
  apply Runs.current hsees
  -- No token that opens a term is one of the keywords that statements begin with.
  split <;> first
    | exact absurd hv (by decide)
    | skip
  apply Runs.bind h
  intro e r1 he
  apply Runs.line
  exact Runs.pure ⟨⟨e, _, rfl, he.1⟩, he.2⟩

theorem readsBack_perform (a : Action) : (perform a).ReadsBack := by
  intro s names loop r u rest _ hsees
  rw [words, ahead_append] at hsees
  have hnames (x : Name) (_ : x ∈ a.names) :
      (inside s names loop).scope.resolve x.text ≠ .unsettled ∧
        (inside s names loop).scope.look x = Scope.lookIn names x :=
    ⟨Scope.resolveIn_labels_ne_unsettled names x.text, rfl⟩
  have hruns := Action.runs_action hnames Token.ends_semicolon hsees
  have hopens : exists v ts, ahead a.words (ahead [.mark .semicolon] (u :: rest)) = v :: ts ∧
      v.opensTerm := by
    cases a with
    | evaluate t => exact t.term.exists_ahead_words _
    | assign x t => exact ⟨_, _, rfl, rfl⟩
    | update x op t => exact ⟨_, _, rfl, rfl⟩
  rcases hopens with ⟨v, ts, hv, hopens⟩
  apply (runs_expression_statement (hv ▸ hsees) hopens hruns).weaken
  simp only [words, List.length_append, List.length_singleton]
  lia

/-- A declaration behind its `let`. -/
theorem runs_letDeclaration {x : Name} {t : Plain}
    (hscoped : (declare x t).wellScoped names loop.isSome)
    (hsees : r.Sees (inside s names loop) (.name x.text :: .mark .assign ::
      ahead t.term.words (.mark .semicolon :: ts))) :
    Runs (4 * t.term.words.length + 3) letDeclaration r fun a r' =>
      (declare x t).Matches names loop a ∧
        r'.Sees (inside s ((declare x t).after names) loop) (.mark .semicolon :: ts) := by
  apply Runs.spend (fun fuel => by rw [letDeclaration])
  refine Runs.expectName hsees ?_ (by simp)
  intro r1 _ hsees1
  apply Runs.scope hsees1
  cases names with
  | nil =>
      refine Runs.expect hsees1 ?_ (ahead_ne_nil _ (by simp))
      intro r2 _ hsees2
      apply Runs.bind (Term.runs_term (t.term.settled_ofNames []) Token.ends_semicolon hsees2)
      intro e r3 hread
      apply Runs.line
      exact Runs.pure ⟨⟨e, _, rfl, hread.1⟩, hread.2⟩
  | cons top outer =>
      simp only [wellScoped, Bool.and_eq_true, Bool.not_eq_true'] at hscoped
      apply Runs.declare hsees1 (Scope.declare?_ofNames hscoped.1)
      intro r2 hsees2
      refine Runs.expect hsees2 ?_ (ahead_ne_nil _ (by simp))
      intro r3 _ hsees3
      apply Runs.bind (Term.runs_term (Term.settled_declared hscoped.2) Token.ends_semicolon hsees3)
      intro e r4 hread
      apply Runs.modifyScope hread.2
      intro r5 hsees5
      exact Runs.pure ⟨⟨e, rfl, hread.1⟩, hsees5⟩

theorem readsBack_declare (x : Name) (t : Plain) : (declare x t).ReadsBack := by
  intro s names loop r u rest hscoped hsees
  simp only [words, ahead_cons, ahead_append] at hsees
  apply Runs.weaken (n := 4 * t.term.words.length + 3 + 1)
  · apply Runs.spend (fun fuel => by rw [declaration])
    apply Runs.current hsees
    refine Runs.advance hsees ?_ (by simp)
    intro r1 _ hsees1
    apply Runs.bind (runs_letDeclaration hscoped hsees1)
    intro a r2 ha
    refine Runs.accept ha.2 ?_ (by simp)
    intro r3 _ hsees3
    exact Runs.pure ⟨ha.1, hsees3⟩
  · simp only [words, List.length_cons, List.length_append, List.length_nil]
    lia

theorem readsBack_forLoop {x : Name} {start c : Plain} {step : Action} (h : body.ReadsBack) :
    (forLoop x start c step body).ReadsBack := by
  intro s names loop r u rest hscoped hsees
  rw [wellScoped, Bool.and_eq_true, Bool.not_eq_true'] at hscoped
  simp only [words, ahead_cons, ahead_append, ahead_nil] at hsees
  have hdeclare : (declare x start).wellScoped ([] :: names) loop.isSome := by
    simp [wellScoped]
    simpa using hscoped.1
  have hnames (y : Name) (_ : y ∈ step.names) :
      (inside s ([x] :: names) loop).scope.resolve y.text ≠ .unsettled ∧
        (inside s ([x] :: names) loop).scope.look y = Scope.lookIn ([x] :: names) y :=
    ⟨Scope.resolveIn_labels_ne_unsettled _ y.text, rfl⟩
  have hstepping {r : Reading} (hsees : r.Sees (inside s ([] :: names) loop)
      (ahead (.name x :: .mark .assign :: start.term.words) (.mark .semicolon ::
        ahead c.term.words (.mark .semicolon ::
          ahead step.words (ahead (braced body.words) (.mark .semicolon :: u :: rest)))))) :
      Runs (4 * start.term.words.length + 4 * c.term.words.length + 4 * step.words.length +
        8 * body.words.length + 4) steppingLoop r fun a r' =>
        (exists e line jumpLine d stepLine b bodyLine start',
          a = .seq (.bind start') (.stepping e line jumpLine d stepLine b bodyLine) ∧
          start.term.Matches (Scope.lookIn names) start' ∧
          c.term.Matches (Scope.lookIn ([x] :: names)) e ∧
          step.Matches (Scope.lookIn ([x] :: names)) d ∧
          Closed (body.Matches ([] :: [x] :: names) (some (names.length + 1)))
            (innermost (body.after ([] :: [x] :: names))) b) ∧
        r'.Sees (inside s ([x] :: names) loop) (.mark .semicolon :: u :: rest) := by
    apply Runs.spend (fun fuel => by rw [steppingLoop])
    apply Runs.bind ((runs_letDeclaration hdeclare hsees).weaken (by lia))
    rintro a r1 ⟨⟨start', rfl, hstart⟩, hsees1⟩
    refine Runs.expect hsees1 ?_ (ahead_ne_nil _ (by simp))
    intro r2 _ hsees2
    have hcond := Term.runs_term (c.term.settled_ofNames ([x] :: names)) Token.ends_semicolon hsees2
    apply Runs.bind (hcond.weaken (by lia))
    intro e r3 hread
    apply Runs.line
    refine Runs.expect hread.2 ?_ (ahead_ne_nil _ (ahead_ne_nil _ (by simp)))
    intro r4 _ hsees4
    apply Runs.line
    apply Runs.bind ((Action.runs_action hnames Token.ends_leftCurly hsees4).weaken (by lia))
    intro d r5 hd
    apply Runs.line
    apply Runs.inLoop hd.2
    · intro r6 hsees6
      have hbody : body.wellScoped ([] :: [x] :: names) (some (names.length + 1)).isSome = true :=
        hscoped.2
      exact (h.runs_block hbody (by simp) hsees6).weaken (by lia)
    · intro b r6 hb hsees6
      apply Runs.line
      exact Runs.pure ⟨⟨e, _, _, d, _, b, _, start', rfl, hstart, hread.1, hd.1, hb⟩, hsees6⟩
  apply Runs.weaken (n := 4 * start.term.words.length + 4 * c.term.words.length +
    4 * step.words.length + 8 * body.words.length + 4 + 1 + 1)
  · apply runs_declaration hsees (by simp [Word.token]) (by simp [Word.token])
    apply Runs.spend (fun fuel => by rw [statement])
    apply Runs.current hsees
    refine Runs.advance hsees ?_ (by simp)
    intro r1 _ hsees1
    apply Runs.modifyScope hsees1
    intro r2 hsees2
    refine Runs.accept hsees2 ?_ (by simp)
    intro r3 _ hsees3
    rw [enter_inside] at hsees3
    apply Runs.bind (hstepping hsees3)
    rintro a r4 ⟨⟨e, line, jumpLine, d, stepLine, b, bodyLine, start', rfl, hstart, he, hd, hb⟩,
      hsees4⟩
    apply Runs.exitScope hsees4
    intro dropLine r5 hsees5
    refine Runs.pure
      ⟨⟨start', e, line, jumpLine, d, stepLine, b, bodyLine, dropLine, ?_, hstart, he, hd, hb⟩, ?_⟩
    · rw [count_inside]
      rfl
    · simpa [inside, after] using hsees5
  · simp only [words, braced, List.length_cons, List.length_append, List.length_nil]
    lia

/-- A local that has its value when it is declared. -/
theorem runs_declareSettled {x : Name} {n : Nat} (hsees : r.Sees (inside s ([] :: names) loop) ts) :
    Runs n (fun _ => declareSettled x.text) r fun _ r' =>
      r'.Sees (inside s ([x] :: names) loop) ts := by
  have hdeclare : (Scope.ofNames ([] :: names)).declare? x.text = _ := Scope.declare?_ofNames rfl
  apply Runs.declare hsees hdeclare
  intro r1 hsees1
  apply Runs.modifyScope_last hsees1
  intro r2 hsees2
  exact hsees2

theorem runs_handlerName {binder : Option Name} {n : Nat} (hts : ts ≠ [])
    (hsees : r.Sees s (ahead (binder.toList.map Word.name) ts))
    (hnone : binder = none -> exists rest, ts = .mark .leftCurly :: rest) :
    Runs n (fun _ => handlerName) r fun name r' =>
      name = binder.map Name.text ∧ r'.Sees s ts := by
  cases binder with
  | some x =>
      apply Runs.decline hsees (by simp [Word.token])
      apply Runs.atName hsees
      refine Runs.expectName hsees ?_ hts
      intro r1 _ hsees1
      exact Runs.pure ⟨rfl, hsees1⟩
  | none =>
      rcases hnone rfl with ⟨rest, rfl⟩
      apply Runs.decline hsees (by simp)
      apply Runs.atName hsees
      exact Runs.pure ⟨rfl, hsees⟩

/-- The handler of a `try`, with or without a variable. -/
theorem readsBack_guarded {binder : Option Name} {handler : Phrase .block} (h : body.ReadsBack)
    (hh : handler.ReadsBack) : (guarded body binder handler).ReadsBack := by
  intro s names loop r u rest hscoped hsees
  rw [wellScoped, Bool.and_eq_true] at hscoped
  simp only [words, ahead_cons, ahead_append, ahead_nil] at hsees
  apply Runs.weaken (n := 8 * body.words.length + 8 * handler.words.length + 2 + 1 + 1 + 1)
  · apply runs_declaration hsees (by simp [Word.token]) (by simp [Word.token])
    apply Runs.spend (fun fuel => by rw [statement])
    apply Runs.current hsees
    refine Runs.advance hsees ?_ (ahead_ne_nil _ (by simp))
    intro r1 _ hsees1
    apply Runs.spend (fun fuel => by rw [tryStatement])
    apply Runs.scope hsees1
    apply Runs.bind ((h.runs_block hscoped.1 (by simp) hsees1).weaken (by lia))
    intro b r2 hb
    apply Runs.line
    refine Runs.expect hb.2 ?_ (ahead_ne_nil _ (ahead_ne_nil _ (by simp)))
    intro r3 _ hsees3
    apply Runs.modifyScope hsees3
    intro r4 hsees4
    rw [enter_inside] at hsees4
    apply Runs.bind (runs_handlerName (ahead_ne_nil _ (by simp)) hsees4 (fun _ => ⟨_, rfl⟩))
    rintro name r5 ⟨rfl, hsees5⟩
    cases binder with
    | some x =>
        apply Runs.bind (runs_declareSettled hsees5)
        intro _ r6 hsees6
        apply Runs.bind ((hh.runs_block hscoped.2 (by simp) hsees6).weaken (by lia))
        intro c r7 hc
        apply Runs.exitScope hc.2
        intro line r8 hsees8
        refine Runs.pure ⟨⟨b, r2.previous.start.line, c, line, ?_, hb.1, hc.1⟩, ?_⟩
        · rw [count_inside, size_inside]
          rfl
        · simpa [inside, after, Word.token] using hsees8
    | none =>
        apply Runs.line
        apply Runs.bind ((hh.runs_block hscoped.2 (by simp) hsees5).weaken (by lia))
        intro c r7 hc
        apply Runs.exitScope hc.2
        intro line r8 hsees8
        refine Runs.pure
          ⟨⟨b, r2.previous.start.line, r5.previous.start.line, c, line, ?_, hb.1, hc.1⟩, ?_⟩
        · rw [count_inside, size_inside]
          rfl
        · simpa [inside, after, Word.token] using hsees8
  · simp only [words, braced, List.length_cons, List.length_append, List.length_nil]
    lia

theorem readsBack_cond (h : body.ReadsBack) (ho : other.ReadsBack) :
    (cond c body other).ReadsBack := by
  intro s names loop r u rest hscoped hsees
  rw [wellScoped, Bool.and_eq_true] at hscoped
  simp only [words, ahead_cons, ahead_append, ahead_nil] at hsees
  apply Runs.weaken (n := 8 * (c.term.words ++ (braced body.words ++ other.words)).length +
    1 + 1)
  · apply runs_declaration hsees (by simp [Word.token]) (by simp [Word.token])
    apply Runs.spend (fun fuel => by rw [statement])
    apply Runs.current hsees
    refine Runs.advance hsees ?_ (ahead_ne_nil _ (ahead_ne_nil _ (ahead_ne_nil _ (by simp))))
    intro r1 _ hsees1
    exact h.runs_conditional ho hscoped.1 hscoped.2 (by simpa [Word.token] using hsees1)
  · simp only [words, List.length_cons, List.length_append, List.length_nil]
    lia

theorem readsBack_whileLoop (h : body.ReadsBack) : (whileLoop c body).ReadsBack := by
  intro s names loop r u rest hscoped hsees
  simp only [words, ahead_cons, ahead_append] at hsees
  apply Runs.weaken (n := 4 * c.term.words.length + 8 * body.words.length + 2 + 1 + 1)
  · apply runs_declaration hsees (by simp [Word.token]) (by simp [Word.token])
    apply Runs.spend (fun fuel => by rw [statement])
    apply Runs.current hsees
    refine Runs.advance hsees ?_ (ahead_ne_nil _ (by simp [braced]))
    intro r1 _ hsees1
    have hcond := Term.runs_term (c.term.settled_ofNames names) Token.ends_leftCurly hsees1
    apply Runs.bind (hcond.weaken (by lia))
    intro e r2 hread
    apply Runs.line
    apply Runs.inLoop hread.2
    · intro r3 hsees3
      have hbody : body.wellScoped ([] :: names) (some names.length).isSome = true := hscoped
      exact (h.runs_block hbody (by simp) hsees3).weaken (by lia)
    · intro b r3 hb hsees3
      apply Runs.line
      exact Runs.pure ⟨⟨e, _, b, _, rfl, hread.1, hb⟩, hsees3⟩
  · simp only [words, braced, List.length_cons, List.length_append, List.length_nil]
    lia

theorem readsBack_next {first : Phrase .statement} {rest : Phrase .block} (h : first.ReadsBack)
    (hrest : rest.ReadsBack) : (next first rest).ReadsBack := by
  intro s names loop inBlock r u ts hscoped hu hsees
  rw [wellScoped, Bool.and_eq_true] at hscoped
  rw [words, ahead_append] at hsees
  rcases first.exists_ahead_statement (ahead rest.words (u :: ts)) with
    ⟨v, ts', hv, hend, hcurly⟩
  have hw : exists u' ts', ahead rest.words (u :: ts) = u' :: ts' := by
    cases rest.words with
    | nil => exact ⟨u, ts, rfl⟩
    | cons w ws => exact ⟨_, _, rfl⟩
  rcases hw with ⟨u', ts'', hw⟩
  have hlength : 0 < first.words.length := first.length_words_pos
  apply Runs.weaken (n := 8 * first.words.length + 8 * rest.words.length + 1)
  · apply Runs.spend (fun fuel => by rw [declarations])
    apply Runs.current (hv ▸ hsees)
    simp only [beq_eq_false_iff_ne.mpr hend, beq_eq_false_iff_ne.mpr hcurly, Bool.and_false,
      Bool.or_self, Bool.false_eq_true, if_false]
    apply Runs.bind ((h hscoped.1 (hw ▸ hsees)).weaken (by lia))
    intro a r1 ha
    apply Runs.bind ((hrest hscoped.2 hu (hw ▸ ha.2)).weaken (by lia))
    intro b r2 hb
    exact Runs.pure ⟨⟨a, b, rfl, ha.1, hb.1⟩, hb.2⟩
  · simp only [words, List.length_append]
    lia

theorem readsBack_otherwise (h : body.ReadsBack) : (otherwise body).ReadsBack := by
  intro s names loop r rest e line b bodyLine hscoped hsees
  rw [words, ahead_cons] at hsees
  apply Runs.decline hsees (by simp [Word.token])
  refine Runs.accept hsees ?_ (ahead_ne_nil _ (by simp))
  intro r1 _ hsees1
  apply Runs.bind ((h.runs_block hscoped (by simp) hsees1).weaken _)
  · intro o r2 ho
    exact Runs.pure ⟨⟨o, rfl, ho.1⟩, ho.2⟩
  · simp only [words, braced, List.length_cons, List.length_append, List.length_nil]
    lia

theorem readsBack_elif (h : body.ReadsBack) (ho : other.ReadsBack) :
    (elif c body other).ReadsBack := by
  intro s names loop r rest e line b bodyLine hscoped hsees
  rw [wellScoped, Bool.and_eq_true] at hscoped
  rw [words, ahead_cons] at hsees
  refine Runs.accept hsees ?_ (ahead_ne_nil _ (by simp))
  intro r1 _ hsees1
  apply Runs.bind ((h.runs_conditional ho hscoped.1 hscoped.2 hsees1).weaken _)
  · intro o r2 ho
    exact Runs.pure ⟨⟨o, rfl, ho.1⟩, ho.2⟩
  · simp only [words, List.length_cons]
    lia

end Blocks

/-- The words of a phrase are read back as its tree. -/
theorem readsBack {p : Part} (c : Phrase p) : c.ReadsBack := by
  induction c with
  | declare x t => exact readsBack_declare x t
  | perform a => exact readsBack_perform a
  | echo t | throw t =>
      intro s names loop r u rest _ hsees
      rw [words, ahead_cons, ahead_append] at hsees
      apply Runs.weaken (n := 4 * t.term.words.length + 2 + 1 + 1)
      · apply runs_declaration hsees (by simp [Word.token]) (by simp [Word.token])
        apply Runs.spend (fun fuel => by rw [statement])
        apply Runs.current hsees
        refine Runs.advance hsees ?_ (ahead_ne_nil _ (by simp))
        intro r1 _ hsees1
        apply Runs.bind (Term.runs_term (t.term.settled_ofNames names) Token.ends_semicolon hsees1)
        intro e r2 hread
        apply Runs.line
        exact Runs.pure ⟨⟨e, _, rfl, hread.1⟩, hread.2⟩
      · simp only [words, List.length_cons, List.length_append, List.length_nil]
        lia
  | cond c body other ihbody ihother => exact readsBack_cond ihbody ihother
  | whileLoop c body ih => exact readsBack_whileLoop ih
  | forLoop x start c step body ih => exact readsBack_forLoop ih
  | leave | again =>
      intro s names loop r u rest hscoped hsees
      rcases Option.isSome_iff_exists.mp hscoped with ⟨depth, rfl⟩
      apply Runs.weaken (n := 1 + 1)
      · apply runs_declaration hsees (by simp [Word.token]) (by simp [Word.token])
        apply Runs.spend (fun fuel => by rw [statement])
        apply Runs.current hsees
        refine Runs.advance hsees ?_ (by simp)
        intro r1 _ hsees1
        apply Runs.loopLocals hsees1 rfl
        apply Runs.line
        exact Runs.pure ⟨⟨depth, _, rfl, by rw [← Scope.above_ofNames]; rfl⟩, hsees1⟩
      · simp [words]
  | guarded body binder handler ihbody ihhandler => exact readsBack_guarded ihbody ihhandler
  | done =>
      intro s names loop inBlock r u rest _ hu hsees
      apply Runs.spend (fun fuel => by rw [declarations])
      apply Runs.current hsees
      simp only [hu, if_true]
      exact Runs.pure ⟨rfl, hsees⟩
  | next first rest ihfirst ihrest => exact readsBack_next ihfirst ihrest
  | nothing =>
      intro s names loop r rest e line body bodyLine _ hsees
      apply Runs.decline hsees (by simp)
      apply Runs.decline hsees (by simp)
      exact Runs.pure ⟨⟨.skip, rfl, rfl⟩, hsees⟩
  | otherwise body ih => exact readsBack_otherwise ih
  | elif c body other ihbody ihother => exact readsBack_elif ihbody ihother

end Phrase
end StackScript
