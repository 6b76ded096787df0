import StackScript.Proofs.Compile
import StackScript.Proofs.Reading.Scripts

/-!
# The budget of reading

The functions of the reader call each other, and each of them gets a budget that is smaller by one.
Whatever the text, a budget that is linear in the number of its characters is never used up: on any
way from a function back to itself a token is consumed, and no function succeeds at the end of the
script without having found what it looks for.  A step that does not use up its budget does the
same with a larger one, so reading without a budget would come to an end with the same answer.
-/

namespace StackScript
namespace Parser

/-! ## Budgets that suffice -/

section Suffices

variable {α : Type} {n fuel more calls : Nat} {must back : Bool} {r : Reading}
  {G : Reading -> List Use -> List Spanned -> Prop} {x y : Parser α}

/-- From a reading, a step does not use up its budget and does the same with a larger one.  What it
gives and the number of tokens that then stand behind the one in front satisfy `P`. -/
structure SufficesFrom (r : Reading) (P : α -> Nat -> Prop) (x y : Parser α) : Prop where
  decided : x r ≠ .error .exhausted
  same : y r = x r
  leaves : forall a r', x r = .ok (a, r') -> r'.Ended ∧ P a r'.rest.length

/-- The budget of a step suffices if at most `n` tokens stand behind the one in front. -/
def Suffices (n : Nat) (P : α -> Nat -> Prop) (x y : Parser α) : Prop :=
  forall r : Reading, r.Ended -> r.rest.length <= n -> SufficesFrom r P x y

/-- There are no more uses than tokens in front of the last one. -/
theorem length_uses {uses : List Use} {p : Spot} (hr : r.Ended) (h : r.spot.Goes uses p) :
    uses.length + p.rest.length = r.rest.length := by
  obtain ⟨htokens, -⟩ := h.tokens_eq hr
  have hlength := congrArg List.length htokens
  rw [List.length_append, usedTokens, List.length_map] at hlength
  exact Nat.succ.inj hlength.symm

/-- A budget of eight calls for each token and of those that come on top is not used up. -/
theorem Proceeds.suffices {Q : Reading -> α -> Reading -> Prop}
    (h : forall r, Proceeds must (G r) fuel calls back r (Q r) x y) (hn : 8 * n + calls <= fuel) :
    Suffices n (fun _ k => k + must.toNat <= n) x y := by
  intro r hr hle
  have hdecided : x r ≠ .error .exhausted := by
    intro hexhausted
    obtain ⟨uses, p, hgoes, hlt⟩ := (h r).exhausts hexhausted
    have hlength := length_uses hr hgoes
    lia
  refine ⟨hdecided, (h r).same hdecided, fun a r' ha => ?_⟩
  obtain ⟨uses, hgoes, hsome, -, -⟩ := (h r).gives a r' ha
  have hlength := length_uses hr hgoes.goes
  refine ⟨(hgoes.goes.tokens_eq hr).2, ?_⟩
  have hrest : r'.spot.rest.length = r'.rest.length := rfl
  cases must with
  | false =>
      rw [Bool.toNat_false]
      lia
  | true =>
      have hpos := List.length_pos_iff.mpr (hsome rfl)
      rw [Bool.toNat_true]
      lia

theorem Proceeds.suffices_le {Q : Reading -> α -> Reading -> Prop}
    (h : forall r, Proceeds false (G r) fuel calls back r (Q r) x y) (hn : 8 * n + calls <= fuel) :
    Suffices n (fun _ k => k <= n) x y :=
  Proceeds.suffices h hn

theorem Proceeds.suffices_lt {Q : Reading -> α -> Reading -> Prop}
    (h : forall r, Proceeds true (G r) fuel calls back r (Q r) x y) (hn : 8 * n + calls <= fuel) :
    Suffices n (fun _ k => k < n) x y :=
  Proceeds.suffices h hn

end Suffices

/-- The budget of each function of the reader that suffices if at most `n` tokens stand behind the
one in front.  A token is worth eight calls.  The calls before a function consumes its first token
come on top, so a function that consumes one at once needs one more call than its tokens are worth,
and a function that calls another one before needs more than that. -/
structure Enough (fuel more : Nat) : Prop where
  expression : forall n p, 0 < p.rank -> 8 * n + 2 <= fuel ->
    Suffices n (fun _ k => k < n) (expression fuel p) (expression more p)
  operand : forall n b, 8 * n + 4 <= fuel ->
    Suffices n (fun _ k => k <= n) (operand fuel b) (operand more b)
  follow : forall n p b e, 0 < p.rank -> 8 * n + 1 <= fuel ->
    Suffices n (fun _ k => k <= n) (follow fuel p b e) (follow more p b e)
  continuation : forall n b e t, 8 * n + 4 <= fuel ->
    Suffices n (fun _ k => k <= n) (continuation fuel b e t) (continuation more b e t)
  name : forall n b s, 8 * n + 1 <= fuel ->
    Suffices n (fun _ k => k <= n) (name fuel b s) (name more b s)
  member : forall n b e, 8 * n + 1 <= fuel ->
    Suffices n (fun _ k => k <= n) (member fuel b e) (member more b e)
  square : forall n b e, 8 * n + 3 <= fuel ->
    Suffices n (fun _ k => k <= n) (square fuel b e) (square more b e)
  slice : forall n o i, 8 * n + 3 <= fuel ->
    Suffices n (fun _ k => k <= n) (slice fuel o i) (slice more o i)
  segments : forall n e, 8 * n + 3 <= fuel ->
    Suffices n (fun _ k => k <= n) (segments fuel e) (segments more e)
  items : forall n m, 8 * n + 3 <= fuel ->
    Suffices n (fun _ k => k <= n) (items fuel m) (items more m)
  entries : forall n, 8 * n + 1 <= fuel ->
    Suffices n (fun _ k => k <= n) (entries fuel) (entries more)
  builtin : forall n b, 8 * n + 1 <= fuel ->
    Suffices n (fun _ k => k <= n) (builtin fuel b) (builtin more b)
  function : forall n s, 8 * n + 1 <= fuel ->
    Suffices n (fun _ k => k <= n) (function fuel s) (function more s)
  declarations : forall n b, 8 * n + 5 <= fuel ->
    Suffices n (fun _ k => k <= n) (declarations fuel b) (declarations more b)
  declaration : forall n, 8 * n + 4 <= fuel ->
    Suffices n (fun _ k => k < n) (declaration fuel) (declaration more)
  letDeclaration : forall n, 8 * n + 1 <= fuel ->
    Suffices n (fun _ k => k <= n) (letDeclaration fuel) (letDeclaration more)
  functionDeclaration : forall n, 8 * n + 1 <= fuel ->
    Suffices n (fun _ k => k <= n) (functionDeclaration fuel) (functionDeclaration more)
  statement : forall n, 8 * n + 3 <= fuel ->
    Suffices n (fun _ k => k < n) (statement fuel) (statement more)
  block : forall n, 8 * n + 1 <= fuel ->
    Suffices n (fun _ k => k <= n) (block fuel) (block more)
  conditional : forall n, 8 * n + 3 <= fuel ->
    Suffices n (fun _ k => k <= n) (conditional fuel) (conditional more)
  steppingLoop : forall n, 8 * n + 2 <= fuel ->
    Suffices n (fun _ k => k <= n) (steppingLoop fuel) (steppingLoop more)
  collectionLoop : forall n, 8 * n + 1 <= fuel ->
    Suffices n (fun _ k => k <= n) (collectionLoop fuel) (collectionLoop more)
  tryStatement : forall n, 8 * n + 2 <= fuel ->
    Suffices n (fun _ k => k <= n) (tryStatement fuel) (tryStatement more)
  returnStatement : forall n, 8 * n + 3 <= fuel ->
    Suffices n (fun _ k => k <= n) (returnStatement fuel) (returnStatement more)

theorem enough {fuel more : Nat} (hmore : fuel <= more) : Enough fuel more :=
  have h := reader hmore
  { expression := fun _ p hp => Proceeds.suffices_lt fun r => h.expression true r p hp
    operand := fun _ b => Proceeds.suffices_le fun r => h.operand r b
    follow := fun _ p b e hp => Proceeds.suffices_le fun r => h.follow r p b e hp
    continuation := fun _ b e t => Proceeds.suffices_le fun r => h.continuation r b e t
    name := fun _ b s => Proceeds.suffices_le fun r => h.name r b s
    member := fun _ b e => Proceeds.suffices_le fun r => h.member r b e
    square := fun _ b e => Proceeds.suffices_le fun r => h.square r b e
    slice := fun _ o i => Proceeds.suffices_le fun r => h.slice r o i
    segments := fun _ e => Proceeds.suffices_le fun r => h.segments r e
    items := fun _ m => Proceeds.suffices_le fun r => h.items r m
    entries := fun _ => Proceeds.suffices_le h.entries
    builtin := fun _ b => Proceeds.suffices_le fun r => h.builtin r b
    function := fun _ s => Proceeds.suffices_le fun r => h.function r s
    declarations := fun _ b => Proceeds.suffices_le fun r => h.declarations true r b
    declaration := fun _ => Proceeds.suffices_lt (h.declaration true)
    letDeclaration := fun _ => Proceeds.suffices_le h.letDeclaration
    functionDeclaration := fun _ => Proceeds.suffices_le h.functionDeclaration
    statement := fun _ => Proceeds.suffices_lt (h.statement true)
    block := fun _ => Proceeds.suffices_le h.block
    conditional := fun _ => Proceeds.suffices_le h.conditional
    steppingLoop := fun _ => Proceeds.suffices_le h.steppingLoop
    collectionLoop := fun _ => Proceeds.suffices_le h.collectionLoop
    tryStatement := fun _ => Proceeds.suffices_le h.tryStatement
    returnStatement := fun _ => Proceeds.suffices_le h.returnStatement }

/-! ## Whole scripts -/

/-- A budget that is linear in the number of tokens is not used up, and no larger one changes the
answer. -/
theorem script_decided {ts : List Spanned} {failure : Option LexError} (h : Closed ts failure)
    (base : Nat) {fuel : Nat} (hfuel : budget ts.length <= fuel) :
    script fuel (start base ts failure) = script (budget ts.length) (start base ts failure) ∧
      script (budget ts.length) (start base ts failure) ≠ .error .exhausted := by
  cases ts with
  | nil =>
      cases failure with
      | none =>
          rcases h rfl with ⟨words, last, hlast, -⟩
          exact absurd hlast (by simp)
      | some e => exact ⟨rfl, by rw [script_nil]; simp⟩
  | cons t rest =>
      have hn : 8 * rest.length + 5 <= budget (t :: rest).length := by
        simp only [budget, List.length_cons]
        lia
      rw [script_cons, script_cons]
      have hbody := Proceeds.suffices (body_proceeds hfuel true) hn (begun base t rest failure)
        h.begun (Nat.le_refl _)
      exact ⟨hbody.same, hbody.decided⟩

end Parser

/-! ## Any text -/

/-- A token takes up at least one character. -/
theorem Cursor.Scans.length_le {c : Cursor} {ts : List Spanned} {e : Option LexError}
    (h : c.Scans ts e) : ts.length <= c.rest.length + 1 := by
  induction h with
  | ended => simp
  | failed => exact Nat.zero_le _
  | @token c first rest l ts e hrest hl hscans ih =>
      have hgap : c.skipGap.rest.length <= c.rest.length := by
        rw [skipGap, length_advance_rest]
        exact Nat.sub_le _ _
      have hpast : (c.skipGap.past l).rest.length = c.skipGap.rest.length - l.size :=
        length_advance_rest _ _
      have hsize := Lexer.lexeme_size_pos hl
      have hsome : 0 < c.skipGap.rest.length := by simp [hrest]
      rw [List.length_cons]
      lia

theorem tokenize_length_le (source : String) :
    (tokenize source).1.length <= source.length + 1 := by
  have hle := (scans_tokenize source).length_le
  rwa [show (Cursor.ofSource source).rest.length = source.length from String.length_toList] at hle

/-- Any text is compiled, or it is refused for a fault of its characters or of its tokens.  It has
at most one token for each character and one for its end, and a budget of eight calls for each
character and twenty-four more is never used up: reading with it or with any larger budget gives
the same answer.  So it is for each function of the reader, from any place of a text. -/
theorem compile_comes_to_an_end (base : Nat) (name : Option String) (source : String) :
    (tokenize source).1.length <= source.length + 1 ∧
    Parser.Closed (tokenize source).1 (tokenize source).2 ∧
    parse base source ≠ .error .exhausted ∧
    (forall fuel, 8 * (source.length + 3) <= fuel ->
      (Parser.script fuel
        (Parser.start base (tokenize source).1 (tokenize source).2)).map Prod.fst =
          parse base source) ∧
    (forall fuel more, fuel <= more -> Parser.Enough fuel more) ∧
    ((exists p, compile base name source = .ok p) ∨
      (exists e, compile base name source = .error (.lex e)) ∨
      exists d, compile base name source = .error (.rejected d)) := by
  have hfew := tokenize_length_le source
  have hclosed := Parser.tokenize_closed source
  have hdecided (fuel : Nat) (hfuel : Parser.budget (tokenize source).1.length <= fuel) :=
    Parser.script_decided hclosed base hfuel
  have hends : parse base source ≠ .error .exhausted := by
    rw [parse_eq]
    intro h
    refine (hdecided _ (Nat.le_refl _)).2 ?_
    cases hrun : Parser.script (Parser.budget (tokenize source).1.length)
        (Parser.start base (tokenize source).1 (tokenize source).2) with
    | ok p =>
        rw [hrun] at h
        cases h
    | error e =>
        rw [hrun] at h
        cases h
        rfl
  refine ⟨hfew, hclosed, hends, fun fuel hfuel => ?_, fun _ _ => Parser.enough, ?_⟩
  · have hbudget : Parser.budget (tokenize source).1.length <= fuel := by
      unfold Parser.budget
      lia
    rw [parse_eq, (hdecided fuel hbudget).1]
  · unfold compile
    cases hparse : parse base source with
    | ok s => exact .inl ⟨_, rfl⟩
    | error e =>
        cases e with
        | lex e => exact .inr (.inl ⟨e, rfl⟩)
        | fault f p => exact .inr (.inr ⟨_, rfl⟩)
        | exhausted => exact absurd hparse hends

end StackScript
