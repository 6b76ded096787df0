import StackScript.Proofs.Reading.Course

/-!
# The course of the reader

How each function of the reader proceeds.  The functions call each other with a budget that shrinks,
so this goes by induction on the budget.  A function that goes on with an expression does so
wherever that expression began.
-/

namespace StackScript

/-- An expression that ends at the first reading goes on as the other one up to the second. -/
def Reading.Extends (r : Reading) (e e' : Expr) (r' : Reading) : Prop :=
  forall r0 : Reading, r0.Spells (.expr e) r -> r0.Spells (.expr e') r'

namespace Parser

/-- How the reader proceeds with a budget and, in the same way, with a larger one. -/
structure Reader (fuel more : Nat) : Prop where
  expression : forall back (r : Reading) p, 0 < p.rank ->
    Proceeds true Taken fuel 2 back r (fun e => r.Spells (.expr e)) (expression fuel p)
      (expression more p)
  operand : forall (r : Reading) b,
    Proceeds false (fun uses behind => Taken (⟨r.previous, false⟩ :: uses) behind) fuel 4 true r
      (fun e => r.Spells (.expr e)) (operand fuel b) (operand more b)
  follow : forall (r : Reading) p b e, 0 < p.rank ->
    Proceeds false Taken fuel 1 true r (r.Extends e) (follow fuel p b e) (follow more p b e)
  continuation : forall (r : Reading) b e t,
    Proceeds false Taken fuel 4 true r (r.Extends e) (continuation fuel b e t)
      (continuation more b e t)
  name : forall (r : Reading) b s,
    Proceeds false Taken fuel 1 true r
      (fun e r' => r.previous.token = .name s -> r.Spells (.expr e) r') (name fuel b s)
      (name more b s)
  member : forall (r : Reading) b e,
    Proceeds false Taken fuel 1 true r (r.Extends e) (member fuel b e) (member more b e)
  square : forall (r : Reading) b e,
    Proceeds false Taken fuel 3 true r (r.Extends e) (square fuel b e) (square more b e)
  slice : forall (r : Reading) e i,
    Proceeds false Taken fuel 3 true r
      (fun e' r' => forall r1 : Reading, r1.Spells (.expr i) r -> r1.Extends e e' r')
      (slice fuel e i) (slice more e i)
  segments : forall (r : Reading) e,
    Proceeds false Continued fuel 3 true r (r.Extends e) (segments fuel e) (segments more e)
  items : forall (r : Reading) m,
    Proceeds false Taken fuel 3 true r (fun es => r.Spells (.exprs es)) (items fuel m)
      (items more m)
  entries : forall r : Reading,
    Proceeds false Taken fuel 1 true r (fun es r' => r.Spells (.exprs es) r' ∧ es.length % 2 = 0)
      (entries fuel) (entries more)
  builtin : forall (r : Reading) b,
    Proceeds false Taken fuel 1 true r (fun e => r.Spells (.expr e)) (builtin fuel b)
      (builtin more b)
  function : forall (r : Reading) s,
    Proceeds false Taken fuel 1 true r
      (fun e r' => exists id, e = .function id r'.line ∧ r.Spells (.function id) r')
      (function fuel s) (function more s)
  declarations : forall back (r : Reading) b,
    Proceeds false Taken fuel 5 back r (fun s => r.Spells (.declaration s)) (declarations fuel b)
      (declarations more b)
  declaration : forall back (r : Reading),
    Proceeds true Taken fuel 4 back r (fun s => r.Spells (.declaration s)) (declaration fuel)
      (declaration more)
  letDeclaration : forall r : Reading,
    Proceeds false Taken fuel 1 true r (fun s => r.Spells (.declaration s)) (letDeclaration fuel)
      (letDeclaration more)
  functionDeclaration : forall r : Reading,
    Proceeds false Taken fuel 1 true r (fun s => r.Spells (.declaration s))
      (functionDeclaration fuel) (functionDeclaration more)
  statement : forall back (r : Reading),
    Proceeds true Taken fuel 3 back r (fun s => r.Spells (.statement s)) (statement fuel)
      (statement more)
  block : forall r : Reading,
    Proceeds false Taken fuel 1 true r (fun s => r.Spells (.statement s)) (block fuel) (block more)
  conditional : forall r : Reading,
    Proceeds false Taken fuel 3 true r (fun s => r.Spells (.statement s)) (conditional fuel)
      (conditional more)
  steppingLoop : forall r : Reading,
    Proceeds false Taken fuel 2 true r (fun s => r.Spells (.loop s)) (steppingLoop fuel)
      (steppingLoop more)
  collectionLoop : forall r : Reading,
    Proceeds false Taken fuel 1 true r (fun s => r.Spells (.loop s)) (collectionLoop fuel)
      (collectionLoop more)
  tryStatement : forall r : Reading,
    Proceeds false Taken fuel 2 true r (fun s => r.Spells (.statement s)) (tryStatement fuel)
      (tryStatement more)
  returnStatement : forall r : Reading,
    Proceeds false Taken fuel 3 true r (fun s => r.Spells (.statement s)) (returnStatement fuel)
      (returnStatement more)

section Expressions

variable {α : Type} {must : Bool} {fuel more calls : Nat} {back : Bool} {r : Reading}
  {G : List Use -> List Spanned -> Prop} {Q : α -> Reading -> Prop}

/-- An expression that stands between other things. -/
theorem Reader.value (ih : Reader fuel more) (h : 2 < calls) :
    Proceeds true Taken (fuel + 1) calls back r (fun e => r.Spells (.expr e))
      (Parser.expression fuel .assign) (Parser.expression more .assign) :=
  (ih.expression _ r .assign (by decide)).call h

/-- Behind the end of the script stands no expression. -/
theorem proceeds_expression_end (hend : r.current.token = .endOfFile) (hmore : fuel <= more)
    (b : Bool) (f g : Expr -> Parser α) :
    Proceeds must G (fuel + 1) 2 back r Q (advance >>= fun _ => operand fuel b >>= f)
      (advance >>= fun _ => operand more b >>= g) := by
  have hfails (n : Nat) (k : Expr -> Parser α) (r1 : Reading) (h1 : r1.previous = r.current) :
      (operand (n + 1) b >>= k) r1 =
        .error (.fault (.expectedExpression .endOfFile) r.current.start) := by
    have hprevious : previous r1 = .ok (r.current.token, r1) := by
      rw [← h1]
      rfl
    refine bind_of_error ((bind_of_ok hprevious).trans ?_)
    rw [hend, ← h1]
    rfl
  match fuel, more, hmore with
  | fuel + 1, more + 1, _ => exact proceeds_ended hend (hfails fuel f) (hfails more g)
  | 0, more, _ =>
      cases hadvance : advance r with
      | error e =>
          obtain ⟨l, rfl⟩ := lex_of_advance hadvance
          exact proceeds_of_lex (bind_of_error hadvance) (bind_of_error hadvance)
      | ok result => exact proceeds_of_exhausted (bind_of_ok hadvance) (by decide)

/-- An expression is no target of an assignment. -/
theorem proceeds_target {b : Bool} {e : α} (h : Q e r) :
    Proceeds false Taken fuel calls back r Q
      (do
        let t ← current
        if b && (t == .mark .assign || t.compound?.isSome) then
          failHere .invalidTarget
        else
          return e)
      (do
        let t ← current
        if b && (t == .mark .assign || t.compound?.isSome) then
          failHere .invalidTarget
        else
          return e) :=
  proceeds_current (fun _ _ => .inl rfl)
    (Proceeds.ite (fun _ => proceeds_failHere _) fun _ => proceeds_pure h)

theorem expression_proceeds (ih : Reader fuel more) (hmore : fuel <= more) (back : Bool)
    (r : Reading) (p : Precedence) (hp : 0 < p.rank) :
    Proceeds true Taken (fuel + 1) 2 back r (fun e => r.Spells (.expr e))
      (expression (fuel + 1) p) (expression (more + 1) p) := by
  by_cases hend : r.current.token = .endOfFile
  · exact proceeds_expression_end hend hmore _ _ _
  refine proceeds_begin hend fun r1 h1 => ?_
  have hoperand := (ih.operand r1 (p.rank <= Precedence.assign.rank)).call (show 4 < 10 by decide)
  refine hoperand.bindOf (fun e r2 _ h2 => ((ih.follow r2 p _ e hp).call (by decide)).bind
    fun e' r3 h3 => proceeds_target (.ahead h1.steps (h3 r1 h2))) ?_ .inl (Nat.le_refl _)
  intro uses uses' behind huses huses'
  exact huses.append rfl huses'

/-- The uses behind a token that is no first part of a string. -/
theorem Proceeds.behind {x y : Parser α} (h : Proceeds must Taken fuel calls back r Q x y)
    (ht : r.previous.token.part ≠ .first) :
    Proceeds must (fun uses behind => Taken (⟨r.previous, false⟩ :: uses) behind) fuel calls back r
      Q x y := by
  refine h.uses fun uses behind huses => ?_
  cases hp : r.previous.token.part with
  | whole => exact .plain hp huses
  | first => exact absurd hp ht
  | middle => exact .stray (.inl hp) huses
  | last => exact .stray (.inr hp) huses

theorem operand_proceeds (ih : Reader fuel more) (r : Reading) (b : Bool) :
    Proceeds false (fun uses behind => Taken (⟨r.previous, false⟩ :: uses) behind) (fuel + 1) 4
      true r (fun e => r.Spells (.expr e)) (operand (fuel + 1) b) (operand (more + 1) b) := by
  have hunary (op : UnaryOp) (p : Precedence) (hp : 0 < p.rank) :
      Proceeds false Taken (fuel + 1) 4 true r (fun e => r.Spells (.expr e))
        (do return .unary op (← Parser.expression fuel p) (← line))
        (do return .unary op (← Parser.expression more p) (← line)) :=
    ((ih.expression _ r p hp).call (by decide)).past fun a r1 h1 => proceeds_lineThen (.unary op h1)
  refine proceeds_previous (fun s part => ?_) ?_
  · cases part with
    | first => exact .inr (.inr rfl)
    | _ => exact .inl rfl
  by_cases hpart : r.previous.token.part = .first
  · obtain ⟨s, hs⟩ : exists s, r.previous.token = .text s .first := by
      cases ht : r.previous.token with
      | text s part =>
          rw [ht] at hpart
          exact ⟨s, congrArg (Token.text s) hpart⟩
      | _ =>
          rw [ht] at hpart
          cases hpart
    rw [hs]
    have hsegments := ((ih.segments r (.text s r.line)).call (show 3 < 4 by decide)).imp
      fun e r1 h1 => h1 r (.text s)
    refine proceeds_line (hsegments.uses fun uses behind huses => ?_)
    have hstring : Taken (⟨r.previous, false⟩ :: (uses ++ [])) behind := .string hpart huses .nil
    rwa [List.append_nil] at hstring
  refine Proceeds.behind ?_ hpart
  cases ht : r.previous.token with
  | integer n => exact proceeds_lineThen (.literal (.int n))
  | float x => exact proceeds_lineThen (.literal (.float x))
  | text s part =>
      cases part with
      | first => exact absurd (congrArg Token.part ht) hpart
      | _ => exact proceeds_lineThen (.text s)
  | name s => exact ((ih.name r b s).imp fun e r1 h1 => h1 ht).call (by decide)
  | builtin f => exact (ih.builtin r f).call (by decide)
  | keyword k =>
      cases k with
      | true_ => exact proceeds_lineThen (.literal (.bool true))
      | false_ => exact proceeds_lineThen (.literal (.bool false))
      | none => exact proceeds_lineThen (.literal .none)
      | function =>
          refine ((ih.function r _).imp fun e r1 h1 => ?_).call (by decide)
          obtain ⟨id, rfl, hid⟩ := h1
          exact .closure hid
      | not => exact hunary _ _ (by decide)
      | _ => exact proceeds_failBefore _
  | mark m =>
      cases m with
      | leftParen =>
          refine (ih.value (by decide)).past fun e r1 h1 => ?_
          exact (proceeds_expect (by trivial)).past fun _ r2 h2 =>
            proceeds_pure (.behind h1 h2.steps)
      | leftSquare =>
          refine ((ih.items r _).call (by decide)).bind fun es r1 h1 => ?_
          exact (proceeds_expect (by trivial)).past fun _ r2 h2 =>
            proceeds_lineThen (.array (.behind h1 h2.steps))
      | leftCurly =>
          refine ((ih.entries r).call (by decide)).bind fun es r1 ⟨h1, heven⟩ => ?_
          exact (proceeds_expect (by trivial)).past fun _ r2 h2 =>
            proceeds_lineThen (.table (.behind h1 h2.steps) heven)
      | bitNot => exact hunary _ _ (by decide)
      | _ => exact proceeds_failBefore _
  | operator op =>
      cases op with
      | subtract => exact hunary _ _ (by decide)
      | _ => exact proceeds_failBefore _
  | _ => exact proceeds_failBefore _

theorem part_of_follows {t : Token} (h : 0 < t.rule.precedence.rank) : t.part = .whole := by
  cases t with
  | text s part => cases h
  | _ => rfl

theorem ne_endOfFile_of_follows {t : Token} (h : 0 < t.rule.precedence.rank) :
    t ≠ .endOfFile := by
  intro hend
  rw [hend] at h
  cases h

theorem follow_proceeds (ih : Reader fuel more) (r : Reading) (p : Precedence) (b : Bool)
    (e : Expr) (hp : 0 < p.rank) :
    Proceeds false Taken (fuel + 1) 1 true r (r.Extends e) (follow (fuel + 1) p b e)
      (follow (more + 1) p b e) := by
  refine proceeds_current (fun s part => .inl ?_) (Proceeds.ite (fun hc => ?_) fun _ => ?_)
  · have hloose (part : TextPart) : ¬ p.rank <= (Token.text s part).rule.precedence.rank :=
      Nat.not_le_of_lt hp
    rw [if_neg (hloose _), if_neg (hloose _)]
  · have hfollows := Nat.lt_of_lt_of_le hp hc
    refine proceeds_pass (part_of_follows hfollows) (ne_endOfFile_of_follows hfollows)
      fun r1 h1 => ?_
    refine ((ih.continuation r1 b e _).call (by decide)).bind fun e' r2 h2 => ?_
    refine ((ih.follow r2 p b e' hp).imp fun e'' r3 h3 r0 he => ?_).call (by decide)
    exact h3 r0 (h2 r0 (.behind he h1.steps))
  · exact proceeds_pure fun r0 he => he

theorem rank_next_pos (p : Precedence) : 0 < p.next.rank := by
  cases p <;> decide

theorem continuation_proceeds (ih : Reader fuel more) (r : Reading) (b : Bool) (e : Expr)
    (t : Token) :
    Proceeds false Taken (fuel + 1) 4 true r (r.Extends e) (continuation (fuel + 1) b e t)
      (continuation (more + 1) b e t) := by
  unfold continuation
  split
  · refine ((ih.expression _ r _ (rank_next_pos _)).call (by decide)).past fun a r1 h1 => ?_
    exact proceeds_lineThen fun r0 he => .binary _ he h1
  · refine ((ih.expression _ r _ (rank_next_pos _)).call (by decide)).past fun a r1 h1 => ?_
    exact proceeds_lineThen fun r0 he => .binary _ he h1
  · refine proceeds_line (((ih.expression _ r .and (by decide)).call (by decide)).past ?_)
    exact fun a r1 h1 => proceeds_pure fun r0 he => .connect .and he h1
  · refine proceeds_line (((ih.expression _ r .or (by decide)).call (by decide)).past ?_)
    exact fun a r1 h1 => proceeds_pure fun r0 he => .connect .or he h1
  · refine ((ih.items r _).call (by decide)).bind fun es r1 h1 => ?_
    exact (proceeds_expect (by trivial)).past fun _ r2 h2 =>
      proceeds_lineThen fun r0 he => .call he (.behind h1 h2.steps)
  · exact (ih.member r b e).call (by decide)
  · exact (ih.square r b e).call (by decide)
  · exact proceeds_pure fun r0 he => he

/-- An assignment, a compound one, or neither. -/
theorem proceeds_assignment (ih : Reader fuel more) (b : Bool) {f : Expr -> Nat -> Expr}
    {g : Operator -> Nat -> Expr -> Nat -> Expr} {h : Nat -> Expr} {Q : Expr -> Reading -> Prop}
    (hf : forall r1 a r', r.Steps r1 -> r1.Spells (.expr a) r' -> Q (f a r'.line) r')
    (hg : forall r1 op a r', r.Steps r1 -> r1.Spells (.expr a) r' ->
      Q (g op r1.line a r'.line) r')
    (hh : Q (h r.line) r) :
    Proceeds false Taken (fuel + 1) calls back r Q
      (do
        if b && (← current) == .mark .assign then
          advance
          return f (← expression fuel .assign) (← line)
        else
          match ← compound? b with
          | some op =>
            let opLine ← line
            return g op opLine (← expression fuel .assign) (← line)
          | none => return h (← line))
      (do
        if b && (← current) == .mark .assign then
          advance
          return f (← expression more .assign) (← line)
        else
          match ← compound? b with
          | some op =>
            let opLine ← line
            return g op opLine (← expression more .assign) (← line)
          | none => return h (← line)) := by
  refine proceeds_current (fun _ _ => .inl rfl) (Proceeds.ite (fun hc => ?_) fun _ => ?_)
  · have hmark : r.current.token = .mark .assign := by
      rw [Bool.and_eq_true, beq_iff_eq] at hc
      exact hc.2
    refine proceeds_pass (by rw [hmark]; rfl) (by rw [hmark]; nofun) fun r1 h1 => ?_
    exact (ih.value (by lia)).past fun a r2 h2 => proceeds_lineThen (hf r1 a r2 h1.steps h2)
  · refine proceeds_compound? (fun op r1 h1 => proceeds_line ?_) (proceeds_lineThen hh)
    exact (ih.value (by lia)).past fun a r2 h2 => proceeds_lineThen (hg r1 op a r2 h1.steps h2)

theorem name_proceeds (ih : Reader fuel more) (r : Reading) (b : Bool) (s : String) :
    Proceeds false Taken (fuel + 1) 1 true r
      (fun e r' => r.previous.token = .name s -> r.Spells (.expr e) r') (name (fuel + 1) b s)
      (name (more + 1) b s) := by
  refine proceeds_resolve fun v hv => proceeds_assignment ih b ?_ ?_ ?_
  · intro r1 a r' h1 ha hs
    exact .assign hs hv (.ahead h1 ha)
  · intro r1 op a r' h1 ha hs
    exact .update op hs hv h1 ha
  · exact fun hs => .read hs hv

theorem member_proceeds (ih : Reader fuel more) (r : Reading) (b : Bool) (e : Expr) :
    Proceeds false Taken (fuel + 1) 1 true r (r.Extends e) (member (fuel + 1) b e)
      (member (more + 1) b e) := by
  refine proceeds_expectName.past fun key r1 h1 => proceeds_assignment ih b ?_ ?_ ?_
  · intro r2 a r' h2 ha r0 he
    exact .setProperty key (.behind he h1.steps) (.ahead h2 ha)
  · intro r2 op a r' h2 ha r0 he
    exact .updateProperty key op (.behind he (h1.steps.trans h2)) ha
  · exact fun r0 he => .property key (.behind he h1.steps)

theorem square_proceeds (ih : Reader fuel more) (r : Reading) (b : Bool) (e : Expr) :
    Proceeds false Taken (fuel + 1) 3 true r (r.Extends e) (square (fuel + 1) b e)
      (square (more + 1) b e) := by
  refine proceeds_accept trivial (fun r1 h1 => proceeds_line ?_) ?_
  · refine ((ih.slice r1 e _).imp fun e' r2 h2 r0 he => ?_).call (by decide)
    exact h2 r1 (.literal (.int 0)) r0 (.behind he h1.steps)
  refine (ih.value (by decide)).past fun i r1 h1 => ?_
  refine proceeds_accept trivial (fun r2 h2 => ?_) ?_
  · refine ((ih.slice r2 e i).imp fun e' r3 h3 r0 he => ?_).call (by decide)
    exact h3 r (.behind h1 h2.steps) r0 he
  refine (proceeds_expect (by trivial)).past fun _ r2 h2 => ?_
  have hindex : r.Spells (.expr i) r2 := .behind h1 h2.steps
  refine proceeds_assignment ih b ?_ ?_ ?_
  · intro r3 a r' h3 ha r0 he
    exact .ternary .set he hindex (.ahead h3 ha)
  · intro r3 op a r' h3 ha r0 he
    exact .updateItem op he (.behind hindex h3) ha
  · exact fun r0 he => .binary .get he hindex

theorem slice_proceeds (ih : Reader fuel more) (r : Reading) (e i : Expr) :
    Proceeds false Taken (fuel + 1) 3 true r
      (fun e' r' => forall r1 : Reading, r1.Spells (.expr i) r -> r1.Extends e e' r')
      (slice (fuel + 1) e i) (slice (more + 1) e i) := by
  have hclose (n : Nat) {a : Expr} {r2 : Reading} (ha : r.Spells (.expr a) r2) :
      Proceeds false Taken (fuel + 1) n true r2
        (fun e' r' => forall r1 : Reading, r1.Spells (.expr i) r -> r1.Extends e e' r')
        (do
          expect (.mark .rightSquare) "Expected `]` after slice"
          return .ternary .slice e i a (← line))
        (do
          expect (.mark .rightSquare) "Expected `]` after slice"
          return .ternary .slice e i a (← line)) :=
    (proceeds_expect (by trivial)).past fun _ r3 h3 =>
      proceeds_lineThen fun r1 hi r0 he => .ternary .slice he hi (.behind ha h3.steps)
  refine proceeds_at? trivial (Proceeds.ite (fun _ => ?_) fun _ => ?_)
  · exact proceeds_line (hclose _ (.literal .none))
  · exact (ih.value (by decide)).past fun a r2 h2 => hclose _ h2

theorem items_proceeds (ih : Reader fuel more) (r : Reading) (m : Mark) :
    Proceeds false Taken (fuel + 1) 3 true r (fun es => r.Spells (.exprs es))
      (items (fuel + 1) m) (items (more + 1) m) := by
  refine proceeds_at? trivial (Proceeds.ite (fun _ => proceeds_pure .nil) fun _ => ?_)
  refine (ih.value (by decide)).past fun e r1 h1 => ?_
  refine proceeds_accept trivial (fun r2 h2 => ?_) (proceeds_pure (.cons h1 .nil))
  refine ((ih.items r2 m).call (by decide)).bind fun es r3 h3 => proceeds_pure ?_
  exact .cons h1 (.ahead h2.steps h3)

theorem entries_proceeds (ih : Reader fuel more) (r : Reading) :
    Proceeds false Taken (fuel + 1) 1 true r
      (fun es r' => r.Spells (.exprs es) r' ∧ es.length % 2 = 0) (entries (fuel + 1))
      (entries (more + 1)) := by
  refine proceeds_at? trivial (Proceeds.ite (fun _ => proceeds_pure ⟨.nil, rfl⟩) fun _ => ?_)
  refine proceeds_key.past fun key r1 h1 => proceeds_line ?_
  refine (proceeds_expect (by trivial)).past fun _ r2 h2 => ?_
  have hkey : r.Spells (.expr (.text key r1.line)) r2 :=
    .ahead h1.steps (.behind (.text key) h2.steps)
  refine (ih.value (by decide)).past fun e r3 h3 => ?_
  refine proceeds_accept trivial (fun r4 h4 => ?_) (proceeds_pure ?_)
  · refine ((ih.entries r4).call (by decide)).bind fun es r5 ⟨h5, heven⟩ => proceeds_pure ⟨?_, ?_⟩
    · exact .cons hkey (.cons h3 (.ahead h4.steps h5))
    · rw [List.length_cons, List.length_cons]
      lia
  · exact ⟨.cons hkey (.cons h3 .nil), Nat.mod_self 2⟩

theorem builtin_proceeds (ih : Reader fuel more) (r : Reading) (b : Builtin) :
    Proceeds false Taken (fuel + 1) 1 true r (fun e => r.Spells (.expr e)) (builtin (fuel + 1) b)
      (builtin (more + 1) b) := by
  unfold builtin
  refine (proceeds_expect (by trivial)).past fun _ r1 h1 => ?_
  split
  · refine (ih.value (by decide)).past fun x r2 h2 => ?_
    refine (proceeds_expect (by trivial)).past fun _ r3 h3 => ?_
    exact proceeds_lineThen (.ahead h1.steps (.unary _ (.behind h2 h3.steps)))
  · refine (ih.value (by decide)).past fun x r2 h2 => ?_
    refine (proceeds_expect (by trivial)).past fun _ r3 h3 => ?_
    refine (ih.value (by decide)).past fun y r4 h4 => ?_
    refine (proceeds_expect (by trivial)).past fun _ r5 h5 => ?_
    exact proceeds_lineThen
      (.ahead h1.steps (.binary _ (.behind h2 h3.steps) (.behind h4 h5.steps)))
  · refine (ih.value (by decide)).past fun x r2 h2 => ?_
    refine (proceeds_expect (by trivial)).past fun _ r3 h3 => ?_
    refine (ih.value (by decide)).past fun y r4 h4 => ?_
    refine (proceeds_expect (by trivial)).past fun _ r5 h5 => ?_
    refine (ih.value (by decide)).past fun z r6 h6 => ?_
    refine (proceeds_expect (by trivial)).past fun _ r7 h7 => ?_
    exact proceeds_lineThen (.ahead h1.steps
      (.ternary _ (.behind h2 h3.steps) (.behind h4 h5.steps) (.behind h6 h7.steps)))

/-! ### The loop of a string -/

/-- An expression has been read between the tokens of its uses. -/
theorem Proceeds.reads {Q : Expr -> Reading -> Prop} {n m : Nat}
    (h : Proceeds true Taken fuel calls back r Q (expression n .assign) (expression m .assign)) :
    Proceeds true (fun uses behind => uses ≠ [] ∧ Taken uses behind ∧
      Reads (usedTokens uses ++ behind) behind) fuel calls back r Q (expression n .assign)
      (expression m .assign) where
  gives a r' ha := by
    obtain ⟨uses, hgoes, hsome, htaken, hQ⟩ := h.gives a r' ha
    refine ⟨uses, hgoes, hsome, fun hr => ⟨hsome rfl, htaken hr, ?_⟩, hQ⟩
    exact ⟨n, r, a, r', ha, (hgoes.goes.tokens_eq hr).1, rfl⟩
  stops := h.stops
  same := h.same
  exhausts := h.exhausts

/-- The uses from a part on: the loop takes it and goes on, or it is the last one. -/
inductive FromPart : List Use -> List Spanned -> Prop where
  | last {t : Spanned} {behind : List Spanned} : t.token.part = .last ->
      FromPart [⟨t, true⟩] behind
  | middle {t : Spanned} {rest : List Use} {behind : List Spanned} : t.token.part = .middle ->
      Continued rest behind -> FromPart (⟨t, true⟩ :: rest) behind

theorem glue_extends (e : Expr) {r1 : Reading} (h : r.Steps r1) (s : String) :
    r.Extends e (glue e s r1.line) r1 := by
  intro r0 he
  unfold glue
  split
  · exact .behind he h
  · exact .binary (.arith .add) (.behind he h) (.text s)

/-- What stands behind an interpolation decides how the loop goes on. -/
theorem proceeds_part (ih : Reader fuel more) (r : Reading) (e : Expr) :
    Proceeds false FromPart (fuel + 1) calls back r (r.Extends e)
      (do
        match ← current with
        | .text s .middle =>
          advance
          segments fuel (glue e s (← line))
        | .text s .last =>
          advance
          return glue e s (← line)
        | _ => failHere .openInterpolation)
      (do
        match ← current with
        | .text s .middle =>
          advance
          segments more (glue e s (← line))
        | .text s .last =>
          advance
          return glue e s (← line)
        | _ => failHere .openInterpolation) := by
  cases ht : r.current.token with
  | text s part =>
      cases part with
      | middle =>
          have hmiddle : r.current.token.part = .middle := congrArg Token.part ht
          refine (proceeds_looped (H := Continued) (.inl hmiddle) (by rw [ht]) (by rw [ht])
            (fun _ => rfl) fun r1 h1 => proceeds_line ?_).uses ?_
          · refine ((ih.segments r1 _).imp fun e' r2 h2 r0 he => ?_).call (by lia)
            exact h2 r0 (glue_extends e h1.steps s r0 he)
          · intro _ behind ⟨rest, hrest, hcontinued⟩
            exact hrest ▸ .middle hmiddle hcontinued
      | last =>
          have hlast : r.current.token.part = .last := congrArg Token.part ht
          refine (proceeds_looped (H := fun rest _ => rest = []) (.inr hlast) (by rw [ht])
            (by rw [ht]) (fun _ => rfl) fun r1 h1 => proceeds_line ?_).uses ?_
          · exact proceeds_pureOf (fun _ => rfl) (glue_extends e h1.steps s)
          · intro _ behind ⟨rest, hrest, hnil⟩
            exact hrest ▸ hnil ▸ .last hlast
      | whole | first => exact proceeds_current_failHere (by rw [ht]) (by rw [ht])
  | _ => exact proceeds_current_failHere (by rw [ht]) (by rw [ht])

theorem segments_proceeds (ih : Reader fuel more) (r : Reading) (e : Expr) :
    Proceeds false Continued (fuel + 1) 3 true r (r.Extends e) (segments (fuel + 1) e)
      (segments (more + 1) e) := by
  refine (ih.value (by decide)).reads.pastOf (fun a r1 h1 => proceeds_line
    ((proceeds_part ih r1 _).imp fun e' r2 h2 r0 he => h2 r0 (.binary _ he h1))) ?_
  intro uses uses' behind ⟨hne, htaken, hreads⟩ huses'
  cases huses' with
  | last hlast => exact .last htaken hne hreads hlast
  | middle hmiddle hrest => exact .middle htaken hne hreads hmiddle hrest

end Expressions

section Statements

variable {must : Bool} {fuel more calls : Nat} {back : Bool} {r : Reading}

theorem function_proceeds (ih : Reader fuel more) (hmore : fuel <= more) (r : Reading)
    (s : String) :
    Proceeds false Taken (fuel + 1) 1 true r
      (fun e r' => exists id, e = .function id r'.line ∧ r.Spells (.function id) r')
      (function (fuel + 1) s) (function (more + 1) s) := by
  have hbody : Proceeds false Taken (fuel + 1) 1 true r (fun d r' => exists r1,
      r.calling.Spells (.body d) r1 ∧
        r' = { r1 with scope := r.scope, inFunction := r.inFunction, loop := r.loop })
      (inFunction do
        expect (.mark .leftParen) "Expected `(` before parameters"
        let arity ← parameters fuel
        expect (.mark .rightParen) "Expected `)` after parameters"
        expect (.mark .leftCurly) "Expected `\x7b` before function body"
        let body ← declarations fuel true
        expect (.mark .rightCurly) "Expected `\x7d` after function body"
        return { name := s, arity := arity, body := body, line := ← line : Definition })
      (inFunction do
        expect (.mark .leftParen) "Expected `(` before parameters"
        let arity ← parameters more
        expect (.mark .rightParen) "Expected `)` after parameters"
        expect (.mark .leftCurly) "Expected `\x7b` before function body"
        let body ← declarations more true
        expect (.mark .rightCurly) "Expected `\x7d` after function body"
        return { name := s, arity := arity, body := body, line := ← line : Definition }) := by
    refine Proceeds.inFunction ?_
    refine (proceeds_expect (by trivial)).past fun _ r1 h1 => ?_
    refine ((proceeds_parameters hmore r1).call (by decide)).bind fun n r2 h2 => ?_
    refine (proceeds_expect (by trivial)).past fun _ r3 h3 => ?_
    refine (proceeds_expect (by trivial)).past fun _ r4 h4 => ?_
    refine ((ih.declarations _ r4 true).call (by decide)).bind fun body r5 h5 => ?_
    refine (proceeds_expect (by trivial)).past fun _ r6 h6 => proceeds_lineThen ⟨r6, ?_, rfl⟩
    exact .ahead h1.steps
      (.body s (.behind h2 (h3.steps.trans h4.steps)) (.behind h5 h6.steps))
  refine hbody.bind fun d r2 ⟨r1, h1, hr2⟩ => proceeds_define (proceeds_lineThen ?_)
  have hfunction := Reading.Spells.function h1
  subst hr2
  exact ⟨_, rfl, hfunction⟩

theorem block_proceeds (ih : Reader fuel more) (r : Reading) :
    Proceeds false Taken (fuel + 1) 1 true r (fun s => r.Spells (.statement s)) (block (fuel + 1))
      (block (more + 1)) := by
  refine (proceeds_expect (by trivial)).past fun _ r1 h1 => proceeds_modifyScope ?_
  refine ((ih.declarations _ r1.entered true).call (by decide)).bind fun s r2 h2 => ?_
  refine (proceeds_expect (by trivial)).past fun _ r3 h3 => proceeds_exitScope ?_
  exact proceeds_pure (.ahead h1.steps (.block (.behind h2 h3.steps)))

/-- The body of a loop. -/
theorem Reader.loopBody (ih : Reader fuel more) (h : 1 < calls) :
    Proceeds false Taken (fuel + 1) calls true r (fun body r' => exists r1,
      r.looping.Spells (.statement body) r1 ∧ r' = r.behindLoop r1)
      (inLoop (Parser.block fuel)) (inLoop (Parser.block more)) :=
  Proceeds.inLoop (((ih.block r.looping).call h).imp fun _ r1 h1 => ⟨r1, h1, rfl⟩)

theorem conditional_proceeds (ih : Reader fuel more) (r : Reading) :
    Proceeds false Taken (fuel + 1) 3 true r (fun s => r.Spells (.statement s))
      (conditional (fuel + 1)) (conditional (more + 1)) := by
  refine (ih.value (by decide)).past fun c r1 h1 => proceeds_line ?_
  refine ((ih.block r1).call (by decide)).bind fun body r2 h2 => proceeds_line ?_
  refine proceeds_accept trivial (fun r3 h3 => ?_) (proceeds_accept trivial (fun r3 h3 => ?_) ?_)
  · refine ((ih.conditional r3).call (by decide)).bind fun other r4 h4 => proceeds_pure ?_
    exact .cond h1 h2 (.ahead h3.steps h4)
  · refine ((ih.block r3).call (by decide)).bind fun other r4 h4 => proceeds_pure ?_
    exact .cond h1 h2 (.ahead h3.steps h4)
  · exact proceeds_pure (.cond h1 h2 .skip)

theorem letDeclaration_proceeds (ih : Reader fuel more) (r : Reading) :
    Proceeds false Taken (fuel + 1) 1 true r (fun s => r.Spells (.declaration s))
      (letDeclaration (fuel + 1)) (letDeclaration (more + 1)) := by
  refine proceeds_expectName.past fun name r1 h1 => proceeds_scope (Proceeds.ite ?_ ?_)
  · intro _
    refine (proceeds_expect (by trivial)).past fun _ r2 h2 => ?_
    refine (ih.value (by decide)).past fun e r3 h3 => proceeds_lineThen ?_
    exact .ahead (h1.steps.trans h2.steps) (.plain (.perform h3 (.define name)))
  · intro _
    refine proceeds_declare fun s hs => (proceeds_expect (by trivial)).past fun _ r2 h2 => ?_
    refine (ih.value (by decide)).past fun e r3 h3 => proceeds_modifyScope (proceeds_pure ?_)
    exact .ahead h1.steps (.bind hs (.ahead h2.steps h3))

theorem functionDeclaration_proceeds (ih : Reader fuel more) (r : Reading) :
    Proceeds false Taken (fuel + 1) 1 true r (fun s => r.Spells (.declaration s))
      (functionDeclaration (fuel + 1)) (functionDeclaration (more + 1)) := by
  refine proceeds_expectName.past fun name r1 h1 => proceeds_scope (Proceeds.ite ?_ ?_)
  · intro _
    refine ((ih.function r1 name).call (by decide)).bind fun e r2 ⟨id, he, hid⟩ => ?_
    subst he
    exact proceeds_lineThen (.ahead h1.steps (.plain (.perform (.closure hid) (.define name))))
  · intro _
    refine proceeds_declareSettled fun s hs => ?_
    refine ((ih.function _ name).call (by decide)).bind fun e r2 ⟨id, he, hid⟩ => ?_
    subst he
    exact proceeds_pure (.ahead h1.steps (.bindFunction hs hid))

theorem steppingLoop_proceeds (ih : Reader fuel more) (r : Reading) :
    Proceeds false Taken (fuel + 1) 2 true r (fun s => r.Spells (.loop s))
      (steppingLoop (fuel + 1)) (steppingLoop (more + 1)) := by
  refine ((ih.letDeclaration r).call (by decide)).bind fun start r1 h1 => ?_
  refine (proceeds_expect (by trivial)).past fun _ r2 h2 => ?_
  refine (ih.value (by decide)).past fun c r3 h3 => proceeds_line ?_
  refine (proceeds_expect (by trivial)).past fun _ r4 h4 => proceeds_line ?_
  refine (ih.value (by decide)).past fun step r5 h5 => proceeds_line ?_
  refine (ih.loopBody (by decide)).bind fun body r6 ⟨r', h6, hr'⟩ => proceeds_lineThen ?_
  have hloop := Reading.Spells.stepping (.behind h1 h2.steps) h3 h4.steps h5 h6
  subst hr'
  exact hloop

theorem collectionLoop_proceeds (ih : Reader fuel more) (r : Reading) :
    Proceeds false Taken (fuel + 1) 1 true r (fun s => r.Spells (.loop s))
      (collectionLoop (fuel + 1)) (collectionLoop (more + 1)) := by
  refine proceeds_loopNames.bind fun names r1 ⟨h1, hnames⟩ => ?_
  refine (proceeds_expect (by trivial)).past fun _ r2 h2 => ?_
  refine (ih.value (by decide)).past fun e r3 h3 => proceeds_scope (proceeds_modifyScope ?_)
  refine (proceeds_declareAll names r3.keeping).bind fun _ r4 h4 => proceeds_line ?_
  refine (ih.loopBody (by decide)).bind fun body r5 ⟨r', h5, hr'⟩ => proceeds_lineThen ?_
  have hloop := Reading.Spells.collection h3 hnames h4 h5
  subst hr'
  exact .ahead (h1.trans h2.steps) hloop

theorem tryStatement_proceeds (ih : Reader fuel more) (r : Reading) :
    Proceeds false Taken (fuel + 1) 2 true r (fun s => r.Spells (.statement s))
      (tryStatement (fuel + 1)) (tryStatement (more + 1)) := by
  refine proceeds_scope (((ih.block r).call (by decide)).bind fun body r1 h1 => proceeds_line ?_)
  refine (proceeds_expect (by trivial)).past fun _ r2 h2 => proceeds_modifyScope ?_
  refine proceeds_handlerName.bind fun o r3 h3 => ?_
  cases o with
  | some name =>
      refine proceeds_declareSettled fun s hs => ?_
      refine ((ih.block _).call (by decide)).bind fun handler r4 h4 => proceeds_exitScope ?_
      exact proceeds_pure (.try h1 h2.steps h3 hs h4)
  | none =>
      refine proceeds_line (((ih.block r3).call (by decide)).bind fun handler r4 h4 => ?_)
      exact proceeds_exitScope (proceeds_pure (.tryAny h1 h2.steps h3 h4))

theorem returnStatement_proceeds (ih : Reader fuel more) (r : Reading) :
    Proceeds false Taken (fuel + 1) 3 true r (fun s => r.Spells (.statement s))
      (returnStatement (fuel + 1)) (returnStatement (more + 1)) := by
  refine proceeds_get (Proceeds.ite (fun _ => ?_) fun _ => proceeds_failBefore _)
    (fun _ => rfl) fun _ => rfl
  refine proceeds_current (fun _ _ => .inl rfl) (Proceeds.ite (fun _ => ?_) fun _ => ?_)
  · exact proceeds_line (proceeds_pure (.perform (.literal .none) .ret))
  · exact (ih.value (by decide)).past fun e r1 h1 => proceeds_lineThen (.perform h1 .ret)

theorem statement_proceeds (ih : Reader fuel more) (back : Bool) (r : Reading) :
    Proceeds true Taken (fuel + 1) 3 back r (fun s => r.Spells (.statement s))
      (statement (fuel + 1)) (statement (more + 1)) := by
  have hpass {t : Token} (hcurrent : r.current.token = t) (ht : t.Fixed)
      {f g : Unit -> Parser Stmt} (h : forall r1, r.Passes r1 -> Proceeds false Taken (fuel + 1) 11
        true r1 (fun s => r.Spells (.statement s)) (f ()) (g ())) :
      Proceeds true Taken (fuel + 1) 3 back r (fun s => r.Spells (.statement s))
        (advance >>= f) (advance >>= g) :=
    proceeds_pass (hcurrent ▸ ht.part) (hcurrent ▸ ht.ne_endOfFile) h
  have hperform {r1 : Reading} (h1 : r.Steps r1) (f : Expr -> Nat -> Stmt)
      (hf : forall e l, (f e l).Performs e l) :
      Proceeds false Taken (fuel + 1) 11 true r1 (fun s => r.Spells (.statement s))
        (do return f (← expression fuel .assign) (← line))
        (do return f (← expression more .assign) (← line)) :=
    (ih.value (by decide)).past fun e r2 h2 =>
      proceeds_lineThen (.ahead h1 (.perform h2 (hf e _)))
  refine proceeds_current (fun _ _ => .inl rfl) ?_
  split
  case h_1 ht => exact hpass ht (by trivial) fun r1 h1 => hperform h1.steps _ fun _ _ => .output _
  case h_2 ht => exact hpass ht (by trivial) fun r1 h1 => hperform h1.steps _ fun _ _ => .output _
  case h_3 ht => exact hpass ht (by trivial) fun r1 h1 => hperform h1.steps _ fun _ _ => .throw
  case h_4 ht => exact hpass ht (by trivial) fun r1 h1 => hperform h1.steps _ fun _ _ => .use
  case h_5 ht =>
    refine hpass ht (by trivial) fun r1 h1 => ?_
    exact ((ih.conditional r1).imp fun _ _ h2 => .ahead h1.steps h2).call (by decide)
  case h_6 ht =>
    refine hpass ht (by trivial) fun r1 h1 => (ih.value (by decide)).past fun c r2 h2 => ?_
    refine proceeds_line ((ih.loopBody (by decide)).bind fun body r3 ⟨r', h3, hr'⟩ => ?_)
    have hloop := Reading.Spells.while h2 h3
    subst hr'
    exact proceeds_lineThen (.ahead h1.steps hloop)
  case h_7 ht =>
    refine hpass ht (by trivial) fun r1 h1 => proceeds_modifyScope ?_
    refine proceeds_accept trivial (fun r2 h2 => ?_) ?_
    · refine ((ih.steppingLoop r2).call (by decide)).bind fun s r3 h3 => proceeds_exitScope ?_
      exact proceeds_pure (.ahead h1.steps (.for (.ahead h2.steps h3)))
    · refine ((ih.collectionLoop _).call (by decide)).bind fun s r3 h3 => proceeds_exitScope ?_
      exact proceeds_pure (.ahead h1.steps (.for h3))
  case h_8 ht =>
    refine hpass ht (by trivial) fun r1 h1 => ?_
    exact ((ih.tryStatement r1).imp fun _ _ h2 => .ahead h1.steps h2).call (by decide)
  case h_9 ht =>
    refine hpass ht (by trivial) fun r1 h1 => ?_
    exact ((ih.returnStatement r1).imp fun _ _ h2 => .ahead h1.steps h2).call (by decide)
  case h_10 ht =>
    refine hpass ht (by trivial) fun r1 h1 => proceeds_loopLocals fun depth hdepth => ?_
    exact proceeds_lineThen (.ahead h1.steps (.leave hdepth))
  case h_11 ht =>
    refine hpass ht (by trivial) fun r1 h1 => proceeds_loopLocals fun depth hdepth => ?_
    exact proceeds_lineThen (.ahead h1.steps (.again hdepth))
  case h_12 =>
    exact (ih.value (by decide)).past fun e r1 h1 => proceeds_lineThen (.perform h1 .expr)

/-- A semicolon may follow. -/
theorem proceeds_semicolon {s : Stmt} {Q : Stmt -> Reading -> Prop}
    (h : forall r', r.Steps r' -> Q s r') :
    Proceeds false Taken fuel calls back r Q
      (do
        let _ ← accept (.mark .semicolon)
        return s)
      (do
        let _ ← accept (.mark .semicolon)
        return s) := by
  refine proceeds_accept trivial (fun r1 h1 => ?_) ?_
  · exact proceeds_pure (h r1 h1.steps)
  · exact proceeds_pure (h r (.refl r))

theorem declaration_proceeds (ih : Reader fuel more) (back : Bool) (r : Reading) :
    Proceeds true Taken (fuel + 1) 4 back r (fun s => r.Spells (.declaration s))
      (declaration (fuel + 1)) (declaration (more + 1)) := by
  refine proceeds_current (fun _ _ => .inl rfl) ?_
  split
  case h_1 ht =>
    refine proceeds_pass (ht ▸ rfl) (ht ▸ nofun) fun r1 h1 => ?_
    refine ((ih.letDeclaration r1).call (by decide)).bind fun s r2 h2 => proceeds_semicolon ?_
    exact fun r3 h3 => .ahead h1.steps (.behind h2 h3)
  case h_2 ht =>
    refine proceeds_pass (ht ▸ rfl) (ht ▸ nofun) fun r1 h1 => proceeds_atName fun _ => ?_
    refine Proceeds.ite (fun _ => ?_) fun _ => ?_
    · refine ((ih.functionDeclaration r1).call (by decide)).bind fun s r2 h2 => ?_
      exact proceeds_semicolon fun r3 h3 => .ahead h1.steps (.behind h2 h3)
    · refine ((ih.function r1 _).call (by decide)).bind fun e r2 ⟨id, he, hid⟩ => ?_
      subst he
      refine proceeds_line (proceeds_semicolon fun r3 h3 => .ahead h1.steps (.behind ?_ h3))
      exact .plain (.perform (.closure hid) .expr)
  case h_3 =>
    refine ((ih.statement _ r).call (by decide)).past fun s r1 h1 => proceeds_semicolon ?_
    exact fun r2 h2 => .behind (.plain h1) h2

theorem declarations_proceeds (ih : Reader fuel more) (back : Bool) (r : Reading) (b : Bool) :
    Proceeds false Taken (fuel + 1) 5 back r (fun s => r.Spells (.declaration s))
      (declarations (fuel + 1) b) (declarations (more + 1) b) := by
  refine proceeds_current (fun _ _ => .inl rfl) (Proceeds.ite (fun _ => ?_) fun _ => ?_)
  · exact proceeds_pure (.plain .skip)
  · refine ((ih.declaration _ r).call (by decide)).past fun s r1 h1 => ?_
    refine ((ih.declarations _ r1 b).call (by decide)).bind fun rest r2 h2 => ?_
    exact proceeds_pure (.seq h1 h2)

end Statements

/-! ## Any budget -/

theorem reader_zero (more : Nat) : Reader 0 more where
  expression _ _ _ _ := proceeds_exhausted (by decide)
  operand _ _ := proceeds_exhausted (by decide)
  follow _ _ _ _ _ := proceeds_exhausted (by decide)
  continuation _ _ _ _ := proceeds_exhausted (by decide)
  name _ _ _ := proceeds_exhausted (by decide)
  member _ _ _ := proceeds_exhausted (by decide)
  square _ _ _ := proceeds_exhausted (by decide)
  slice _ _ _ := proceeds_exhausted (by decide)
  segments _ _ := proceeds_exhausted (by decide)
  items _ _ := proceeds_exhausted (by decide)
  entries _ := proceeds_exhausted (by decide)
  builtin _ _ := proceeds_exhausted (by decide)
  function _ _ := proceeds_exhausted (by decide)
  declarations _ _ _ := proceeds_exhausted (by decide)
  declaration _ _ := proceeds_exhausted (by decide)
  letDeclaration _ := proceeds_exhausted (by decide)
  functionDeclaration _ := proceeds_exhausted (by decide)
  statement _ _ := proceeds_exhausted (by decide)
  block _ := proceeds_exhausted (by decide)
  conditional _ := proceeds_exhausted (by decide)
  steppingLoop _ := proceeds_exhausted (by decide)
  collectionLoop _ := proceeds_exhausted (by decide)
  tryStatement _ := proceeds_exhausted (by decide)
  returnStatement _ := proceeds_exhausted (by decide)

theorem reader_succ {fuel more : Nat} (hmore : fuel <= more) (ih : Reader fuel more) :
    Reader (fuel + 1) (more + 1) where
  expression := expression_proceeds ih hmore
  operand := operand_proceeds ih
  follow := follow_proceeds ih
  continuation := continuation_proceeds ih
  name := name_proceeds ih
  member := member_proceeds ih
  square := square_proceeds ih
  slice := slice_proceeds ih
  segments := segments_proceeds ih
  items := items_proceeds ih
  entries := entries_proceeds ih
  builtin := builtin_proceeds ih
  function := function_proceeds ih hmore
  declarations := declarations_proceeds ih
  declaration := declaration_proceeds ih
  letDeclaration := letDeclaration_proceeds ih
  functionDeclaration := functionDeclaration_proceeds ih
  statement := statement_proceeds ih
  block := block_proceeds ih
  conditional := conditional_proceeds ih
  steppingLoop := steppingLoop_proceeds ih
  collectionLoop := collectionLoop_proceeds ih
  tryStatement := tryStatement_proceeds ih
  returnStatement := returnStatement_proceeds ih

theorem reader {fuel more : Nat} (h : fuel <= more) : Reader fuel more := by
  induction fuel generalizing more with
  | zero => exact reader_zero more
  | succ fuel ih =>
      obtain ⟨more, rfl⟩ := Nat.exists_eq_add_one.mpr (Nat.zero_lt_of_lt h)
      have hmore := Nat.le_of_succ_le_succ h
      exact reader_succ hmore (ih hmore)

end Parser
end StackScript
