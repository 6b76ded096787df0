import StackScript.Proofs.Reading.Basic
import StackScript.Proofs.Reading.Grammar

/-!
# The course of a step

The course that a step of the reader takes is told by the uses of the tokens that it consumes.  They
lead to the place where it ends; from another place the same uses lead to the same outcome, or they
stop on the way.  A fault is reported at a token that has been seen.  The course is the same with a
larger budget, and it uses its budget up only if it has consumed many tokens.  What it gives stands
between the two readings.

All this is one property of a step from a reading.  There is one rule for each way to put steps
together and one for each step that the others are made of.
-/

namespace StackScript
namespace Parser

section Course

variable {α β : Type}

/-- From a reading, the step gives `a` and ends at another reading, using these tokens. -/
structure Goes (x : Parser α) (r : Reading) (uses : List Use) (a : α) (r' : Reading) : Prop where
  goes : r.spot.Goes uses r'.spot
  /-- From another place it gives the same, or it stops within the uses. -/
  elsewhere : forall q o, r.spot.Meets Spot.Like uses q o ->
    x (q.within r.surroundings) = o >>= fun q' => .ok (a, q'.within r'.surroundings)

/-- From a reading, the step stops with a fault, having used these tokens. -/
structure Stops (back : Bool) (x : Parser α) (r : Reading) (uses : List Use) (f : SyntaxFault)
    (at_ : Position) : Prop where
  /-- The fault is at one of the two tokens at hand, but not at one that has been consumed before
  the step, unless the step looks back. -/
  pointed : exists p, r.spot.Goes uses p ∧ (at_ = p.current.start ∨
    at_ = p.previous.start ∧ (back = true ∨ uses ≠ []))
  /-- From another place where the same tokens stand it stops with the same fault, unless it stops
  within the uses. -/
  elsewhere : forall q o, r.spot.Meets Spot.Same uses q o ->
    x (q.within r.surroundings) = o >>= fun _ => .error (.fault f at_)

/-- How a step proceeds from a reading.  Its uses satisfy `G`, and there are some of them if there
must be.  What it gives satisfies `Q` with the reading behind it.  The second step is the same one
with a larger budget.  A token is worth eight calls, and so many calls come on top. -/
structure Proceeds (must : Bool) (G : List Use -> List Spanned -> Prop) (fuel calls : Nat)
    (back : Bool) (r : Reading) (Q : α -> Reading -> Prop) (x y : Parser α) : Prop where
  gives : forall a r', x r = .ok (a, r') -> exists uses, Goes x r uses a r' ∧
    (must = true -> uses ≠ []) ∧ (r.Ended -> G uses r'.tokens) ∧ Q a r'
  stops : forall f p, x r = .error (.fault f p) -> exists uses, Stops back x r uses f p
  same : x r ≠ .error .exhausted -> y r = x r
  exhausts : x r = .error .exhausted ->
    exists uses p, r.spot.Goes uses p ∧ fuel < 8 * uses.length + calls

variable {must must' : Bool} {G H K : List Use -> List Spanned -> Prop}
  {fuel more calls calls' : Nat} {back back' : Bool} {r : Reading}
  {P Q Q' : α -> Reading -> Prop} {R : β -> Reading -> Prop}
  {x y x' y' : Parser α} {f g : α -> Parser β}

theorem spot_within (r : Reading) : r.spot.within r.surroundings = r :=
  rfl

theorem current_spot (r : Reading) : r.spot.current = r.current :=
  rfl

theorem Proceeds.imp (h : Proceeds must G fuel calls back r Q x y)
    (hQ : forall a r', Q a r' -> Q' a r') :
    Proceeds must G fuel calls back r Q' x y where
  gives a r' ha := by
    obtain ⟨uses, hgoes, hsome, hG, hq⟩ := h.gives a r' ha
    exact ⟨uses, hgoes, hsome, hG, hQ a r' hq⟩
  stops := h.stops
  same := h.same
  exhausts := h.exhausts

theorem Proceeds.uses (h : Proceeds must G fuel calls back r Q x y)
    (hG : forall uses behind, G uses behind -> H uses behind) :
    Proceeds must H fuel calls back r Q x y where
  gives a r' ha := by
    obtain ⟨uses, hgoes, hmust, hg, hQ⟩ := h.gives a r' ha
    exact ⟨uses, hgoes, hmust, fun hr => hG uses _ (hg hr), hQ⟩
  stops := h.stops
  same := h.same
  exhausts := h.exhausts

/-- A step that consumes something may consume something. -/
theorem Proceeds.any (h : Proceeds true G fuel calls back r Q x y) :
    Proceeds must G fuel calls back r Q x y where
  gives a r' ha := by
    obtain ⟨uses, hgoes, hsome, hG, hQ⟩ := h.gives a r' ha
    exact ⟨uses, hgoes, fun _ => hsome rfl, hG, hQ⟩
  stops := h.stops
  same := h.same
  exhausts := h.exhausts

/-- A function of the reader is called. -/
theorem Proceeds.call (h : Proceeds must G fuel calls back r Q x y) (hcalls : calls < calls') :
    Proceeds must G (fuel + 1) calls' back r Q x y where
  gives := h.gives
  stops := h.stops
  same := h.same
  exhausts hx := by
    obtain ⟨uses, p, hgoes, hlt⟩ := h.exhausts hx
    exact ⟨uses, p, hgoes, by lia⟩

/-! ## Steps in a row -/

theorem bind_of_ok {a : α} {r1 : Reading} (h : x r = .ok (a, r1)) : (x >>= f) r = f a r1 := by
  show (x r >>= fun p => f p.1 p.2) = _
  rw [h]
  rfl

theorem bind_of_error {e : ParseError} (h : x r = .error e) : (x >>= f) r = .error e := by
  show (x r >>= fun p => f p.1 p.2) = _
  rw [h]
  rfl

theorem Goes.bind_elsewhere {a : α} {r1 : Reading} {uses uses' : List Use}
    {Beside : Spot -> Spot -> Prop} {k : Spot -> Except ParseError (β × Reading)}
    (hx : Goes x r uses a r1) (hlike : forall p q, Beside p q -> p.Like q)
    (hf : forall q o, r1.spot.Meets Beside uses' q o -> f a (q.within r1.surroundings) = o >>= k)
    (q : Spot) (o : Except ParseError Spot)
    (h : r.spot.Meets Beside (uses ++ uses') q o) :
    (x >>= f) (q.within r.surroundings) = o >>= k := by
  rcases h.split hx.goes with ⟨e, rfl, hstops⟩ | ⟨q1, hgets, hrest⟩
  · exact bind_of_error (hx.elsewhere q _ (hstops.imp hlike))
  · rw [bind_of_ok (hx.elsewhere q _ (hgets.imp hlike))]
    exact hf q1 o hrest

/-- A step and what comes behind it.  If the first one must consume a token, the second one may
look back, and it may call eight functions more. -/
theorem Proceeds.bindOf (hx : Proceeds must G fuel calls back r P x y)
    (hf : forall a r1, x r = .ok (a, r1) -> P a r1 ->
      Proceeds must' H fuel calls' back' r1 R (f a) (g a))
    (hG : forall uses uses' behind, G uses (usedTokens uses' ++ behind) -> H uses' behind ->
      K (uses ++ uses') behind)
    (hback : back' = true -> back = true ∨ must = true)
    (hcalls : calls' <= calls + 8 * must.toNat) :
    Proceeds (must || must') K fuel calls back r R (x >>= f) (y >>= g) where
  gives b r' h := by
    obtain ⟨a, r1, h1, h2⟩ := bind_eq_ok.mp h
    obtain ⟨uses, hgoes, hsome, hg, hP⟩ := hx.gives a r1 h1
    obtain ⟨uses', hgoes', hsome', hh, hR⟩ := (hf a r1 h1 hP).gives b r' h2
    refine ⟨uses ++ uses', ⟨hgoes.goes.append hgoes'.goes, ?_⟩, ?_, ?_, hR⟩
    · exact hgoes.bind_elsewhere (fun _ _ h => h) hgoes'.elsewhere
    · intro hor hnil
      obtain ⟨hnil, hnil'⟩ := List.append_eq_nil_iff.mp hnil
      rcases (Bool.or_eq_true _ _).mp hor with h | h
      · exact hsome h hnil
      · exact hsome' h hnil'
    · intro hr
      obtain ⟨-, hr1⟩ := hgoes.goes.tokens_eq hr
      obtain ⟨htokens, -⟩ := hgoes'.goes.tokens_eq hr1
      refine hG uses uses' _ ?_ (hh hr1)
      have hsame : r1.tokens = usedTokens uses' ++ r'.tokens := htokens
      exact hsame ▸ hg hr
  stops fault p h := by
    cases hrun : x r with
    | error e =>
        rw [bind_of_error hrun] at h
        cases h
        obtain ⟨uses, hstops⟩ := hx.stops fault p hrun
        refine ⟨uses, hstops.pointed, fun q o hq => ?_⟩
        have hq' := hstops.elsewhere q o hq
        cases o with
        | error e => exact bind_of_error hq'
        | ok q' => exact bind_of_error hq'
    | ok result =>
        obtain ⟨a, r1⟩ := result
        rw [bind_of_ok hrun] at h
        obtain ⟨uses, hgoes, hsome, -, hP⟩ := hx.gives a r1 hrun
        obtain ⟨uses', ⟨p1, hgoes', hp⟩, helse⟩ := (hf a r1 hrun hP).stops fault p h
        refine ⟨uses ++ uses', ⟨p1, hgoes.goes.append hgoes', hp.imp_right ?_⟩, ?_⟩
        · refine And.imp_right fun hseen => ?_
          by_cases huses : uses = []
          · rcases hseen with hback' | huses'
            · refine .inl ((hback hback').resolve_right fun h => hsome h huses)
            · exact .inr fun hnil => huses' (List.append_eq_nil_iff.mp hnil).2
          · exact .inr fun hnil => huses (List.append_eq_nil_iff.mp hnil).1
        · exact hgoes.bind_elsewhere (fun _ _ h => h.like) helse
  same h := by
    cases hrun : x r with
    | error e =>
        have hne : x r ≠ .error .exhausted := by
          rw [hrun]
          rw [bind_of_error hrun] at h
          exact fun he => h (by cases he; rfl)
        rw [bind_of_error hrun, bind_of_error ((hx.same hne).trans hrun)]
    | ok result =>
        obtain ⟨a, r1⟩ := result
        obtain ⟨uses, -, -, -, hP⟩ := hx.gives a r1 hrun
        have hsame : y r = .ok (a, r1) := (hx.same (by simp [hrun])).trans hrun
        rw [bind_of_ok hrun] at h ⊢
        rw [bind_of_ok hsame]
        exact (hf a r1 hrun hP).same h
  exhausts h := by
    cases hrun : x r with
    | error e =>
        rw [bind_of_error hrun] at h
        cases h
        exact hx.exhausts hrun
    | ok result =>
        obtain ⟨a, r1⟩ := result
        rw [bind_of_ok hrun] at h
        obtain ⟨uses, hgoes, hsome, -, hP⟩ := hx.gives a r1 hrun
        obtain ⟨uses', p, hgoes', hlt⟩ := (hf a r1 hrun hP).exhausts h
        refine ⟨uses ++ uses', p, hgoes.goes.append hgoes', ?_⟩
        rw [List.length_append]
        cases must with
        | false =>
            rw [Bool.toNat_false] at hcalls
            lia
        | true =>
            have hpos := List.length_pos_iff.mpr (hsome rfl)
            rw [Bool.toNat_true] at hcalls
            lia

theorem Proceeds.bind (hx : Proceeds false Taken fuel calls back r P x y)
    (hf : forall a r1, P a r1 -> Proceeds must Taken fuel calls back r1 R (f a) (g a)) :
    Proceeds must Taken fuel calls back r R (x >>= f) (y >>= g) :=
  hx.bindOf (fun a r1 _ => hf a r1) (fun _ _ _ h h' => h.append rfl h') .inl (Nat.le_refl _)

/-- Behind a step that consumes a token. -/
theorem Proceeds.pastOf (hx : Proceeds true G fuel calls back r P x y)
    (hf : forall a r1, P a r1 -> Proceeds must' H fuel (calls + 8) true r1 R (f a) (g a))
    (hG : forall uses uses' behind, G uses (usedTokens uses' ++ behind) -> H uses' behind ->
      K (uses ++ uses') behind) :
    Proceeds must K fuel calls back r R (x >>= f) (y >>= g) :=
  (hx.bindOf (fun a r1 _ => hf a r1) hG (fun _ => .inr rfl) (Nat.le_refl _)).any

theorem Proceeds.past (hx : Proceeds true Taken fuel calls back r P x y)
    (hf : forall a r1, P a r1 -> Proceeds false Taken fuel (calls + 8) true r1 R (f a) (g a)) :
    Proceeds must Taken fuel calls back r R (x >>= f) (y >>= g) :=
  hx.pastOf hf fun _ _ _ h h' => h.append rfl h'

theorem Proceeds.ite {c : Prop} [Decidable c] (hx : c -> Proceeds must G fuel calls back r Q x x')
    (hy : ¬ c -> Proceeds must G fuel calls back r Q y y') :
    Proceeds must G fuel calls back r Q (if c then x else y) (if c then x' else y') := by
  split
  case isTrue hc => exact hx hc
  case isFalse hc => exact hy hc

theorem proceeds_pureOf {a : α} (hG : forall behind, G [] behind) (h : Q a r) :
    Proceeds false G fuel calls back r Q (pure a) (pure a) where
  gives b r' hb := by
    obtain ⟨rfl, rfl⟩ := pure_eq_ok.mp hb
    refine ⟨[], ⟨.here, fun q o hq => ?_⟩, nofun, fun _ => hG _, h⟩
    cases hq
    rfl
  stops _ _ h := by cases h
  same _ := rfl
  exhausts h := by cases h

theorem proceeds_pure {a : α} (h : Q a r) :
    Proceeds false Taken fuel calls back r Q (pure a) (pure a) :=
  proceeds_pureOf (fun _ => .nil) h

/-- A step that stops, but not with a fault. -/
theorem proceeds_of_error {e : ParseError} (hx : x r = .error e)
    (hfault : forall f p, e ≠ .fault f p) (hy : e ≠ .exhausted -> y r = .error e)
    (hexhausts : e = .exhausted -> fuel < calls) :
    Proceeds must G fuel calls back r Q x y where
  gives a r' ha := by
    rw [hx] at ha
    cases ha
  stops f p hf := by
    rw [hx] at hf
    exact absurd (Except.error.inj hf) (hfault f p)
  same hne := by
    rw [hx] at hne ⊢
    exact hy fun he => hne (congrArg Except.error he)
  exhausts hexhausted := by
    rw [hx] at hexhausted
    exact ⟨[], r.spot, .here, by simpa using hexhausts (Except.error.inj hexhausted)⟩

/-- A step that stops where the scan fails. -/
theorem proceeds_of_lex {e : LexError} (hx : x r = .error (.lex e)) (hy : y r = .error (.lex e)) :
    Proceeds must G fuel calls back r Q x y :=
  proceeds_of_error hx nofun (fun _ => hy) nofun

theorem proceeds_of_exhausted (hx : x r = .error .exhausted) (h : fuel < calls) :
    Proceeds must G fuel calls back r Q x y :=
  proceeds_of_error hx nofun (fun hne => absurd rfl hne) fun _ => h

theorem proceeds_exhausted (h : fuel < calls) :
    Proceeds must G fuel calls back r Q (exhausted : Parser α) y :=
  proceeds_of_exhausted rfl h

/-- A step that stops with a fault at one of the tokens at hand. -/
theorem proceeds_of_stops {f : SyntaxFault} {t : Spot -> Spanned}
    (hx : forall q : Spot, x (q.within r.surroundings) = .error (.fault f (t q).start))
    (hy : forall q : Spot, y (q.within r.surroundings) = .error (.fault f (t q).start))
    (hsame : forall q : Spot, r.spot.Same q -> t q = t r.spot)
    (ht : t r.spot = r.current ∨ t r.spot = r.previous ∧ back = true) :
    Proceeds must G fuel calls back r Q x y where
  gives a r' h := by
    rw [← spot_within r, hx] at h
    cases h
  stops fault p h := by
    rw [← spot_within r, hx] at h
    cases h
    refine ⟨[], ⟨r.spot, .here, ?_⟩, fun q o hq => ?_⟩
    · rcases ht with ht | ⟨ht, hback⟩
      · exact .inl (congrArg Spanned.start ht)
      · exact .inr ⟨congrArg Spanned.start ht, .inl hback⟩
    · cases hq with
      | here hq =>
          rw [hx, hsame q hq]
          rfl
  same _ := (hy r.spot).trans (hx r.spot).symm
  exhausts h := by
    rw [← spot_within r, hx] at h
    cases h

theorem proceeds_failHere (f : SyntaxFault) :
    Proceeds must G fuel calls back r Q (failHere f : Parser α) (failHere f) :=
  proceeds_of_stops (t := Spot.current) (fun _ => rfl) (fun _ => rfl) (fun _ h => h.current)
    (.inl rfl)

/-- A step that stops with a fault at the token consumed last. -/
theorem proceeds_of_stops_before {f : SyntaxFault}
    (hx : forall q : Spot, x (q.within r.surroundings) = .error (.fault f q.previous.start))
    (hy : forall q : Spot, y (q.within r.surroundings) = .error (.fault f q.previous.start)) :
    Proceeds must G fuel calls true r Q x y :=
  proceeds_of_stops (t := Spot.previous) hx hy (fun _ h => h.previous) (.inr ⟨rfl, rfl⟩)

theorem proceeds_failBefore (f : SyntaxFault) :
    Proceeds must G fuel calls true r Q (failBefore f : Parser α) (failBefore f) :=
  proceeds_of_stops_before (fun _ => rfl) fun _ => rfl

/-! ## Steps that consume nothing -/

/-- A step that goes on as another one from the same place in other surroundings.  It may look at
where the token consumed last stands. -/
theorem Proceeds.still {s : Surroundings}
    (h : Proceeds must G fuel calls back (r.spot.within s) Q x' y')
    (hx : forall q : Spot, q.previous.start = r.previous.start ->
      x (q.within r.surroundings) = x' (q.within s))
    (hy : forall q : Spot, q.previous.start = r.previous.start ->
      y (q.within r.surroundings) = y' (q.within s)) :
    Proceeds must G fuel calls back r Q x y := by
  have hxr : x r = x' (r.spot.within s) := hx r.spot rfl
  have hyr : y r = y' (r.spot.within s) := hy r.spot rfl
  constructor
  · intro a r' ha
    obtain ⟨uses, hgoes, hrest⟩ := h.gives a r' (hxr ▸ ha)
    refine ⟨uses, ⟨hgoes.goes, fun q o hq => ?_⟩, hrest⟩
    rw [hx q hq.beside.previous.start]
    exact hgoes.elsewhere q o hq
  · intro f p hf
    obtain ⟨uses, hstops⟩ := h.stops f p (hxr ▸ hf)
    refine ⟨uses, hstops.pointed, fun q o hq => ?_⟩
    rw [hx q hq.beside.like.previous.start]
    exact hstops.elsewhere q o hq
  · rw [hxr, hyr]
    exact h.same
  · rw [hxr]
    exact h.exhausts

section Still

variable {a : α}

theorem proceeds_line {f g : Nat -> Parser β}
    (h : Proceeds must G fuel calls back r R (f r.line) (g r.line)) :
    Proceeds must G fuel calls back r R (line >>= f) (line >>= g) := by
  refine h.still (s := r.surroundings) (fun q hq => ?_) fun q hq => ?_
  · show f q.previous.start.line _ = _
    rw [hq]
    rfl
  · show g q.previous.start.line _ = _
    rw [hq]
    rfl

/-- The line of a node is read last. -/
theorem proceeds_lineThen {f : Nat -> α} (h : Q (f r.line) r) :
    Proceeds false Taken fuel calls back r Q (line >>= fun l => pure (f l))
      (line >>= fun l => pure (f l)) :=
  proceeds_line (proceeds_pure h)

theorem proceeds_scope {f g : Scope -> Parser β}
    (h : Proceeds must G fuel calls back r R (f r.scope) (g r.scope)) :
    Proceeds must G fuel calls back r R (scope >>= f) (scope >>= g) :=
  h.still (s := r.surroundings) (fun _ _ => rfl) fun _ _ => rfl

theorem proceeds_modifyScope {f : Scope -> Scope} {g k : Unit -> Parser β}
    (h : Proceeds must G fuel calls back (r.inScope (f r.scope)) R (g ()) (k ())) :
    Proceeds must G fuel calls back r R (modifyScope f >>= g) (modifyScope f >>= k) :=
  h.still (s := { r.surroundings with scope := f r.scope }) (fun _ _ => rfl) fun _ _ => rfl

theorem proceeds_exitScope {f g : Stmt -> Parser β}
    (h : Proceeds must G fuel calls back r.exited R (f r.drop) (g r.drop)) :
    Proceeds must G fuel calls back r R (exitScope >>= f) (exitScope >>= g) := by
  refine h.still (s := { r.surroundings with scope := r.scope.exit }) (fun q hq => ?_)
    fun q hq => ?_
  · show f (.drop _ q.previous.start.line) _ = _
    rw [hq]
    rfl
  · show g (.drop _ q.previous.start.line) _ = _
    rw [hq]
    rfl

theorem proceeds_define {d : Definition} {f g : Nat -> Parser β}
    (h : Proceeds must G fuel calls back { r with definitions := r.definitions.push d } R
      (f (r.base + r.definitions.size)) (g (r.base + r.definitions.size))) :
    Proceeds must G fuel calls back r R (define d >>= f) (define d >>= g) :=
  h.still (s := { r.surroundings with definitions := r.definitions.push d }) (fun _ _ => rfl)
    fun _ _ => rfl

/-- A step that depends on the surroundings. -/
theorem proceeds_get {f g : Reading -> Parser β}
    (h : Proceeds must G fuel calls back r R (f r) (g r))
    (hf : forall q : Spot, f (q.within r.surroundings) = f r)
    (hg : forall q : Spot, g (q.within r.surroundings) = g r) :
    Proceeds must G fuel calls back r R (get >>= f) (get >>= g) := by
  refine h.still (s := r.surroundings) (fun q _ => ?_) fun q _ => ?_
  · show f _ _ = _
    rw [hf]
  · show g _ _ = _
    rw [hg]

theorem proceeds_declare {name : String} {f g : Unit -> Parser β}
    (h : forall s, r.scope.declare? name = some s ->
      Proceeds must G fuel calls true (r.inScope s) R (f ()) (g ())) :
    Proceeds must G fuel calls true r R (declare name >>= f) (declare name >>= g) := by
  cases hs : r.scope.declare? name with
  | some s =>
      have hdeclare (q : Spot) : declare name (q.within r.surroundings) =
          .ok ((), q.within { r.surroundings with scope := s }) := by
        have hscope : (q.within r.surroundings).scope.declare? name = some s := hs
        simp only [declare, hscope]
        rfl
      exact (h s hs).still (s := { r.surroundings with scope := s })
        (fun q _ => bind_of_ok (hdeclare q)) fun q _ => bind_of_ok (hdeclare q)
  | none =>
      have hdeclare (q : Spot) : declare name (q.within r.surroundings) =
          .error (.fault (.duplicateVariable name) q.previous.start) := by
        have hscope : (q.within r.surroundings).scope.declare? name = none := hs
        simp only [declare, hscope]
        rfl
      exact proceeds_of_stops_before (fun q => bind_of_error (hdeclare q))
        fun q => bind_of_error (hdeclare q)

theorem proceeds_declareSettled {name : String} {f g : Unit -> Parser β}
    (h : forall s, r.scope.declare? name = some s ->
      Proceeds must G fuel calls true (r.inScope s.settle) R (f ()) (g ())) :
    Proceeds must G fuel calls true r R (declareSettled name >>= f)
      (declareSettled name >>= g) := by
  simp only [declareSettled, bind_assoc]
  exact proceeds_declare fun s hs => proceeds_modifyScope (h s hs)

theorem proceeds_loopLocals {fault : SyntaxFault} {f g : Nat -> Parser β}
    (h : forall depth, r.loop = some depth ->
      Proceeds must G fuel calls true r R (f (r.scope.above depth)) (g (r.scope.above depth))) :
    Proceeds must G fuel calls true r R (loopLocals fault >>= f) (loopLocals fault >>= g) := by
  cases hloop : r.loop with
  | some depth =>
      have hlocals (q : Spot) : loopLocals fault (q.within r.surroundings) =
          .ok (r.scope.above depth, q.within r.surroundings) := by
        have hin : (q.within r.surroundings).loop = some depth := hloop
        simp only [loopLocals, hin]
        rfl
      exact (h depth hloop).still (s := r.surroundings)
        (fun q _ => bind_of_ok (hlocals q)) fun q _ => bind_of_ok (hlocals q)
  | none =>
      have hlocals (q : Spot) : loopLocals fault (q.within r.surroundings) =
          .error (.fault fault q.previous.start) := by
        have hout : (q.within r.surroundings).loop = none := hloop
        simp only [loopLocals, hout]
        rfl
      exact proceeds_of_stops_before (fun q => bind_of_error (hlocals q))
        fun q => bind_of_error (hlocals q)

theorem proceeds_resolve {name : String} {f g : Variable -> Parser β}
    (h : forall v, r.scope.Finds name v -> Proceeds must G fuel calls true r R (f v) (g v)) :
    Proceeds must G fuel calls true r R (resolve name >>= f) (resolve name >>= g) := by
  simp only [resolve, bind_assoc]
  refine proceeds_scope ?_
  unfold Scope.Finds at h
  cases hname : r.scope.resolve name with
  | slot n =>
      rw [hname] at h
      simpa using h (.slot n) rfl
  | unsettled =>
      exact proceeds_of_stops_before (fun _ => rfl) fun _ => rfl
  | global =>
      rw [hname] at h
      simpa using h (.global name) rfl

end Still

/-! ## The tokens at hand -/

def Fails (x : Parser α) : Prop :=
  forall r a r', ¬ x r = .ok (a, r')

theorem fails_failHere (f : SyntaxFault) : Fails (failHere f : Parser α) :=
  fun _ _ _ => failHere_ne_ok

theorem Fails.bind {x : Parser α} {f : α -> Parser β} (hf : forall a, Fails (f a)) :
    Fails (x >>= f) := by
  intro r b r' h
  rcases bind_eq_ok.mp h with ⟨a, r1, -, h2⟩
  exact hf a r1 b r' h2

/-- What depends on a token, but not on where a text stands in its string. -/
theorem eq_of_like {f : Token -> Parser β} {t t' : Spanned} {b : β} {r r' : Reading}
    (h : t.Like t') (hlike : forall s part,
      f (.text s .whole) = f (.text s part) ∨ Fails (f (.text s part)) ∨ part = .first)
    (hrun : f t.token r = .ok (b, r')) : f t'.token = f t.token := by
  rcases h with rfl | rfl
  · rfl
  · rcases Token.alone_cases t.token with hplain | ⟨s, part, htext, hwhole⟩
    · rw [Spanned.alone, hplain]
    · rcases hlike s part with heq | hfails | rfl
      · rw [Spanned.alone, hwhole, htext, heq]
      · rw [htext] at hrun
        exact absurd hrun (hfails r b r')
      · rw [Spanned.alone, htext]
        rfl

section Looking

variable {look : Parser Token} {t : Spot -> Spanned} {f g : Token -> Parser β}

/-- A step that looks at a token.  What it does where another token stands is shown apart. -/
theorem Proceeds.looking (hlook : forall (q : Spot) s, look (q.within s) =
      .ok ((t q).token, q.within s))
    (hsame : forall p q, p.Same q -> t q = t p)
    (h : Proceeds must H fuel calls back r R (f (t r.spot).token) (g (t r.spot).token))
    (hgives : forall b r', f (t r.spot).token r = .ok (b, r') ->
      exists uses, Goes (look >>= f) r uses b r' ∧ (must' = true -> uses ≠ []) ∧
        (r.Ended -> G uses r'.tokens) ∧ R b r') :
    Proceeds must' G fuel calls back r R (look >>= f) (look >>= g) := by
  have hstep {k : Token -> Parser β} (q : Spot) :
      (look >>= k) (q.within r.surroundings) = k (t q).token (q.within r.surroundings) :=
    bind_of_ok (hlook q _)
  have hfr : (look >>= f) r = f (t r.spot).token r := hstep r.spot
  have hgr : (look >>= g) r = g (t r.spot).token r := hstep r.spot
  constructor
  · intro b r' hb
    rw [hfr] at hb
    exact hgives b r' hb
  · intro fault p hfault
    rw [hfr] at hfault
    obtain ⟨uses, hstops⟩ := h.stops fault p hfault
    refine ⟨uses, hstops.pointed, fun q o hq => ?_⟩
    rw [hstep, hsame _ _ hq.beside]
    exact hstops.elsewhere q o hq
  · rw [hfr, hgr]
    exact h.same
  · rw [hfr]
    exact h.exhausts

theorem proceeds_looking (hlook : forall (q : Spot) s, look (q.within s) =
      .ok ((t q).token, q.within s))
    (hlike : forall p q, p.Like q -> (t p).Like (t q))
    (hsame : forall p q, p.Same q -> t q = t p)
    (hf : forall s part,
      f (.text s .whole) = f (.text s part) ∨ Fails (f (.text s part)) ∨ part = .first)
    (h : Proceeds must G fuel calls back r R (f (t r.spot).token) (g (t r.spot).token)) :
    Proceeds must G fuel calls back r R (look >>= f) (look >>= g) := by
  refine h.looking hlook hsame fun b r' hb => ?_
  obtain ⟨uses, hgoes, hrest⟩ := h.gives b r' hb
  refine ⟨uses, ⟨hgoes.goes, fun q o hq => ?_⟩, hrest⟩
  rw [bind_of_ok (hlook q _), eq_of_like (hlike _ _ hq.beside) hf hb]
  exact hgoes.elsewhere q o hq

end Looking

theorem proceeds_current {f g : Token -> Parser β} (hf : forall s part,
      f (.text s .whole) = f (.text s part) ∨ Fails (f (.text s part)) ∨ part = .first)
    (h : Proceeds must G fuel calls back r R (f r.current.token) (g r.current.token)) :
    Proceeds must G fuel calls back r R (current >>= f) (current >>= g) :=
  proceeds_looking (t := Spot.current) (fun _ _ => rfl) (fun _ _ h => h.current)
    (fun _ _ h => h.current) hf h

theorem proceeds_current_failHere {f g : Token -> Parser β} {fault : SyntaxFault}
    (hf : f r.current.token = failHere fault) (hg : g r.current.token = failHere fault) :
    Proceeds must G fuel calls back r R (current >>= f) (current >>= g) := by
  have hfails : Proceeds must G fuel calls back r R (f r.current.token) (g r.current.token) := by
    rw [hf, hg]
    exact proceeds_failHere fault
  refine hfails.looking (t := Spot.current) (fun _ _ => rfl) (fun _ _ h => h.current)
    fun b r' hb => ?_
  rw [current_spot, hf] at hb
  exact absurd hb failHere_ne_ok

theorem proceeds_previous {f g : Token -> Parser β} (hf : forall s part,
      f (.text s .whole) = f (.text s part) ∨ Fails (f (.text s part)) ∨ part = .first)
    (h : Proceeds must G fuel calls back r R (f r.previous.token) (g r.previous.token)) :
    Proceeds must G fuel calls back r R (previous >>= f) (previous >>= g) :=
  proceeds_looking (t := Spot.previous) (fun _ _ => rfl) (fun _ _ h => h.previous)
    (fun _ _ h => h.previous) hf h

/-! ## The token in front is consumed -/

theorem advance_within (p : Spot) (s : Surroundings) :
    advance (p.within s) = p.next.map fun p' => ((), p'.within s) := by
  rcases p with ⟨previous, current, rest, failure⟩
  cases rest with
  | cons t rest => rfl
  | nil => cases failure <;> rfl

theorem advance_of_next {p p' : Spot} {s : Surroundings} (h : p.next = .ok p') :
    advance (p.within s) = .ok ((), p'.within s) := by
  rw [advance_within, h]
  rfl

theorem advance_of_stop {p : Spot} {s : Surroundings} {e : ParseError} (h : p.next = .error e) :
    advance (p.within s) = .error e := by
  rw [advance_within, h]
  rfl

theorem next_of_advance {u : Unit} {r r' : Reading} (h : advance r = .ok (u, r')) :
    r.spot.next = .ok r'.spot ∧ r'.surroundings = r.surroundings := by
  rw [← spot_within r, advance_within] at h
  cases hnext : r.spot.next with
  | error e =>
      rw [hnext] at h
      cases h
  | ok p =>
      rw [hnext] at h
      cases h
      exact ⟨rfl, rfl⟩

theorem lex_of_advance {r : Reading} {e : ParseError} (h : advance r = .error e) :
    exists l, e = .lex l := by
  rw [← spot_within r, advance_within] at h
  cases hnext : r.spot.next with
  | error e' =>
      rw [hnext] at h
      cases h
      exact Spot.lex_of_next hnext
  | ok p =>
      rw [hnext] at h
      cases h

theorem passes_of_advance {u : Unit} {r' : Reading} (hend : r.current.token ≠ .endOfFile)
    (h : advance r = .ok (u, r')) : r.Passes r' where
  steps := ⟨(next_of_advance h).2, [⟨r.current, false⟩], .past hend (next_of_advance h).1 .here⟩
  previous := Spot.previous_of_next (next_of_advance h).1

theorem proceeds_advance (hend : r.current.token ≠ .endOfFile) :
    Proceeds true (fun uses _ => uses = [⟨r.current, false⟩]) fuel calls back r
      (fun _ => r.Passes) advance advance where
  gives u r' h := by
    obtain ⟨hnext, hsame⟩ := next_of_advance h
    refine ⟨[⟨r.current, false⟩], ⟨.past hend hnext .here, fun q o hq => ?_⟩, nofun,
      fun _ => rfl, passes_of_advance hend h⟩
    rw [hsame]
    cases hq with
    | stopped _ _ hstop => exact advance_of_stop hstop
    | past _ _ hnext1 hnext' hrest =>
        cases hrest
        exact advance_of_next hnext'
  stops f p h := by
    obtain ⟨l, hl⟩ := lex_of_advance h
    cases hl
  same _ := rfl
  exhausts h := by
    obtain ⟨l, hl⟩ := lex_of_advance h
    cases hl

/-- The end of the script stays in front, and what comes behind it fails there. -/
theorem proceeds_ended {f g : Unit -> Parser β} {fault : SyntaxFault}
    (hend : r.current.token = .endOfFile)
    (hf : forall r1, r1.previous = r.current ->
      f () r1 = .error (.fault fault r.current.start))
    (hg : forall r1, r1.previous = r.current ->
      g () r1 = .error (.fault fault r.current.start)) :
    Proceeds must G fuel calls back r R (advance >>= f) (advance >>= g) := by
  cases hadvance : advance r with
  | error e =>
      obtain ⟨l, rfl⟩ := lex_of_advance hadvance
      exact proceeds_of_lex (bind_of_error hadvance) (bind_of_error hadvance)
  | ok result =>
      obtain ⟨u, r1⟩ := result
      have hprevious : r1.previous = r.current := Spot.previous_of_next (next_of_advance hadvance).1
      have hx : (advance >>= f) r = .error (.fault fault r.current.start) :=
        (bind_of_ok hadvance).trans (hf r1 hprevious)
      have hy : (advance >>= g) r = .error (.fault fault r.current.start) :=
        (bind_of_ok hadvance).trans (hg r1 hprevious)
      constructor
      · intro b r' hb
        rw [hx] at hb
        cases hb
      · intro f' p hfault
        rw [hx] at hfault
        cases hfault
        refine ⟨[], ⟨r.spot, .here, .inl rfl⟩, fun q o hq => ?_⟩
        cases hq with
        | here hsame =>
            have hcurrent : q.current = r.current := hsame.current
            have hnext := Spot.next_of_end hsame.scanned (hcurrent ▸ hend)
            exact (bind_of_ok (advance_of_next hnext)).trans (hf _ hcurrent)
      · intro _
        exact hy.trans hx.symm
      · intro hexhausted
        rw [hx] at hexhausted
        cases hexhausted

/-- The loop of a string takes a later part of it.  Of a string alone it says that the interpolation
in front is open. -/
theorem proceeds_looped {f g : Token -> Parser β} {x y : Unit -> Parser β}
    (ht : r.current.token.IsLater) (hf : f r.current.token = advance >>= x)
    (hg : g r.current.token = advance >>= y)
    (halone : forall s, f (.text s .whole) = failHere .openInterpolation)
    (h : forall r1, r.Passes r1 -> Proceeds false H fuel (calls + 8) true r1 R (x ()) (y ())) :
    Proceeds must (fun uses behind => exists rest, uses = ⟨r.current, true⟩ :: rest ∧ H rest behind)
      fuel calls back r R (current >>= f) (current >>= g) := by
  have hend : r.current.token ≠ .endOfFile := by
    intro heof
    rw [heof] at ht
    revert ht
    decide
  have hrun : Proceeds true (fun _ _ => True) fuel calls back r R (f r.current.token)
      (g r.current.token) := by
    rw [hf, hg]
    exact (proceeds_advance hend).pastOf (fun _ => h) fun _ _ _ _ _ => trivial
  refine hrun.looking (t := Spot.current) (fun _ _ => rfl) (fun _ _ h => h.current)
    fun b r' hb => ?_
  rw [current_spot, hf] at hb
  obtain ⟨u, r1, h1, h2⟩ := bind_eq_ok.mp hb
  obtain ⟨hnext, hsame⟩ := next_of_advance h1
  obtain ⟨uses, hgoes, -, hH, hR⟩ := (h r1 (passes_of_advance hend h1)).gives b r' h2
  refine ⟨⟨r.current, true⟩ :: uses, ⟨.past hend hnext hgoes.goes, fun q o hq => ?_⟩, nofun, ?_,
    hR⟩
  · rw [bind_of_ok (a := q.current.token) rfl]
    cases hq with
    | spoiled hlike hne =>
        have hcurrent : q.current = r.current.alone := hlike.current.resolve_left hne
        obtain ⟨s, hs⟩ := ht.exists_alone
        have hwhole : q.current.token = .text s .whole := (congrArg Spanned.token hcurrent).trans hs
        rw [hwhole, halone]
        show Except.error (ParseError.fault _ q.current.start) = _
        rw [hcurrent]
        rfl
    | stopped hlike hcurrent hstop =>
        rw [hcurrent rfl, current_spot, hf]
        exact bind_of_error (advance_of_stop hstop)
    | past hlike hcurrent hnext1 hnext' hrest =>
        rw [hcurrent rfl, current_spot, hf]
        rw [bind_of_ok (advance_of_next hnext'), ← hsame]
        cases hnext1.symm.trans hnext
        exact hgoes.elsewhere _ o hrest
  · intro hr
    have hpast : r.spot.Goes [⟨r.current, true⟩] r1.spot := .past hend hnext .here
    obtain ⟨-, hr1⟩ := hpast.tokens_eq hr
    exact ⟨uses, rfl, hH hr1⟩

/-- The token in front begins what comes behind it. -/
theorem proceeds_begin {f g : Unit -> Parser β} (hend : r.current.token ≠ .endOfFile)
    (h : forall r1, r.Passes r1 ->
      Proceeds false (fun uses behind => Taken (⟨r1.previous, false⟩ :: uses) behind) fuel
        (calls + 8) true r1 R (f ()) (g ())) :
    Proceeds must Taken fuel calls back r R (advance >>= f) (advance >>= g) := by
  have hbehind (r1 : Reading) (h1 : r.Passes r1) :
      Proceeds false (fun uses behind => Taken (⟨r.current, false⟩ :: uses) behind) fuel
        (calls + 8) true r1 R (f ()) (g ()) := h1.previous ▸ h r1 h1
  refine (proceeds_advance hend).pastOf (fun _ => hbehind) ?_
  intro _ uses behind hfirst huses
  rwa [hfirst]

/-- Any token but one that begins or goes on with a string may be passed. -/
theorem proceeds_pass {f g : Unit -> Parser β} (ht : r.current.token.part = .whole)
    (hend : r.current.token ≠ .endOfFile)
    (h : forall r1, r.Passes r1 -> Proceeds false Taken fuel (calls + 8) true r1 R (f ()) (g ())) :
    Proceeds must Taken fuel calls back r R (advance >>= f) (advance >>= g) := by
  refine ((proceeds_advance hend).uses ?_).past fun _ => h
  rintro _ behind rfl
  exact .plain ht .nil

theorem proceeds_at? {t : Token} {f g : Bool -> Parser β} (ht : t.Fixed)
    (h : Proceeds must G fuel calls back r R (f (r.current.token == t))
      (g (r.current.token == t))) :
    Proceeds must G fuel calls back r R (at? t >>= f) (at? t >>= g) := by
  simp only [at?, bind_assoc, pure_bind]
  refine proceeds_current (fun s part => .inl ?_) h
  rw [ht.beq, ht.beq]

theorem proceeds_atName {f g : Bool -> Parser β}
    (h : forall b, Proceeds must G fuel calls back r R (f b) (g b)) :
    Proceeds must G fuel calls back r R (atName >>= f) (atName >>= g) := by
  simp only [atName, bind_assoc, pure_bind]
  exact proceeds_current (fun _ _ => .inl rfl) (h _)

/-- The token in front decides which of two steps is taken. -/
theorem proceeds_accept {t : Token} {f g : Bool -> Parser β} (ht : t.Fixed)
    (hyes : forall r1, r.Passes r1 ->
      Proceeds false Taken fuel (calls + 8) true r1 R (f true) (g true))
    (hno : Proceeds must Taken fuel calls back r R (f false) (g false)) :
    Proceeds must Taken fuel calls back r R (accept t >>= f) (accept t >>= g) := by
  have haccept (k : Bool -> Parser β) : (accept t >>= k) = at? t >>= fun b =>
      if b = true then advance >>= fun _ => k true else k false := by
    simp only [accept, bind_assoc]
    congr 1
    funext b
    cases b <;> simp
  rw [haccept, haccept]
  refine proceeds_at? ht (Proceeds.ite (fun hc => ?_) fun _ => hno)
  rw [beq_iff_eq] at hc
  exact proceeds_pass (hc ▸ ht.part) (hc ▸ ht.ne_endOfFile) hyes

theorem proceeds_expect {t : Token} {what : String} (ht : t.Fixed) :
    Proceeds true Taken fuel calls back r (fun _ => r.Passes) (expect t what) (expect t what) := by
  refine proceeds_at? ht (Proceeds.ite (fun hc => ?_) fun _ => ?_)
  · rw [beq_iff_eq] at hc
    refine (proceeds_advance (hc ▸ ht.ne_endOfFile)).uses ?_
    rintro _ behind rfl
    exact .plain (hc ▸ ht.part) .nil
  · exact proceeds_current (fun _ _ => .inr (.inl (fails_failHere _))) (proceeds_failHere _)

theorem proceeds_expectName {what : String} :
    Proceeds true Taken fuel calls back r (fun _ => r.Passes) (expectName what)
      (expectName what) := by
  refine proceeds_current (fun _ _ => .inr (.inl (fails_failHere _))) ?_
  cases ht : r.current.token with
  | name s =>
      exact proceeds_pass (by rw [ht]; rfl) (by rw [ht]; nofun) fun r1 h1 => proceeds_pure h1
  | _ => exact proceeds_failHere _

theorem proceeds_key : Proceeds true Taken fuel calls back r (fun _ => r.Passes) key key := by
  refine proceeds_current (fun _ part => ?_) ?_
  · cases part with
    | whole => exact .inl rfl
    | _ => exact .inr (.inl (fails_failHere _))
  · cases ht : r.current.token with
    | name s =>
        exact proceeds_pass (by rw [ht]; rfl) (by rw [ht]; nofun) fun r1 h1 => proceeds_pure h1
    | text s part =>
        cases part with
        | whole =>
            exact proceeds_pass (by rw [ht]; rfl) (by rw [ht]; nofun) fun r1 h1 => proceeds_pure h1
        | _ => exact proceeds_failHere _
    | _ => exact proceeds_failHere _

theorem eq_update_of_compound? {t : Token} {op : Operator} (h : t.compound? = some op) :
    t = .update op := by
  cases t with
  | update => cases h; rfl
  | _ => cases h

/-- A compound assignment may be in front. -/
theorem proceeds_compound? {b : Bool} {f g : Option Operator -> Parser β}
    (hsome : forall op r1, r.Passes r1 ->
      Proceeds false Taken fuel (calls + 8) true r1 R (f (some op)) (g (some op)))
    (hnone : Proceeds must Taken fuel calls back r R (f none) (g none)) :
    Proceeds must Taken fuel calls back r R (compound? b >>= f) (compound? b >>= g) := by
  simp only [compound?, bind_assoc]
  refine proceeds_current (fun _ _ => .inl ?_) ?_
  · cases b <;> rfl
  · cases b with
    | false => simpa using hnone
    | true =>
        cases hop : r.current.token.compound? with
        | none => simpa using hnone
        | some op =>
            have ht := eq_update_of_compound? hop
            simp only [bind_assoc, pure_bind]
            exact proceeds_pass (by rw [ht]; rfl) (by rw [ht]; nofun) fun r1 h1 => hsome op r1 h1

/-! ## Names in a row -/

theorem proceeds_handlerName :
    Proceeds false Taken fuel calls true r (fun _ => r.Steps) handlerName handlerName := by
  refine proceeds_accept trivial (fun r1 h1 => ?_) (proceeds_atName fun _ => Proceeds.ite ?_ ?_)
  · refine proceeds_expectName.past fun name r2 h2 => ?_
    refine (proceeds_expect (by trivial)).past fun _ r3 h3 => proceeds_pure ?_
    exact h1.steps.trans (h2.steps.trans h3.steps)
  · exact fun _ => proceeds_expectName.past fun name r1 h1 => proceeds_pure h1.steps
  · exact fun _ => proceeds_pure (.refl r)

theorem proceeds_loopNames : Proceeds must Taken fuel calls true r
    (fun names r' => r.Steps r' ∧ (names.length = 1 ∨ names.length = 2)) loopNames loopNames := by
  refine proceeds_expectName.past fun first r1 h1 => ?_
  refine proceeds_accept trivial (fun r2 h2 => ?_) (proceeds_pure ⟨h1.steps, .inl rfl⟩)
  refine proceeds_expectName.past fun second r3 h3 => proceeds_pure ?_
  exact ⟨h1.steps.trans (h2.steps.trans h3.steps), .inr rfl⟩

theorem proceeds_declareAll (names : List String) (r : Reading) :
    Proceeds false Taken fuel calls true r (fun _ => r.Spells (.locals names.length))
      (names.forM declareSettled) (names.forM declareSettled) := by
  induction names generalizing r with
  | nil => exact proceeds_pure .none
  | cons name names ih =>
      exact proceeds_declareSettled fun s hs => (ih _).imp fun _ _ hlocals => .local hs hlocals

theorem proceeds_parameters (h : fuel <= more) (r : Reading) :
    Proceeds false Taken fuel 1 true r (fun n => r.Spells (.locals n)) (parameters fuel)
      (parameters more) := by
  induction fuel generalizing more r with
  | zero => exact proceeds_exhausted (by decide)
  | succ fuel ih =>
      obtain ⟨more, rfl⟩ := Nat.exists_eq_add_one.mpr (Nat.zero_lt_of_lt h)
      refine proceeds_at? trivial (Proceeds.ite (fun _ => proceeds_pure .none) fun _ => ?_)
      refine proceeds_expectName.past fun name r1 h1 => proceeds_declareSettled fun s hs => ?_
      refine proceeds_accept trivial (fun r2 h2 => ?_) (proceeds_pure ?_)
      · refine ((ih (Nat.le_of_succ_le_succ h) r2).call (by lia)).bind fun n r3 h3 => ?_
        exact proceeds_pure (.ahead h1.steps (.local hs (.ahead h2.steps h3)))
      · exact .ahead h1.steps (.local hs .none)

/-! ## Loops and functions -/

/-- A step that is taken in other surroundings and changes some of them at the end. -/
theorem Proceeds.around {s : Surroundings} (leave : Surroundings -> Surroundings)
    (h : Proceeds must G fuel calls back (r.spot.within s)
      (fun a r1 => Q a (r1.spot.within (leave r1.surroundings))) x y)
    (hx : forall q : Spot, x' (q.within r.surroundings) = (x (q.within s)).map fun p =>
      (p.1, p.2.spot.within (leave p.2.surroundings)))
    (hy : forall q : Spot, y' (q.within r.surroundings) = (y (q.within s)).map fun p =>
      (p.1, p.2.spot.within (leave p.2.surroundings))) :
    Proceeds must G fuel calls back r Q x' y' := by
  have hxr := hx r.spot
  have hyr := hy r.spot
  rw [spot_within] at hxr hyr
  constructor
  · intro a r' ha
    rw [hxr] at ha
    cases hrun : x (r.spot.within s) with
    | error e =>
        rw [hrun] at ha
        cases ha
    | ok result =>
        obtain ⟨a, r1⟩ := result
        rw [hrun] at ha
        cases ha
        obtain ⟨uses, hgoes, hmust, hG, hQ⟩ := h.gives a r1 hrun
        refine ⟨uses, ⟨hgoes.goes, fun q o hq => ?_⟩, hmust, hG, hQ⟩
        have hq' := hgoes.elsewhere q o hq
        rw [hx]
        cases o with
        | error e => exact congrArg (Except.map _) hq'
        | ok q' => exact congrArg (Except.map _) hq'
  · intro f p hf
    rw [hxr] at hf
    cases hrun : x (r.spot.within s) with
    | error e =>
        rw [hrun] at hf
        cases hf
        obtain ⟨uses, hstops⟩ := h.stops f p hrun
        refine ⟨uses, hstops.pointed, fun q o hq => ?_⟩
        have hq' := hstops.elsewhere q o hq
        rw [hx]
        cases o with
        | error e => exact congrArg (Except.map _) hq'
        | ok q' => exact congrArg (Except.map _) hq'
    | ok result =>
        rw [hrun] at hf
        cases hf
  · intro hne
    rw [hxr, hyr]
    have hinner : x (r.spot.within s) ≠ .error .exhausted := by
      intro hrun
      rw [hxr, hrun] at hne
      exact hne rfl
    rw [h.same hinner]
  · intro hexhausted
    rw [hxr] at hexhausted
    cases hrun : x (r.spot.within s) with
    | error e =>
        rw [hrun] at hexhausted
        cases hexhausted
        exact h.exhausts hrun
    | ok result =>
        rw [hrun] at hexhausted
        cases hexhausted

theorem map_eq_bind {ε γ δ : Type} (y : Except ε γ) (g : γ -> δ) :
    y.map g = y >>= fun c => .ok (g c) := by
  cases y <;> rfl

theorem Proceeds.inLoop
    (h : Proceeds must G fuel calls back r.looping (fun a r1 => Q a (r.behindLoop r1)) x y) :
    Proceeds must G fuel calls back r Q (inLoop x) (inLoop y) := by
  refine Proceeds.around (s := r.looping.surroundings) (fun s => { s with loop := r.loop }) h
    (fun q => ?_) fun q => ?_
  · rw [map_eq_bind]
    rfl
  · rw [map_eq_bind]
    rfl

theorem Proceeds.inFunction (h : Proceeds must G fuel calls back r.calling
      (fun a r1 => Q a { r1 with scope := r.scope, inFunction := r.inFunction, loop := r.loop })
      x y) :
    Proceeds must G fuel calls back r Q (inFunction x) (inFunction y) := by
  refine Proceeds.around (s := r.calling.surroundings)
    (fun s => { s with scope := r.scope, inFunction := r.inFunction, loop := r.loop }) h
    (fun q => ?_) fun q => ?_
  · rw [map_eq_bind]
    rfl
  · rw [map_eq_bind]
    rfl

end Course
end Parser
end StackScript
