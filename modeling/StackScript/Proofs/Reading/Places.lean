import Mathlib.Data.List.Forall2
import StackScript.Proofs.Reading.Basic
import StackScript.Proofs.Reading.Uses
import StackScript.Proofs.Token.Scan

/-!
# Going through tokens

A reading is a place in the text and what surrounds it.  A step of the reader goes from place to
place by drawing tokens, and it knows nothing of the tokens that it has not drawn.  The uses of the
tokens that it consumes say which places it passes, and so they say what becomes of the same step
from another place: it passes places that are beside them, or it stops on the way, where the scan
fails or where the loop of a string misses its part.
-/

namespace StackScript

/-- A place in the text: the tokens at hand, those to come, and what stands behind them. -/
structure Spot where
  previous : Spanned
  current : Spanned
  rest : List Spanned
  failure : Option LexError

def Reading.spot (r : Reading) : Spot :=
  ⟨r.previous, r.current, r.rest, r.failure⟩

/-- Tokens that end at the end of the script, or where the scan fails. -/
def Scanned : List Spanned -> Option LexError -> Prop
  | [], failure => failure ≠ none
  | t :: ts, failure =>
    if t.token = .endOfFile then ts = [] ∧ failure = none else Scanned ts failure

theorem Cursor.Scans.scanned {c : Cursor} {ts : List Spanned} {failure : Option LexError}
    (h : c.Scans ts failure) : Scanned ts failure := by
  induction h with
  | ended => exact ⟨rfl, rfl⟩
  | failed => exact Option.some_ne_none _
  | token hrest hl hscans ih =>
      rw [Scanned, if_neg (Lexer.lexeme_nests hl).ne_endOfFile]
      exact ih

namespace Spot

def tokens (p : Spot) : List Spanned :=
  p.current :: p.rest

def within (p : Spot) (s : Surroundings) : Reading :=
  { previous := p.previous
    current := p.current
    rest := p.rest
    failure := p.failure
    scope := s.scope
    inFunction := s.inFunction
    loop := s.loop
    definitions := s.definitions
    base := s.base }

/-- Reading cannot get past the last token in front, which is the end of the script unless the
text behind it is at fault. -/
def Ended (p : Spot) : Prop :=
  p.failure = none -> exists t, p.tokens.getLast? = some t ∧ t.token = .endOfFile

/-- The place behind the token in front.  The end of the script stays in front. -/
def next : Spot -> Except ParseError Spot
  | ⟨_, current, t :: rest, failure⟩ => .ok ⟨current, t, rest, failure⟩
  | ⟨_, _, [], some e⟩ => .error (.lex e)
  | ⟨_, current, [], none⟩ => .ok ⟨current, current, [], none⟩

/-- Behind the token in front stands the next one, or the end of the script is in front again. -/
theorem next_eq_ok {p p' : Spot} (h : p.next = .ok p') :
    (exists t rest, p.rest = t :: rest ∧ p' = ⟨p.current, t, rest, p.failure⟩) ∨
      p.rest = [] ∧ p.failure = none ∧ p' = { p with previous := p.current } := by
  rcases p with ⟨previous, current, rest, failure⟩
  cases rest with
  | cons t rest =>
      cases h
      exact .inl ⟨t, rest, rfl, rfl⟩
  | nil =>
      cases failure with
      | some e => cases h
      | none =>
          cases h
          exact .inr ⟨rfl, rfl, rfl⟩

theorem previous_of_next {p p' : Spot} (h : p.next = .ok p') : p'.previous = p.current := by
  rcases next_eq_ok h with ⟨t, rest, -, rfl⟩ | ⟨-, -, rfl⟩ <;> rfl

theorem mem_of_next {p p' : Spot} (h : p.next = .ok p') {t : Spanned}
    (ht : t ∈ p'.previous :: p'.tokens) : t ∈ p.tokens := by
  rcases next_eq_ok h with ⟨u, rest, hrest, rfl⟩ | ⟨hrest, -, rfl⟩
  · rw [tokens, hrest]
    exact ht
  · rcases List.mem_cons.mp ht with rfl | ht
    · exact List.mem_cons_self
    · exact ht

theorem lex_of_next {p : Spot} {e : ParseError} (h : p.next = .error e) :
    exists l, e = .lex l := by
  rcases p with ⟨previous, current, rest, failure⟩
  cases rest with
  | cons t rest => cases h
  | nil =>
      cases failure with
      | some l =>
          cases h
          exact ⟨l, rfl⟩
      | none => cases h

/-- Nothing stands behind the end of the script. -/
theorem next_of_end {p : Spot} (h : Scanned p.tokens p.failure)
    (hend : p.current.token = .endOfFile) : p.next = .ok { p with previous := p.current } := by
  rcases p with ⟨previous, current, rest, failure⟩
  obtain ⟨rfl, rfl⟩ : rest = [] ∧ failure = none := by
    rwa [tokens, Scanned, if_pos hend] at h
  rfl

/-! ## From place to place -/

/-- The tokens between the places are used. -/
inductive Goes : Spot -> List Use -> Spot -> Prop where
  | here {p : Spot} : Goes p [] p
  | past {p p1 p' : Spot} {looped : Bool} {uses : List Use} :
      p.current.token ≠ .endOfFile -> p.next = .ok p1 -> Goes p1 uses p' ->
      Goes p (⟨p.current, looped⟩ :: uses) p'

variable {p p1 p' q : Spot} {uses uses' : List Use}

theorem Goes.append (h : p.Goes uses p1) (h' : p1.Goes uses' p') : p.Goes (uses ++ uses') p' := by
  induction h with
  | here => exact h'
  | past hend hnext _ ih => exact .past hend hnext (ih h')

/-- Behind a token in front of which the end of the script or a fault stands, it still does. -/
theorem next_of_ended (h : p.Ended) (hend : p.current.token ≠ .endOfFile)
    (hnext : p.next = .ok p1) : p.rest = p1.tokens ∧ p1.failure = p.failure ∧ p1.Ended := by
  rcases next_eq_ok hnext with ⟨t, rest, hrest, rfl⟩ | ⟨hrest, hfailure, rfl⟩
  · refine ⟨hrest, rfl, fun hnone => ?_⟩
    obtain ⟨last, hlast, ht⟩ := h hnone
    rw [tokens, hrest] at hlast
    exact ⟨last, (List.getLast?_cons_cons).symm.trans hlast, ht⟩
  · obtain ⟨t, hlast, ht⟩ := h hfailure
    rw [tokens, hrest] at hlast
    cases hlast
    exact absurd ht hend

/-- What holds of a place and always holds behind the next token holds wherever reading goes. -/
theorem Goes.keeps {P : Spot -> Prop} (h : p.Goes uses p') (hp : P p)
    (hnext : forall p p' : Spot, p.next = .ok p' -> P p -> P p') : P p' := by
  induction h with
  | here => exact hp
  | past _ hn _ ih => exact ih (hnext _ _ hn hp)

theorem Goes.tokens_eq (h : p.Goes uses p') (hp : p.Ended) :
    p.tokens = usedTokens uses ++ p'.tokens ∧ p'.Ended := by
  induction h with
  | here => exact ⟨rfl, hp⟩
  | @past p p1 p' looped uses hend hnext _ ih =>
      obtain ⟨hrest, -, hp1⟩ := next_of_ended hp hend hnext
      obtain ⟨htokens, hp'⟩ := ih hp1
      refine ⟨?_, hp'⟩
      rw [tokens, hrest, htokens]
      rfl

/-! ## The same uses from another place -/

/-- From the second place the tokens are used as from the first one, from which they lead to
others, as long as the places that are passed are beside each other.  The outcome is the place
behind them, or the reason to stop. -/
inductive Meets (Beside : Spot -> Spot -> Prop) :
    Spot -> List Use -> Spot -> Except ParseError Spot -> Prop where
  | here {p q : Spot} : Beside p q -> Meets Beside p [] q (.ok q)
  | spoiled {p q : Spot} {uses : List Use} : Beside p q -> q.current ≠ p.current ->
      Meets Beside p (⟨p.current, true⟩ :: uses) q
        (.error (.fault .openInterpolation p.current.start))
  | stopped {p q : Spot} {looped : Bool} {uses : List Use} {e : ParseError} : Beside p q ->
      (looped = true -> q.current = p.current) -> q.next = .error e ->
      Meets Beside p (⟨p.current, looped⟩ :: uses) q (.error e)
  | past {p p1 q q1 : Spot} {looped : Bool} {uses : List Use} {o : Except ParseError Spot} :
      Beside p q -> (looped = true -> q.current = p.current) -> p.next = .ok p1 ->
      q.next = .ok q1 -> Meets Beside p1 uses q1 o ->
      Meets Beside p (⟨p.current, looped⟩ :: uses) q o

/-- Places at hand of which are the same tokens, but for later parts of strings that are put
alone. -/
structure Like (p q : Spot) : Prop where
  previous : p.previous.Like q.previous
  current : p.current.Like q.current

/-- Places at hand of which are the same tokens. -/
structure Same (p q : Spot) : Prop where
  previous : q.previous = p.previous
  current : q.current = p.current
  scanned : Scanned q.tokens q.failure

theorem Same.like (h : p.Same q) : p.Like q :=
  ⟨.inl h.previous, .inl h.current⟩

variable {Beside Beside' : Spot -> Spot -> Prop} {o : Except ParseError Spot}

theorem Meets.beside (h : Meets Beside p uses q o) : Beside p q := by
  cases h with
  | here h | spoiled h | stopped h | past h => exact h

theorem Meets.imp (h : Meets Beside p uses q o) (himp : forall p q, Beside p q -> Beside' p q) :
    Meets Beside' p uses q o := by
  induction h with
  | here h => exact .here (himp _ _ h)
  | spoiled h hne => exact .spoiled (himp _ _ h) hne
  | stopped h hlooped hnext => exact .stopped (himp _ _ h) hlooped hnext
  | past h hlooped hnext hnext' _ ih => exact .past (himp _ _ h) hlooped hnext hnext' ih

/-- Uses in a row: the other step stops within the first ones, or it gets behind them. -/
theorem Meets.split (h : Meets Beside p (uses ++ uses') q o) (hgoes : p.Goes uses p1) :
    (exists e, o = .error e ∧ Meets Beside p uses q (.error e)) ∨
      exists q1, Meets Beside p uses q (.ok q1) ∧ Meets Beside p1 uses' q1 o := by
  induction hgoes generalizing q with
  | here => exact .inr ⟨q, .here h.beside, h⟩
  | past _ hnext _ ih =>
      cases h with
      | spoiled h hne => exact .inl ⟨_, rfl, .spoiled h hne⟩
      | stopped h hlooped hstop => exact .inl ⟨_, rfl, .stopped h hlooped hstop⟩
      | past h hlooped hnext1 hnext' hrest =>
          cases hnext1.symm.trans hnext
          rcases ih hrest with ⟨e, ho, hstops⟩ | ⟨q1, hgets, hrest⟩
          · exact .inl ⟨e, ho, .past h hlooped hnext hnext' hstops⟩
          · exact .inr ⟨q1, .past h hlooped hnext hnext' hgets, hrest⟩

end Spot

/-! ## Steps of a reading -/

namespace Reading

variable {r r1 r' : Reading}

/-- Tokens are consumed, and nothing else changes. -/
def Steps (r r' : Reading) : Prop :=
  r'.surroundings = r.surroundings ∧ exists uses, r.spot.Goes uses r'.spot

theorem Steps.refl (r : Reading) : r.Steps r :=
  ⟨rfl, [], .here⟩

theorem Steps.trans (h : r.Steps r1) (h' : r1.Steps r') : r.Steps r' := by
  obtain ⟨hsame, uses, hgoes⟩ := h
  obtain ⟨hsame', uses', hgoes'⟩ := h'
  exact ⟨hsame'.trans hsame, uses ++ uses', hgoes.append hgoes'⟩

/-- The second reading is behind the token that is in front of the first one. -/
structure Passes (r r' : Reading) : Prop where
  steps : r.Steps r'
  previous : r'.previous = r.current

end Reading
end StackScript
