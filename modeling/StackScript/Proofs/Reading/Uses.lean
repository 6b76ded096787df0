import StackScript.Script.Parser

/-!
# What becomes of a token

A token in front of a reader is used in one of two ways.  The loop behind the first part of a
string takes it as a later part of that string, or it is used in any other way.  The two ways
differ in what happens if a later part of a string is put as a string of its own.  The loop does
not take a string of its own and stops there; any other use takes a later part for a string of
its own anyway, and nothing changes.

The uses of the tokens that a step of the reader consumes say how these tokens nest.
-/

namespace StackScript

/-! ## Parts of strings -/

/-- Where a token stands in its string.  What is no text stands for itself. -/
def Token.part : Token -> TextPart
  | .text _ part => part
  | _ => .whole

/-- A part of a string behind an interpolation. -/
def Token.IsLater (t : Token) : Prop :=
  t.part = .middle ∨ t.part = .last

instance (t : Token) : Decidable t.IsLater :=
  inferInstanceAs (Decidable (t.part = .middle ∨ t.part = .last))

/-- A later part of a string as a string of its own. -/
def Token.alone : Token -> Token
  | .text s .middle => .text s .whole
  | .text s .last => .text s .whole
  | t => t

theorem Token.alone_cases (t : Token) :
    t.alone = t ∨ exists s part, t = .text s part ∧ t.alone = .text s .whole := by
  cases t with
  | text s part =>
      cases part with
      | middle | last => exact .inr ⟨s, _, rfl, rfl⟩
      | whole | first => exact .inl rfl
  | _ => exact .inl rfl

theorem Token.IsLater.exists_alone {t : Token} (ht : t.IsLater) :
    exists s, t.alone = .text s .whole := by
  cases t with
  | text s part =>
      cases part with
      | middle | last => exact ⟨s, rfl⟩
      | whole | first => rcases ht with h | h <;> cases h
  | _ => rcases ht with h | h <;> cases h

/-- A mark or a word of the language. -/
def Token.Fixed : Token -> Prop
  | .mark _ | .keyword _ => True
  | _ => False

theorem Token.Fixed.part {t : Token} (ht : t.Fixed) : t.part = .whole := by
  cases t with
  | mark | keyword => rfl
  | _ => exact ht.elim

theorem Token.Fixed.ne_endOfFile {t : Token} (ht : t.Fixed) : t ≠ .endOfFile := by
  rintro rfl
  exact ht

theorem Token.Fixed.beq {t : Token} (ht : t.Fixed) (s : String) (part : TextPart) :
    (Token.text s part == t) = false := by
  refine beq_eq_false_iff_ne.mpr ?_
  rintro rfl
  exact ht

def Spanned.alone (t : Spanned) : Spanned :=
  { t with token := t.token.alone }

/-- The same token, or the one that it is alone. -/
def Spanned.Like (t t' : Spanned) : Prop :=
  t' = t ∨ t' = t.alone

theorem Spanned.Like.start {t t' : Spanned} (h : t.Like t') : t'.start = t.start := by
  rcases h with rfl | rfl <;> rfl

namespace Reading

def tokens (r : Reading) : List Spanned :=
  r.current :: r.rest

/-- Reading cannot get past the last token in front, which is the end of the script unless the
text behind it is at fault. -/
def Ended (r : Reading) : Prop :=
  r.failure = none -> exists t, r.tokens.getLast? = some t ∧ t.token = .endOfFile

end Reading

/-! ## Uses -/

/-- A token that has been consumed, and whether the loop of a string took it. -/
structure Use where
  token : Spanned
  looped : Bool
  deriving DecidableEq

def usedTokens (uses : List Use) : List Spanned :=
  uses.map Use.token

/-- The place of the first token that a loop should take but that is another one. -/
def spoiled? : List Use -> List Spanned -> Option Position
  | u :: uses, t :: ts =>
    if u.looped = true ∧ t ≠ u.token then some u.token.start else spoiled? uses ts
  | _, _ => none

/-- Some expression goes from the tokens in front of it to those behind it. -/
def Reads (ts ts' : List Spanned) : Prop :=
  exists fuel r e r', Parser.expression fuel .assign r = .ok (e, r') ∧ r.tokens = ts ∧
    r'.tokens = ts'

mutual

/-- Uses of tokens where strings are complete, and later parts of strings that no loop has taken
may stand between them.  The second list are the tokens behind. -/
inductive Taken : List Use -> List Spanned -> Prop where
  | nil {behind : List Spanned} : Taken [] behind
  | plain {t : Spanned} {uses : List Use} {behind : List Spanned} : t.token.part = .whole ->
      Taken uses behind -> Taken (⟨t, false⟩ :: uses) behind
  | stray {t : Spanned} {uses : List Use} {behind : List Spanned} : t.token.IsLater ->
      Taken uses behind -> Taken (⟨t, false⟩ :: uses) behind
  | string {t : Spanned} {inner uses : List Use} {behind : List Spanned} :
      t.token.part = .first -> Continued inner (usedTokens uses ++ behind) ->
      Taken uses behind -> Taken (⟨t, false⟩ :: (inner ++ uses)) behind

/-- Uses of tokens by the loop of a string, behind its first part. -/
inductive Continued : List Use -> List Spanned -> Prop where
  | last {t : Spanned} {segment : List Use} {behind : List Spanned} :
      Taken segment (t :: behind) -> segment ≠ [] ->
      Reads (usedTokens segment ++ t :: behind) (t :: behind) -> t.token.part = .last ->
      Continued (segment ++ [⟨t, true⟩]) behind
  | middle {t : Spanned} {segment rest : List Use} {behind : List Spanned} :
      Taken segment (t :: (usedTokens rest ++ behind)) -> segment ≠ [] ->
      Reads (usedTokens segment ++ t :: (usedTokens rest ++ behind))
        (t :: (usedTokens rest ++ behind)) -> t.token.part = .middle ->
      Continued rest behind -> Continued (segment ++ ⟨t, true⟩ :: rest) behind

end

theorem usedTokens_append (uses uses' : List Use) :
    usedTokens (uses ++ uses') = usedTokens uses ++ usedTokens uses' :=
  List.map_append

theorem Taken.append : forall {uses uses' : List Use} {ahead behind : List Spanned},
    Taken uses ahead -> ahead = usedTokens uses' ++ behind -> Taken uses' behind ->
    Taken (uses ++ uses') behind
  | _, _, _, _, .nil, _, h' => h'
  | _, _, _, _, .plain ht h, hahead, h' => .plain ht (h.append hahead h')
  | _, _, _, _, .stray ht h, hahead, h' => .stray ht (h.append hahead h')
  | _, _, _, _, .string ht hinner h, hahead, h' => by
      rw [List.cons_append, List.append_assoc]
      refine .string ht ?_ (h.append hahead h')
      rwa [usedTokens_append, List.append_assoc, ← hahead]

end StackScript
