import StackScript.Token.Lexer

/-!
# How a script is scanned

A token leaves the open interpolations as they are, begins or ends one, or changes the
number of braces inside the innermost one.  A scan goes from token to token until it is at
the end of the script with no interpolation open, or at a fault.
-/

namespace StackScript

/-- Tokens that have nothing to do with braces and interpolations. -/
def Token.Plain : Token -> Prop
  | .text _ part => part = .whole
  | .mark m => m ≠ .leftCurly ∧ m ≠ .rightCurly
  | .endOfFile => False
  | _ => True

def Token.IsNumber : Token -> Prop
  | .integer n => 0 <= n.toInt
  | .float _ => True
  | _ => False

def Token.IsSign : Token -> Prop
  | .keyword k => k = .not
  | .operator _ => True
  | .update _ => True
  | .comparison _ => True
  | .mark m => m ≠ .leftCurly ∧ m ≠ .rightCurly
  | _ => False

theorem Token.IsNumber.plain {t : Token} (h : t.IsNumber) : t.Plain := by
  cases t <;> trivial

theorem Token.IsSign.plain {t : Token} (h : t.IsSign) : t.Plain := by
  cases t <;> trivial

namespace Lexer

/-! ## One token -/

/-- What a token makes of the interpolations that are open in front of it. -/
inductive Nests : List Interpolation -> Token -> List Interpolation -> Prop where
  | plain {open_ : List Interpolation} {t : Token} : t.Plain -> Nests open_ t open_
  | outerOpening : Nests [] (.mark .leftCurly) []
  | outerClosing : Nests [] (.mark .rightCurly) []
  | opening {quote : Char} {depth : Nat} {outer : List Interpolation} :
      Nests (⟨quote, depth⟩ :: outer) (.mark .leftCurly) (⟨quote, depth + 1⟩ :: outer)
  | closing {quote : Char} {depth : Nat} {outer : List Interpolation} :
      Nests (⟨quote, depth + 1⟩ :: outer) (.mark .rightCurly) (⟨quote, depth⟩ :: outer)
  | first {quote : Char} {s : String} {outer : List Interpolation} :
      Nests outer (.text s .first) (⟨quote, 0⟩ :: outer)
  | middle {quote : Char} {s : String} {outer : List Interpolation} :
      Nests (⟨quote, 0⟩ :: outer) (.text s .middle) (⟨quote, 0⟩ :: outer)
  | last {quote : Char} {s : String} {outer : List Interpolation} :
      Nests (⟨quote, 0⟩ :: outer) (.text s .last) outer

theorem Nests.ne_endOfFile {open_ open' : List Interpolation} {t : Token}
    (h : Nests open_ t open') : t ≠ .endOfFile := by
  rintro rfl
  cases h with
  | plain ht => exact ht

section Kinds

variable {cs : List Char} {r : Token × Nat}

theorem integerToken_isNumber {n : Nat} {literal : String} {t : Token}
    (h : integerToken n literal = .ok t) : t.IsNumber := by
  unfold integerToken Notation.int64? at h
  split at h <;> cases h
  rename_i m hm
  split at hm <;> cases hm
  rename_i hrange
  simp only [Bool.and_eq_true, decide_eq_true_eq] at hrange
  show 0 <= (Int64.ofInt n).toInt
  have hmax : Int64.maxValue.toInt = 2 ^ 63 - 1 := rfl
  rw [Int64.toInt_ofInt_of_le] <;> lia

theorem Numeral.token_isNumber {n : Numeral} {t : Token} (h : n.token = .ok t) : t.IsNumber := by
  unfold Numeral.token at h
  split at h
  · exact integerToken_isNumber h
  · cases h
    trivial

theorem number_isNumber (h : number cs = .ok r) : r.1.IsNumber := by
  have hhex {cs : List Char} (h : hexNumber cs = .ok r) : r.1.IsNumber := by
    simp only [hexNumber] at h
    split at h
    · cases h
    · rcases ok_of_map_eq_ok h with ⟨t, ht, rfl⟩
      exact integerToken_isNumber ht
  unfold number at h
  split at h
  · exact hhex h
  · exact hhex h
  · rcases ok_of_map_eq_ok h with ⟨t, ht, rfl⟩
    exact Numeral.token_isNumber ht

theorem sign?_isSign (h : sign? cs = some r) : r.1.IsSign := by
  unfold sign? at h
  split at h <;> cases h <;> simp [Token.IsSign]

theorem ofWord_plain (s : String) : (Token.ofWord s).Plain := by
  unfold Token.ofWord
  split <;> trivial

end Kinds

theorem stringLexeme_nests {quote : Char} {cs : List Char} {open_ : List Interpolation}
    {l : Lexeme} (h : stringLexeme quote cs open_ = .ok l) : Nests open_ l.token l.nesting := by
  unfold stringLexeme at h
  split at h <;> cases h
  rename_i s hs
  simp only [Segment.lexeme]
  cases s.opens with
  | true => exact .first
  | false => exact .plain rfl

theorem openingBrace_nests (open_ : List Interpolation) :
    Nests open_ (openingBrace open_).token (openingBrace open_).nesting := by
  cases open_ with
  | nil => exact .outerOpening
  | cons top outer => exact .opening

theorem closingBrace_nests {cs : List Char} {open_ : List Interpolation} {l : Lexeme}
    (h : closingBrace cs open_ = .ok l) : Nests open_ l.token l.nesting := by
  unfold closingBrace at h
  split at h
  · cases h
    exact .outerClosing
  · rename_i top outer
    rcases top with ⟨quote, depth⟩
    split at h
    · rename_i hdepth
      cases hdepth
      split at h <;> cases h
      rename_i s hs
      simp only [Segment.lexeme]
      cases s.opens with
      | true => exact .middle
      | false => exact .last
    · rename_i hdepth
      cases h
      cases depth with
      | zero => exact absurd rfl hdepth
      | succ depth => exact .closing

theorem lexeme_nests {open_ : List Interpolation} {c : Char} {cs : List Char} {l : Lexeme}
    (h : lexeme open_ c cs = .ok l) : Nests open_ l.token l.nesting := by
  unfold lexeme at h
  split at h
  · exact stringLexeme_nests h
  · split at h
    · cases h
      exact openingBrace_nests open_
    · split at h
      · exact closingBrace_nests h
      · split at h
        · cases hn : number (c :: cs) with
          | error f => simp [hn, bind, Except.bind] at h
          | ok r =>
              simp only [hn, bind, Except.bind, pure, Except.pure, Except.ok.injEq] at h
              subst h
              exact .plain (number_isNumber hn).plain
        · split at h
          · cases h
            exact .plain (ofWord_plain _)
          · split at h
            · rename_i hs
              cases h
              exact .plain (sign?_isSign hs).plain
            · cases h

end Lexer

/-! ## Whole scripts -/

namespace Cursor

def past (c : Cursor) (l : Lexer.Lexeme) : Cursor :=
  { c.advance l.size with nesting := l.nesting }

/-- The tokens from a cursor on and how the scan ends: at the end of the script, or with an error
some characters behind the gap. -/
inductive Scans : Cursor -> List Spanned -> Option LexError -> Prop where
  | ended {c : Cursor} : c.skipGap.rest = [] -> c.nesting = [] ->
      Scans c [⟨.endOfFile, c.skipGap.position, c.skipGap.position.offset⟩] none
  | failed {c : Cursor} {fault : LexFault} {distance : Nat} :
      Scans c [] (some (.place fault (c.skipGap.advance distance).position))
  | token {c : Cursor} {first : Char} {rest : List Char} {l : Lexer.Lexeme} {ts : List Spanned}
      {e : Option LexError} : c.skipGap.rest = first :: rest ->
      Lexer.lexeme c.nesting first rest = .ok l -> Scans (c.skipGap.past l) ts e ->
      Scans c (⟨l.token, c.skipGap.position, (c.skipGap.past l).position.offset⟩ :: ts) e

section Next

variable {c c' : Cursor} {t : Spanned} {e : LexError}

theorem next_error (h : c.next = .error e) :
    exists fault distance, e = .place fault (c.skipGap.advance distance).position := by
  unfold next read at h
  split at h
  · split at h <;> cases h
    exact ⟨.unterminatedInterpolation, 0, rfl⟩
  · split at h <;> cases h
    rename_i f hf
    exact ⟨f.fault, f.distance, rfl⟩

theorem next_end (h : c.next = .ok (t, c')) (ht : t.token = .endOfFile) :
    c.skipGap.rest = [] ∧ c.nesting = [] ∧
      t = ⟨.endOfFile, c.skipGap.position, c.skipGap.position.offset⟩ := by
  unfold next read at h
  split at h
  · rename_i hrest
    split at h <;> cases h
    rename_i hnesting
    exact ⟨hrest, List.isEmpty_iff.mp hnesting, rfl⟩
  · split at h <;> cases h
    rename_i l hl
    exact absurd ht (Lexer.lexeme_nests hl).ne_endOfFile

theorem next_token (h : c.next = .ok (t, c')) (ht : t.token ≠ .endOfFile) :
    exists first rest l, c.skipGap.rest = first :: rest ∧
      Lexer.lexeme c.nesting first rest = .ok l ∧ c' = c.skipGap.past l ∧
      t = ⟨l.token, c.skipGap.position, (c.skipGap.past l).position.offset⟩ := by
  unfold next read at h
  split at h
  · split at h <;> cases h
    exact absurd rfl ht
  · rename_i first rest hrest
    split at h <;> cases h
    rename_i l hl
    exact ⟨first, rest, l, hrest, hl, rfl, rfl⟩

end Next

theorem scans_tokens (c : Cursor) : c.Scans c.tokens.1 c.tokens.2 := by
  fun_induction tokens c with
  | case1 c e h =>
      rcases next_error h with ⟨fault, distance, rfl⟩
      exact .failed
  | case2 c t c' h ht =>
      rcases next_end h ht with ⟨hrest, hnesting, rfl⟩
      exact .ended hrest hnesting
  | case3 c t c' h ht hshorter ts e htokens ih =>
      rcases next_token h ht with ⟨first, rest, l, hrest, hl, rfl, rfl⟩
      rw [htokens] at ih
      exact .token hrest hl ih

end Cursor

theorem scans_tokenize (source : String) :
    (Cursor.ofSource source).Scans (tokenize source).1 (tokenize source).2 :=
  Cursor.scans_tokens _

end StackScript
