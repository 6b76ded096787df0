import Mathlib.Algebra.Group.Nat.Defs
import Mathlib.Data.List.Basic
import StackScript.Proofs.Token.Literal

/-!
# Words of a script

A word is a token together with one way to write it.  Words that are written one
after another with a space between them are read back as their tokens: each word
ends where the space begins, because no space can go on with it.
-/

namespace StackScript

/-! ## Words -/

/-- Whether a text is read as a name. -/
def isName (s : String) : Bool :=
  match s.toList with
  | [] => false
  | c :: cs => Lexer.isNameStart c && cs.all Lexer.isNameChar && Token.ofWord s == .name s

/-- A name of a script. -/
structure Name where
  text : String
  valid : isName text
  deriving DecidableEq

theorem Name.text_ne_empty (x : Name) : x.text ≠ "" := by
  intro h
  have hvalid := x.valid
  rw [h] at hvalid
  cases hvalid

/-- A float literal: digits on both sides of a point. -/
structure Fraction where
  whole : List Char
  digits : List Char
  whole_ne_nil : whole ≠ []
  digits_ne_nil : digits ≠ []
  whole_isDigit : forall c, c ∈ whole -> c.isDigit
  digits_isDigit : forall c, c ∈ digits -> c.isDigit

def Fraction.value (x : Fraction) : Binary64 :=
  (Notation.decimalOf x.whole x.digits 0).round false

/-- A token that can be written. -/
inductive Word where
  | integer (n : Fin (2 ^ 63))
  | float (x : Fraction)
  | text (s : String)
  | name (n : Name)
  | keyword (k : Keyword)
  | operator (op : Operator)
  | update (op : Operator)
  | comparison (c : Comparison)
  | mark (m : Mark)

namespace Word

def spelling : Word -> String
  | integer n => toString n.val
  | float x => String.ofList (x.whole ++ '.' :: x.digits)
  | text s => String.ofList ('"' :: (Lexer.escape '"' s.toList ++ ['"']))
  | name n => n.text
  | keyword k => k.word
  | operator op => op.symbol
  | update op => op.symbol ++ "="
  | comparison c => c.symbol
  | mark m => m.symbol

def token : Word -> Token
  | integer n => .integer (Int64.ofNat n)
  | float x => .float x.value
  | text s => .text s .whole
  | name n => .name n.text
  | keyword k => .keyword k
  | operator op => .operator op
  | update op => .update op
  | comparison c => .comparison c
  | mark m => .mark m

/-- Words with one space between them. -/
def line (ws : List Word) : String :=
  " ".intercalate (ws.map spelling)

end Word

namespace Lexer

/-! ## Where a word ends -/

/-- What may stand behind a word: nothing or a space. -/
def Apart (rest : List Char) : Prop :=
  rest = [] ∨ exists cs, rest = ' ' :: cs

/-- Characters that are read as a token, whatever stands apart behind them. -/
def Spells (cs : List Char) (t : Token) : Prop :=
  exists first others, cs = first :: others ∧ (isSpace first || first == '#') = false ∧
    forall rest, Apart rest ->
      lexeme [] first (others ++ rest) = .ok ⟨t, others.length + 1, []⟩

theorem takeWhile_append_of_apart {p : Char -> Bool} {cs rest : List Char}
    (hspace : p ' ' = false) (h : forall c, c ∈ cs -> p c) (hrest : Apart rest) :
    (cs ++ rest).takeWhile p = cs := by
  rw [List.takeWhile_append_of_pos h]
  rcases hrest with rfl | ⟨rest, rfl⟩
  · simp
  · simp [hspace]

theorem dropWhile_append_of_apart {p : Char -> Bool} {cs rest : List Char}
    (hspace : p ' ' = false) (h : forall c, c ∈ cs -> p c) (hrest : Apart rest) :
    (cs ++ rest).dropWhile p = rest := by
  rw [List.dropWhile_append_of_pos h]
  rcases hrest with rfl | ⟨rest, rfl⟩
  · rfl
  · simp [hspace]

/-! ## Names and keywords -/

theorem isNameStart_iff {c : Char} :
    isNameStart c ↔ (65 <= c.toNat ∧ c.toNat <= 90) ∨ (97 <= c.toNat ∧ c.toNat <= 122) ∨
      c.toNat = 95 := by
  have hunder : c = '_' ↔ c.toNat = 95 := by
    rw [← Char.toNat_inj]
    rfl
  have hletter : isNameStart c = (decide (c.val >= 'A'.val ∧ c.val <= 'Z'.val) ||
      decide (c.val >= 'a'.val) && decide (c.val <= 'z'.val) || c == '_') := rfl
  simp only [hletter, Bool.or_eq_true, beq_iff_eq, hunder, decide_eq_true_eq, Bool.and_eq_true,
    UInt32.le_iff_toNat_le, ge_iff_le]
  rw [or_assoc]
  rfl

theorem isDigit_iff {c : Char} : c.isDigit ↔ 48 <= c.toNat ∧ c.toNat <= 57 := by
  simp only [Char.isDigit, Bool.and_eq_true, decide_eq_true_eq, UInt32.le_iff_toNat_le, ge_iff_le]
  rfl

theorem spells_word {c : Char} {cs : List Char} (hc : isNameStart c)
    (hcs : forall d, d ∈ cs -> isNameChar d) :
    Spells (c :: cs) (Token.ofWord (String.ofList (c :: cs))) := by
  have hrange := isNameStart_iff.mp hc
  have hne (d : Char) (hd : isNameStart d = false) : c ≠ d := by
    rintro rfl
    rw [hc] at hd
    cases hd
  have hdigit : c.isDigit = false := by
    rw [Bool.eq_false_iff]
    intro h
    have := isDigit_iff.mp h
    lia
  refine ⟨c, cs, rfl, ?_, ?_⟩
  · simp [isSpace, hne ' ' rfl, hne '\t' rfl, hne '\r' rfl, hne '\n' rfl, hne '#' rfl]
  · intro rest hrest
    have htake := takeWhile_append_of_apart (by rfl) hcs hrest
    simp [lexeme, hne '"' rfl, hne '\'' rfl, hne '{' rfl, hne '}' rfl, hdigit, hc, htake]

theorem spells_name (n : Name) : Spells n.text.toList (.name n.text) := by
  have hvalid := n.valid
  unfold isName at hvalid
  split at hvalid
  · cases hvalid
  · rename_i c cs hcs
    simp only [Bool.and_eq_true, List.all_eq_true, beq_iff_eq] at hvalid
    rcases hvalid with ⟨⟨hc, hall⟩, htoken⟩
    have hspells := spells_word hc hall
    rw [← hcs, String.ofList_toList, htoken] at hspells
    exact hspells

theorem spells_keyword (k : Keyword) : Spells k.word.toList (.keyword k) := by
  have hword : exists c cs, k.word.toList = c :: cs ∧ isNameStart c ∧ cs.all isNameChar := by
    cases k <;> exact ⟨_, _, rfl, rfl, rfl⟩
  rcases hword with ⟨c, cs, hcs, hc, hall⟩
  have hspells := spells_word hc (List.all_eq_true.mp hall)
  have htoken : Token.ofWord k.word = .keyword k := by
    cases k <;> rfl
  rw [← hcs, String.ofList_toList, htoken] at hspells
  exact hspells

/-! ## Numbers -/

theorem spells_number {c : Char} {cs : List Char} {t : Token} (hc : c.isDigit)
    (h : forall rest, Apart rest -> number (c :: (cs ++ rest)) = .ok (t, cs.length + 1)) :
    Spells (c :: cs) t := by
  have hrange := isDigit_iff.mp hc
  have hne (d : Char) (hd : d.isDigit = false) : c ≠ d := by
    rintro rfl
    rw [hc] at hd
    cases hd
  refine ⟨c, cs, rfl, ?_, ?_⟩
  · simp [isSpace, hne ' ' rfl, hne '\t' rfl, hne '\r' rfl, hne '\n' rfl, hne '#' rfl]
  · intro rest hrest
    simp [lexeme, hne '"' rfl, hne '\'' rfl, hne '{' rfl, hne '}' rfl, hc, h rest hrest, bind,
      Except.bind, pure, Except.pure]

/-- Digits without the mark of a hexadecimal number behind the first one are decimal. -/
theorem number_eq_decimalNumber {cs : List Char}
    (h : forall c, cs[1]? = some c -> c ≠ 'x' ∧ c ≠ 'X') : number cs = decimalNumber cs := by
  unfold number
  split
  · exact absurd rfl (h 'x' rfl).1
  · exact absurd rfl (h 'X' rfl).2
  · rfl

theorem number_digits {ds rest : List Char} (h : forall c, c ∈ ds -> c.isDigit)
    (hrest : forall c, rest.head? = some c -> c ≠ 'x' ∧ c ≠ 'X') (hne : ds ≠ []) :
    number (ds ++ rest) = decimalNumber (ds ++ rest) := by
  apply number_eq_decimalNumber
  intro c hc
  match ds, hne with
  | [d], _ =>
      apply hrest
      rw [List.head?_eq_getElem?]
      exact hc
  | d :: e :: ds, _ =>
      have he : e.isDigit := h e (by simp)
      cases hc
      constructor
      · rintro rfl
        cases he
      · rintro rfl
        cases he

theorem Apart.head_not_hex {rest : List Char} (h : Apart rest) (c : Char)
    (hc : rest.head? = some c) : c ≠ 'x' ∧ c ≠ 'X' := by
  rcases h with rfl | ⟨cs, rfl⟩
  · cases hc
  · cases hc
    decide

theorem ofChars_whole {ds rest : List Char} (h : forall c, c ∈ ds -> c.isDigit)
    (hrest : Apart rest) : Numeral.ofChars (ds ++ rest) = ⟨ds, [], [], []⟩ := by
  simp only [Numeral.ofChars, takeWhile_append_of_apart (by rfl) h hrest,
    dropWhile_append_of_apart (by rfl) h hrest]
  rcases hrest with rfl | ⟨cs, rfl⟩
  · rfl
  · simp [fractionDigits, exponentDigits]

theorem ofChars_fraction {whole digits rest : List Char} (hwhole : forall c, c ∈ whole -> c.isDigit)
    (hdigits : forall c, c ∈ digits -> c.isDigit) (hne : digits ≠ []) (hrest : Apart rest) :
    Numeral.ofChars (whole ++ ('.' :: (digits ++ rest))) = ⟨whole, digits, [], []⟩ := by
  have htake : (whole ++ ('.' :: (digits ++ rest))).takeWhile Char.isDigit = whole := by
    rw [List.takeWhile_append_of_pos hwhole]
    simp
  have hdrop : (whole ++ ('.' :: (digits ++ rest))).dropWhile Char.isDigit =
      '.' :: (digits ++ rest) := by
    rw [List.dropWhile_append_of_pos hwhole]
    rfl
  have hafter : exponentDigits rest = ([], []) := by
    rcases hrest with rfl | ⟨cs, rfl⟩
    · rfl
    · simp [exponentDigits]
  simp [Numeral.ofChars, htake, hdrop, fractionDigits,
    takeWhile_append_of_apart (by rfl) hdigits hrest, hne, hafter]

theorem int64?_of_lt {n : Nat} (h : n < 2 ^ 63) : Notation.int64? n = some (Int64.ofNat n) := by
  have hmax : (n : Int) <= Int64.maxValue.toInt := by
    have : Int64.maxValue.toInt = 2 ^ 63 - 1 := rfl
    lia
  simp [Notation.int64?, hmax, Int64.ofInt_eq_ofNat]

theorem spells_integer (n : Fin (2 ^ 63)) :
    Spells (toString n.val).toList (.integer (Int64.ofNat n)) := by
  have hdigits : (toString n.val).toList = Nat.toDigits 10 n := Nat.toList_repr
  have hvalue : Notation.natOfNumeral (Nat.toDigits 10 n) = n := by
    rw [Notation.natOfNumeral_eq]
    exact Nat.ofDigitChars_ten_toDigits
  have hall : forall c, c ∈ Nat.toDigits 10 n -> c.isDigit := by
    intro c hc
    exact Nat.isDigit_of_mem_toDigits (by decide) (by decide) hc
  rw [hdigits]
  match hcs : Nat.toDigits 10 n with
  | [] => exact absurd hcs Nat.toDigits_ne_nil
  | c :: cs =>
      rw [hcs] at hvalue hall
      apply spells_number (hall c (by simp))
      intro rest hrest
      rw [← List.cons_append, number_digits hall hrest.head_not_hex (by simp)]
      simp only [decimalNumber, ofChars_whole hall hrest]
      simp [Numeral.token, Numeral.size, integerToken, hvalue, int64?_of_lt n.isLt, Except.map]

theorem spells_float (x : Fraction) :
    Spells (x.whole ++ '.' :: x.digits) (.float x.value) := by
  match hcs : x.whole with
  | [] => exact absurd hcs x.whole_ne_nil
  | c :: cs =>
      have hall : forall d, d ∈ c :: cs -> d.isDigit := hcs ▸ x.whole_isDigit
      apply spells_number (hall c (by simp))
      intro rest hrest
      have hrest' : forall d, ('.' :: (x.digits ++ rest)).head? = some d -> d ≠ 'x' ∧ d ≠ 'X' := by
        rintro d ⟨⟩
        decide
      have hform : c :: (cs.append ('.' :: x.digits) ++ rest) =
          (c :: cs) ++ ('.' :: (x.digits ++ rest)) := by
        simp
      rw [hform, number_digits hall hrest' (by simp)]
      simp only [decimalNumber, ofChars_fraction hall x.digits_isDigit x.digits_ne_nil hrest]
      simp [Numeral.token, Numeral.size, x.digits_ne_nil, Except.map, Fraction.value, hcs,
        Notation.exponentOf]
      lia

/-! ## String literals -/

theorem spells_text (s : String) :
    Spells ('"' :: (escape '"' s.toList ++ ['"'])) (.text s .whole) := by
  refine ⟨'"', _, rfl, rfl, ?_⟩
  intro rest _
  have hread := segment_escape (Or.inl rfl) s.toList (segment_quote rest)
  simp [lexeme, stringLexeme, hread, Segment.lexeme]

/-! ## Signs -/

theorem spells_operator (op : Operator) : Spells op.symbol.toList (.operator op) := by
  cases op <;>
    exact ⟨_, _, rfl, rfl, by rintro rest (rfl | ⟨cs, rfl⟩) <;> rfl⟩

theorem spells_update (op : Operator) : Spells (op.symbol ++ "=").toList (.update op) := by
  cases op <;>
    exact ⟨_, _, rfl, rfl, by rintro rest (rfl | ⟨cs, rfl⟩) <;> rfl⟩

theorem spells_comparison (c : Comparison) : Spells c.symbol.toList (.comparison c) := by
  cases c <;>
    exact ⟨_, _, rfl, rfl, by rintro rest (rfl | ⟨cs, rfl⟩) <;> rfl⟩

theorem spells_mark (m : Mark) : Spells m.symbol.toList (.mark m) := by
  cases m <;>
    exact ⟨_, _, rfl, rfl, by rintro rest (rfl | ⟨cs, rfl⟩) <;> rfl⟩

/-- Every word is read as its token. -/
theorem spells (w : Word) : Spells w.spelling.toList w.token := by
  cases w with
  | integer n => exact spells_integer n
  | float x => simpa [Word.spelling, Word.token] using spells_float x
  | text s => simpa [Word.spelling, Word.token] using spells_text s
  | name n => exact spells_name n
  | keyword k => exact spells_keyword k
  | operator op => exact spells_operator op
  | update op => exact spells_update op
  | comparison c => exact spells_comparison c
  | mark m => exact spells_mark m

end Lexer

/-! ## Lines of words -/

namespace Cursor

theorem tokens_of_ok {c c' : Cursor} {t : Spanned} (h : c.next = .ok (t, c')) :
    c.tokens = if t.token = .endOfFile then ([t], none) else (t :: c'.tokens.1, c'.tokens.2) := by
  rw [tokens]
  split
  · rename_i e he
    rw [h] at he
    cases he
  · rename_i t' c'' heq
    rw [h] at heq
    cases heq
    rfl

theorem tokens_of_next {c c' : Cursor} {t : Spanned} (h : c.next = .ok (t, c'))
    (ht : t.token ≠ .endOfFile) : c.tokens = (t :: c'.tokens.1, c'.tokens.2) := by
  rw [tokens_of_ok h, if_neg ht]

theorem tokens_of_end {c c' : Cursor} {t : Spanned} (h : c.next = .ok (t, c'))
    (ht : t.token = .endOfFile) : c.tokens = ([t], none) := by
  rw [tokens_of_ok h, if_pos ht]

section Spelled

variable {α : Type} (spelling : α -> String) (token : α -> Token)

/-- What is read as its token, which is not the end of the script. -/
def IsSpelled (w : α) : Prop :=
  Lexer.Spells (spelling w).toList (token w) ∧ token w ≠ .endOfFile

theorem apart_spelled (ws : List α) :
    Lexer.Apart (ws.flatMap fun w => ' ' :: (spelling w).toList) := by
  cases ws with
  | nil => exact Or.inl rfl
  | cons w ws => exact Or.inr ⟨_, rfl⟩

variable {spelling token}

/-- A word is read from its beginning or from a space in front of it, and the cursor then stands
behind the word. -/
theorem tokens_spelled {w : α} {c : Cursor} {pre rest : List Char}
    (hw : IsSpelled spelling token w) (hpre : pre = [] ∨ pre = [' '])
    (hapart : Lexer.Apart rest) (hnest : c.nesting = [])
    (hrest : c.rest = pre ++ ((spelling w).toList ++ rest)) :
    exists (s : Spanned) (c' : Cursor), c.tokens = (s :: c'.tokens.1, c'.tokens.2) ∧
      s.token = token w ∧ c'.rest = rest ∧ c'.nesting = [] := by
  rcases hw with ⟨⟨first, others, hcs, hfirst, hlex⟩, hend⟩
  rw [Bool.or_eq_false_iff] at hfirst
  rw [hcs] at hrest
  have hgap : Lexer.gap false c.rest = pre.length := by
    have hspace : Lexer.isSpace ' ' = true := rfl
    rw [hrest]
    rcases hpre with rfl | rfl <;> simp [Lexer.gap, hfirst, hspace]
  have hskip : c.skipGap.rest = first :: (others ++ rest) := by
    simp only [skipGap, advance, hgap]
    rw [hrest, List.drop_left, List.cons_append]
  have hnest' : c.skipGap.nesting = [] := hnest
  have hnext : c.next = .ok (⟨token w, c.skipGap.position,
      (c.skipGap.advance (others.length + 1)).position.offset⟩,
      { c.skipGap.advance (others.length + 1) with nesting := [] }) := by
    unfold next read
    rw [hskip, hnest']
    simp only [hlex rest hapart]
  refine ⟨_, _, tokens_of_next hnext hend, rfl, ?_, rfl⟩
  simp [advance, hskip]

/-- Behind a space each, words are read one after another. -/
theorem tokens_allSpelled {ws : List α} (hws : forall w, w ∈ ws -> IsSpelled spelling token w)
    {c : Cursor} (hnest : c.nesting = [])
    (hrest : c.rest = ws.flatMap fun w => ' ' :: (spelling w).toList) :
    exists ts, c.tokens = (ts, none) ∧
      ts.map Spanned.token = ws.map token ++ [Token.endOfFile] := by
  induction ws generalizing c with
  | nil =>
      have hskip : c.skipGap.rest = [] := by
        simp [skipGap, advance, hrest]
      have hnest' : c.skipGap.nesting = [] := hnest
      have hnext : c.next =
          .ok (⟨.endOfFile, c.skipGap.position, c.skipGap.position.offset⟩, c.skipGap) := by
        unfold next read
        rw [hskip, hnest']
        rfl
      exact ⟨_, tokens_of_end hnext rfl, rfl⟩
  | cons w ws ih =>
      have hrest' : c.rest =
          [' '] ++ ((spelling w).toList ++ ws.flatMap fun w => ' ' :: (spelling w).toList) := by
        simpa using hrest
      have hw := hws w List.mem_cons_self
      rcases tokens_spelled hw (Or.inr rfl) (apart_spelled spelling ws) hnest hrest' with
        ⟨s, c', htokens, htoken, hbehind, hnest'⟩
      have hothers := fun w' hw' => hws w' (List.mem_cons_of_mem w hw')
      rcases ih hothers hnest' hbehind with ⟨ts, hts, hmap⟩
      refine ⟨s :: ts, ?_, ?_⟩
      · rw [htokens, hts]
      · simp [htoken, hmap]

end Spelled
end Cursor

theorem toList_intercalate_cons (s : String) (ss : List String) :
    (" ".intercalate (s :: ss)).toList = s.toList ++ ss.flatMap fun s => ' ' :: s.toList := by
  induction ss generalizing s with
  | nil => simp
  | cons s' ss ih =>
      have hstep : (" ".intercalate (s :: s' :: ss)).toList =
          s.toList ++ ' ' :: (" ".intercalate (s' :: ss)).toList := by
        simp
      rw [hstep, ih]
      simp

/-- Words with a space between them are read as their tokens. -/
theorem tokenize_spelled {α : Type} {spelling : α -> String} {token : α -> Token} {ws : List α}
    (hws : forall w, w ∈ ws -> Cursor.IsSpelled spelling token w) :
    exists ts, tokenize (" ".intercalate (ws.map spelling)) = (ts, none) ∧
      ts.map Spanned.token = ws.map token ++ [Token.endOfFile] := by
  cases ws with
  | nil => exact Cursor.tokens_allSpelled hws rfl (by simp [Cursor.ofSource])
  | cons w ws =>
      have hrest : (Cursor.ofSource (" ".intercalate ((w :: ws).map spelling))).rest =
          [] ++ ((spelling w).toList ++ ws.flatMap fun w => ' ' :: (spelling w).toList) := by
        rw [List.map_cons, Cursor.ofSource, toList_intercalate_cons, List.flatMap_map]
        rfl
      have hw := hws w List.mem_cons_self
      rcases Cursor.tokens_spelled hw (Or.inl rfl) (Cursor.apart_spelled spelling ws) rfl hrest
        with ⟨s, c', htokens, htoken, hbehind, hnest⟩
      have hothers := fun w' hw' => hws w' (List.mem_cons_of_mem w hw')
      rcases Cursor.tokens_allSpelled hothers hnest hbehind with ⟨ts, hts, hmap⟩
      refine ⟨s :: ts, ?_, ?_⟩
      · rw [tokenize, htokens, hts]
      · simp [htoken, hmap]

/-- A line of words is read as the tokens of the words. -/
theorem tokenize_line (ws : List Word) :
    exists ts, tokenize (Word.line ws) = (ts, none) ∧
      ts.map Spanned.token = ws.map Word.token ++ [Token.endOfFile] := by
  have hword (w : Word) : Cursor.IsSpelled Word.spelling Word.token w := by
    constructor
    · exact Lexer.spells w
    · cases w <;> simp [Word.token]
  exact tokenize_spelled fun w _ => hword w

end StackScript
