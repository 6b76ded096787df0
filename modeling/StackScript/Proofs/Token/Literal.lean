import StackScript.Token.Lexer

/-!
# Any text as a string literal

Inside a string literal three characters do not stand for themselves: the quote that ends it, the
brace that begins an interpolation, and the backslash.  With a backslash in front of each of them,
any text can stand in a literal, in front of an interpolation or behind one, and is read back as
it is.
-/

namespace StackScript
namespace Lexer

/-! ## Escapes -/

/-- A character as it is written between the given quotes. -/
def escapeChar (quote c : Char) : List Char :=
  if c = quote ∨ c = '\\' ∨ c = '{' then ['\\', c] else [c]

def escape (quote : Char) (cs : List Char) : List Char :=
  cs.flatMap (escapeChar quote)

def IsQuote (c : Char) : Prop :=
  c = '"' ∨ c = '\''

section Segment

variable {quote : Char}

theorem IsQuote.escape? (hquote : IsQuote quote) : escape? quote = some quote := by
  rcases hquote with rfl | rfl <;> rfl

theorem IsQuote.ne_backslash (hquote : IsQuote quote) : quote ≠ '\\' := by
  rcases hquote with rfl | rfl <;> decide

theorem IsQuote.ne_brace (hquote : IsQuote quote) : quote ≠ '{' := by
  rcases hquote with rfl | rfl <;> decide

theorem segment_quote (rest : List Char) : segment quote (quote :: rest) = .ok ⟨[], false, 1⟩ := by
  rw [segment.eq_def]
  simp

theorem segment_brace (hquote : IsQuote quote) (rest : List Char) :
    segment quote ('{' :: rest) = .ok ⟨[], true, 1⟩ := by
  rw [segment.eq_def]
  simp [hquote.ne_brace.symm]

/-- An escaped character is read as the character, whatever follows. -/
theorem segment_escapeChar (hquote : IsQuote quote) (c : Char) (rest : List Char) :
    segment quote (escapeChar quote c ++ rest) =
      prepend c (escapeChar quote c).length (segment quote rest) := by
  by_cases hc : c = quote ∨ c = '\\' ∨ c = '{'
  · have hescape : Lexer.escape? c = some c := by
      rcases hc with rfl | rfl | rfl
      · exact hquote.escape?
      · rfl
      · rfl
    rw [escapeChar, if_pos hc, List.cons_append, List.singleton_append, segment.eq_def]
    simp [hquote.ne_backslash.symm, hescape]
  · rw [escapeChar, if_neg hc, List.singleton_append, segment.eq_def]
    rcases not_or.mp hc with ⟨hend, hspecial⟩
    rcases not_or.mp hspecial with ⟨hbackslash, hbrace⟩
    simp [hend, hbackslash, hbrace]

/-- An escaped text is read as the text up to where the literal ends or is interrupted. -/
theorem segment_escape (hquote : IsQuote quote) (cs : List Char) {rest : List Char}
    {opens : Bool} (hrest : segment quote rest = .ok ⟨[], opens, 1⟩) :
    segment quote (escape quote cs ++ rest) = .ok ⟨cs, opens, (escape quote cs).length + 1⟩ := by
  induction cs with
  | nil => exact hrest
  | cons c cs ih =>
      have hcons : escape quote (c :: cs) = escapeChar quote c ++ escape quote cs := rfl
      rw [hcons, List.append_assoc, segment_escapeChar hquote, ih]
      simp only [prepend, Segment.cons, List.length_append]
      congr 2
      lia

end Segment
end Lexer

/-! ## Literals in a script -/

namespace Cursor

/-- In front of the characters `word` the next token is `t`, and it takes just these characters.
Both the token and the cursor behind it have the places that the characters lead to. -/
def ReadsNext (open_ : List Lexer.Interpolation) (word : List Char) (t : Token)
    (open' : List Lexer.Interpolation) : Prop :=
  forall (p : Position) (rest : List Char),
    (⟨word ++ rest, p, open_⟩ : Cursor).next =
      .ok (⟨t, p, (p.afterAll word).offset⟩, ⟨rest, p.afterAll word, open'⟩)

theorem readsNext_of_lexeme {open_ open' : List Lexer.Interpolation} {first : Char}
    {word : List Char} {t : Token} (hfirst : (Lexer.isSpace first || first == '#') = false)
    (h : forall rest, Lexer.lexeme open_ first (word ++ rest) = .ok ⟨t, word.length + 1, open'⟩) :
    ReadsNext open_ (first :: word) t open' := by
  intro p rest
  rw [Bool.or_eq_false_iff] at hfirst
  have hgap : Lexer.gap false (first :: (word ++ rest)) = 0 := by
    simp [Lexer.gap, hfirst]
  have hskip : (⟨first :: word ++ rest, p, open_⟩ : Cursor).skipGap =
      ⟨first :: word ++ rest, p, open_⟩ := by
    simp [skipGap, advance, hgap, Position.afterAll]
  rw [next, hskip, read]
  simp [h rest, advance]

section Literals

open Lexer

variable {quote : Char}

theorem readsNext_string (open_ : List Interpolation) (hquote : IsQuote quote)
    {word : List Char} {seg : Segment} (hsize : seg.size = word.length)
    (h : forall rest, segment quote (word ++ rest) = .ok seg) :
    ReadsNext open_ (quote :: word)
      (.text (String.ofList seg.chars) (if seg.opens then .first else .whole))
      (if seg.opens then ⟨quote, 0⟩ :: open_ else open_) := by
  apply readsNext_of_lexeme
  · rcases hquote with rfl | rfl <;> rfl
  · intro rest
    have hstart : quote = '"' ∨ quote = '\'' := hquote
    simp [lexeme, hstart, stringLexeme, h rest, Segment.lexeme, hsize]

theorem readsNext_resumed (open_ : List Interpolation) {word : List Char} {seg : Segment}
    (hsize : seg.size = word.length) (h : forall rest, segment quote (word ++ rest) = .ok seg) :
    ReadsNext (⟨quote, 0⟩ :: open_) ('}' :: word)
      (.text (String.ofList seg.chars) (if seg.opens then .middle else .last))
      (if seg.opens then ⟨quote, 0⟩ :: open_ else open_) := by
  apply readsNext_of_lexeme
  · rfl
  · intro rest
    simp [lexeme, closingBrace, h rest, Segment.lexeme, hsize]

/-- Any text that is escaped for its quotes is read back as it is, from a cursor anywhere in a
script: as a whole literal, in front of the first interpolation of one, between two and behind the
last one.  The cursor is then behind the literal or inside the interpolation, which is the
innermost one, has the quote of the literal and no braces open. -/
theorem escaped_text_reads_back (hquote : IsQuote quote) (s : String)
    (open_ : List Interpolation) :
    ReadsNext open_ (quote :: (escape quote s.toList ++ [quote])) (.text s .whole) open_ ∧
      ReadsNext open_ (quote :: (escape quote s.toList ++ ['{'])) (.text s .first)
        (⟨quote, 0⟩ :: open_) ∧
      ReadsNext (⟨quote, 0⟩ :: open_) ('}' :: (escape quote s.toList ++ [quote]))
        (.text s .last) open_ ∧
      ReadsNext (⟨quote, 0⟩ :: open_) ('}' :: (escape quote s.toList ++ ['{']))
        (.text s .middle) (⟨quote, 0⟩ :: open_) := by
  have hends (rest : List Char) : segment quote (escape quote s.toList ++ [quote] ++ rest) =
      .ok ⟨s.toList, false, (escape quote s.toList).length + 1⟩ := by
    rw [List.append_assoc]
    exact segment_escape hquote s.toList (segment_quote rest)
  have hopens (rest : List Char) : segment quote (escape quote s.toList ++ ['{'] ++ rest) =
      .ok ⟨s.toList, true, (escape quote s.toList).length + 1⟩ := by
    rw [List.append_assoc]
    exact segment_escape hquote s.toList (segment_brace hquote rest)
  have hwhole := readsNext_string open_ hquote (by simp) hends
  have hfirst := readsNext_string open_ hquote (by simp) hopens
  have hlast := readsNext_resumed open_ (by simp) hends
  have hmiddle := readsNext_resumed open_ (by simp) hopens
  simp only [String.ofList_toList] at hwhole hfirst hlast hmiddle
  exact ⟨hwhole, hfirst, hlast, hmiddle⟩

/-- A text of two lines with both quotes, braces and a backslash. -/
def awkwardText : String :=
  "it's \x7bé\x7d\n\\n\""

theorem awkwardText_reads_back :
    IsQuote '\'' ∧
      escape '\'' awkwardText.toList = "it\\'s \\\x7bé\x7d\n\\\\n\"".toList ∧
      ReadsNext [] ('\'' :: (escape '\'' awkwardText.toList ++ ['\'']))
        (.text awkwardText .whole) [] ∧
      ReadsNext [] ('\'' :: (escape '\'' awkwardText.toList ++ ['{']))
        (.text awkwardText .first) [⟨'\'', 0⟩] ∧
      ReadsNext [⟨'\'', 0⟩] ('}' :: (escape '\'' awkwardText.toList ++ ['\'']))
        (.text awkwardText .last) [] ∧
      ReadsNext [⟨'\'', 0⟩] ('}' :: (escape '\'' awkwardText.toList ++ ['{']))
        (.text awkwardText .middle) [⟨'\'', 0⟩] :=
  have hquote : IsQuote '\'' := Or.inr rfl
  ⟨hquote, by decide, escaped_text_reads_back hquote awkwardText []⟩

end Literals
end Cursor
end StackScript
