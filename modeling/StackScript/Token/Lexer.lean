import StackScript.Token.Basic

/-!
# From text to tokens

A token starts at its first character and is as long as it can be.  The functions
that recognise one know nothing of positions: they say which token it is and how
many characters it takes.  The cursor turns those counts into rows, columns and
offsets, and remembers which interpolations are open, because a closing brace
may resume a string.
-/

namespace StackScript

/-! ## Errors -/

/-- Why a text is not a sequence of tokens. -/
inductive LexFault where
  | unterminatedString
  | unknownEscape (c : Char)
  | hexDigitsMissing
  | integerOutOfRange (literal : String)
  | unknownCharacter (c : Char)
  | unterminatedInterpolation
  deriving DecidableEq, Repr

def LexFault.message : LexFault -> String
  | unterminatedString => "Unterminated string literal"
  | unknownEscape c => "Unknown escape sequence: \\" ++ c.toString
  | hexDigitsMissing => "Expected hex digits after 0x"
  | integerOutOfRange literal => "Integer literal out of range: " ++ literal
  | unknownCharacter c => "Unknown character: `" ++ c.toString ++ "`"
  | unterminatedInterpolation => "Unterminated string interpolation"

structure LexError where
  fault : LexFault
  row : Nat
  column : Nat
  deriving DecidableEq, Repr

namespace LexError

def place (fault : LexFault) (p : Position) : LexError :=
  ⟨fault, p.row, p.column⟩

/-- The wording without the place. -/
def message (e : LexError) : String :=
  e.fault.message

/-- The full wording: line and column, both counted from one, then the message. -/
def render (e : LexError) : String :=
  toString (e.row + 1) ++ ":" ++ toString (e.column + 1) ++ ": " ++ e.message

end LexError

namespace Lexer

/-- A fault so many characters behind the start of the token that has it. -/
structure Failure where
  fault : LexFault
  distance : Nat
  deriving DecidableEq, Repr

/-! ## Gaps -/

def isSpace (c : Char) : Bool :=
  c == ' ' || c == '\t' || c == '\r' || c == '\n'

/-- The number of characters in front of the next token.  A comment goes on to the end of its
line; the flag says whether one has begun. -/
def gap (inComment : Bool) : List Char -> Nat
  | [] => 0
  | c :: cs =>
    if inComment then
      gap (c != '\n') cs + 1
    else if isSpace c then
      gap false cs + 1
    else if c == '#' then
      gap true cs + 1
    else
      0

/-! ## String literals -/

def escape? : Char -> Option Char
  | 'n' => some '\n'
  | 't' => some '\t'
  | 'r' => some '\r'
  | '0' => some '\x00'
  | '\\' => some '\\'
  | '"' => some '"'
  | '\'' => some '\''
  | '{' => some '{'
  | '}' => some '}'
  | _ => none

/-- What a string literal holds up to its quote or up to the next interpolation. -/
structure Segment where
  chars : List Char
  /-- Whether an interpolation begins here. -/
  opens : Bool
  /-- The characters read, the quote or the brace included. -/
  size : Nat
  deriving DecidableEq, Repr

/-- The segment with one more character in front, which took `width` characters to write. -/
def Segment.cons (c : Char) (width : Nat) (s : Segment) : Segment :=
  { s with chars := c :: s.chars, size := s.size + width }

/-- A failure seen from `width` characters earlier; an open literal is reported at its start. -/
def Failure.shift (width : Nat) (f : Failure) : Failure :=
  match f.fault with
  | .unterminatedString => f
  | _ => { f with distance := f.distance + width }

/-- Puts a character in front of a segment, or moves a failure along. -/
def prepend (c : Char) (width : Nat) : Except Failure Segment -> Except Failure Segment
  | .ok s => .ok (s.cons c width)
  | .error f => .error (f.shift width)

/-- Reads a string literal from behind its quote, or from behind the brace that resumes it. -/
def segment (quote : Char) : List Char -> Except Failure Segment
  | [] => .error ⟨.unterminatedString, 0⟩
  | c :: cs =>
    if c = quote then
      .ok ⟨[], false, 1⟩
    else if c = '{' then
      .ok ⟨[], true, 1⟩
    else if c = '\\' then
      match cs with
      | [] => .error ⟨.unterminatedString, 0⟩
      | e :: cs =>
        match escape? e with
        | some x => prepend x 2 (segment quote cs)
        | none => .error ⟨.unknownEscape e, 1⟩
    else
      prepend c 1 (segment quote cs)

/-! ## Numbers -/

def isHexDigit (c : Char) : Bool :=
  c.isDigit || ('a' <= c && c <= 'f') || ('A' <= c && c <= 'F')

/-- The integer token of a literal, if it is in range. -/
def integerToken (n : Nat) (literal : String) : Except Failure Token :=
  match Notation.int64? n with
  | some n => .ok (.integer n)
  | none => .error ⟨.integerOutOfRange literal, 0⟩

/-- The digits behind a point; a point without a digit behind it is not part of a number. -/
def fractionDigits : List Char -> List Char
  | '.' :: cs => cs.takeWhile Char.isDigit
  | _ => []

/-- The exponent at the start of a text: its sign characters and its digits.  A mark without a
digit behind it is not part of a number. -/
def exponentDigits : List Char -> List Char × List Char
  | e :: cs =>
    if e == 'e' || e == 'E' then
      match cs with
      | s :: ds =>
        if s == '+' || s == '-' then
          ([s], ds.takeWhile Char.isDigit)
        else
          ([], cs.takeWhile Char.isDigit)
      | [] => ([], [])
    else
      ([], [])
  | [] => ([], [])

structure Numeral where
  whole : List Char
  fraction : List Char
  sign : List Char
  exponent : List Char
  deriving DecidableEq, Repr

namespace Numeral

/-- The decimal literal at the start of a text. -/
def ofChars (cs : List Char) : Numeral :=
  let rest := cs.dropWhile Char.isDigit
  let fraction := fractionDigits rest
  let tail := if fraction.isEmpty then rest else rest.drop (fraction.length + 1)
  let (sign, exponent) := exponentDigits tail
  ⟨cs.takeWhile Char.isDigit, fraction, sign, exponent⟩

def size (n : Numeral) : Nat :=
  n.whole.length + (if n.fraction.isEmpty then 0 else n.fraction.length + 1) +
    (if n.exponent.isEmpty then 0 else n.sign.length + n.exponent.length + 1)

/-- The token of a literal: an integer unless it has a fraction or an exponent. -/
def token (n : Numeral) : Except Failure Token :=
  if n.fraction.isEmpty && n.exponent.isEmpty then
    integerToken (Notation.natOfNumeral n.whole) (String.ofList n.whole)
  else
    let exponent := Notation.exponentOf (n.sign == ['-']) n.exponent
    .ok (.float ((Notation.decimalOf n.whole n.fraction exponent).round false))

end Numeral

/-- The decimal number that starts a text, and how many characters it takes. -/
def decimalNumber (cs : List Char) : Except Failure (Token × Nat) :=
  let n := Numeral.ofChars cs
  n.token.map fun t => (t, n.size)

/-- The hexadecimal number behind its mark, and how many characters it takes with the mark. -/
def hexNumber (cs : List Char) : Except Failure (Token × Nat) :=
  let digits := cs.takeWhile isHexDigit
  if digits.isEmpty then
    .error ⟨.hexDigitsMissing, 0⟩
  else
    (integerToken (Notation.natOfHexDigits digits) ("0x" ++ String.ofList digits)).map
      fun t => (t, digits.length + 2)

/-- The number that starts a text, and how many characters it takes. -/
def number : List Char -> Except Failure (Token × Nat)
  | '0' :: 'x' :: cs => hexNumber cs
  | '0' :: 'X' :: cs => hexNumber cs
  | cs => decimalNumber cs

/-! ## Words and signs -/

def isNameStart (c : Char) : Bool :=
  c.isAlpha || c == '_'

def isNameChar (c : Char) : Bool :=
  c.isAlphanum || c == '_'

/-- The longest sign that starts a text, and how many characters it takes. -/
def sign? : List Char -> Option (Token × Nat)
  | '<' :: '<' :: '=' :: _ => some (.update .shiftLeft, 3)
  | '>' :: '>' :: '=' :: _ => some (.update .shiftRight, 3)
  | '<' :: '<' :: _ => some (.operator .shiftLeft, 2)
  | '>' :: '>' :: _ => some (.operator .shiftRight, 2)
  | '<' :: '=' :: _ => some (.comparison .lessEqual, 2)
  | '>' :: '=' :: _ => some (.comparison .greaterEqual, 2)
  | '=' :: '=' :: _ => some (.comparison .equal, 2)
  | '!' :: '=' :: _ => some (.comparison .notEqual, 2)
  | '+' :: '=' :: _ => some (.update .add, 2)
  | '-' :: '=' :: _ => some (.update .subtract, 2)
  | '*' :: '=' :: _ => some (.update .multiply, 2)
  | '/' :: '=' :: _ => some (.update .divide, 2)
  | '%' :: '=' :: _ => some (.update .modulo, 2)
  | '&' :: '=' :: _ => some (.update .bitAnd, 2)
  | '|' :: '=' :: _ => some (.update .bitOr, 2)
  | '^' :: '=' :: _ => some (.update .bitXor, 2)
  | '<' :: _ => some (.comparison .less, 1)
  | '>' :: _ => some (.comparison .greater, 1)
  | '=' :: _ => some (.mark .assign, 1)
  | '!' :: _ => some (.keyword .not, 1)
  | '+' :: _ => some (.operator .add, 1)
  | '-' :: _ => some (.operator .subtract, 1)
  | '*' :: _ => some (.operator .multiply, 1)
  | '/' :: _ => some (.operator .divide, 1)
  | '%' :: _ => some (.operator .modulo, 1)
  | '&' :: _ => some (.operator .bitAnd, 1)
  | '|' :: _ => some (.operator .bitOr, 1)
  | '^' :: _ => some (.operator .bitXor, 1)
  | '~' :: _ => some (.mark .bitNot, 1)
  | '(' :: _ => some (.mark .leftParen, 1)
  | ')' :: _ => some (.mark .rightParen, 1)
  | '[' :: _ => some (.mark .leftSquare, 1)
  | ']' :: _ => some (.mark .rightSquare, 1)
  | ',' :: _ => some (.mark .comma, 1)
  | ':' :: _ => some (.mark .colon, 1)
  | ';' :: _ => some (.mark .semicolon, 1)
  | '.' :: _ => some (.mark .dot, 1)
  | _ => none

/-! ## One token

Inside an interpolation braces are counted, so that a table literal there does
not end it.  The closing brace of the interpolation itself resumes the string.
-/

/-- An interpolation that has begun: the quote of its string and the braces open inside it. -/
structure Interpolation where
  quote : Char
  depth : Nat
  deriving DecidableEq, Repr

/-- A token, how many characters it takes, and the interpolations open behind it. -/
structure Lexeme where
  token : Token
  size : Nat
  nesting : List Interpolation

/-- The text token of a segment, which the quote or the brace in front of it belongs to. -/
def Segment.lexeme (s : Segment) (quote : Char) (closed opened : TextPart)
    (nesting : List Interpolation) : Lexeme :=
  { token := .text (String.ofList s.chars) (if s.opens then opened else closed)
    size := s.size + 1
    nesting := if s.opens then ⟨quote, 0⟩ :: nesting else nesting }

/-- A string literal from its opening quote on. -/
def stringLexeme (quote : Char) (cs : List Char) (nesting : List Interpolation) :
    Except Failure Lexeme :=
  match segment quote cs with
  | .ok s => .ok (s.lexeme quote .whole .first nesting)
  | .error f => .error (f.shift 1)

def openingBrace : List Interpolation -> Lexeme
  | [] => ⟨.mark .leftCurly, 1, []⟩
  | top :: outer => ⟨.mark .leftCurly, 1, { top with depth := top.depth + 1 } :: outer⟩

/-- A closing brace, which resumes a string when it ends an interpolation. -/
def closingBrace (cs : List Char) : List Interpolation -> Except Failure Lexeme
  | [] => .ok ⟨.mark .rightCurly, 1, []⟩
  | top :: outer =>
    if top.depth = 0 then
      match segment top.quote cs with
      | .ok s => .ok (s.lexeme top.quote .last .middle outer)
      | .error f => .error (f.shift 1)
    else
      .ok ⟨.mark .rightCurly, 1, { top with depth := top.depth - 1 } :: outer⟩

/-- The token that starts with `c` and goes on in `cs`. -/
def lexeme (nesting : List Interpolation) (c : Char) (cs : List Char) : Except Failure Lexeme :=
  if c = '"' || c = '\'' then
    stringLexeme c cs nesting
  else if c = '{' then
    .ok (openingBrace nesting)
  else if c = '}' then
    closingBrace cs nesting
  else if c.isDigit then do
    let (token, size) ← number (c :: cs)
    return ⟨token, size, nesting⟩
  else if isNameStart c then
    let rest := cs.takeWhile isNameChar
    .ok ⟨Token.ofWord (String.ofList (c :: rest)), rest.length + 1, nesting⟩
  else
    match sign? (c :: cs) with
    | some (token, size) => .ok ⟨token, size, nesting⟩
    | none => .error ⟨.unknownCharacter c, 0⟩

/-! ## Every token takes at least one character -/

theorem ok_of_map_eq_ok {ε α β : Type} {x : Except ε α} {f : α -> β} {b : β}
    (h : x.map f = .ok b) : ∃ a, x = .ok a ∧ f a = b := by
  cases x with
  | error e => cases h
  | ok a => exact ⟨a, rfl, Except.ok.inj h⟩

theorem Numeral.size_pos {c : Char} {cs : List Char} (hc : c.isDigit) :
    0 < (Numeral.ofChars (c :: cs)).size := by
  have hwhole : 0 < ((c :: cs).takeWhile Char.isDigit).length := by
    simp [hc]
  simp only [Numeral.size, Numeral.ofChars]
  omega

theorem decimalNumber_size_pos {c : Char} {cs : List Char} {r : Token × Nat} (hc : c.isDigit)
    (h : decimalNumber (c :: cs) = .ok r) : 0 < r.2 := by
  obtain ⟨t, _, rfl⟩ := ok_of_map_eq_ok h
  exact Numeral.size_pos hc

theorem hexNumber_size_pos {cs : List Char} {r : Token × Nat} (h : hexNumber cs = .ok r) :
    0 < r.2 := by
  simp only [hexNumber] at h
  split at h
  · cases h
  · obtain ⟨t, _, rfl⟩ := ok_of_map_eq_ok h
    exact Nat.succ_pos _

theorem number_size_pos {c : Char} {cs : List Char} {r : Token × Nat} (hc : c.isDigit)
    (h : number (c :: cs) = .ok r) : 0 < r.2 := by
  unfold number at h
  split at h
  · exact hexNumber_size_pos h
  · exact hexNumber_size_pos h
  · exact decimalNumber_size_pos hc h

theorem sign?_size_pos {cs : List Char} {r : Token × Nat} (h : sign? cs = some r) : 0 < r.2 := by
  unfold sign? at h
  split at h <;> cases h <;> decide

theorem closingBrace_size_pos {cs : List Char} {nesting : List Interpolation} {l : Lexeme}
    (h : closingBrace cs nesting = .ok l) : 0 < l.size := by
  unfold closingBrace at h
  split at h
  · cases h
    decide
  · split at h
    · split at h <;> cases h
      exact Nat.succ_pos _
    · cases h
      exact Nat.one_pos

theorem stringLexeme_size_pos {quote : Char} {cs : List Char} {nesting : List Interpolation}
    {l : Lexeme} (h : stringLexeme quote cs nesting = .ok l) : 0 < l.size := by
  unfold stringLexeme at h
  split at h <;> cases h
  exact Nat.succ_pos _

theorem openingBrace_size_pos (nesting : List Interpolation) : 0 < (openingBrace nesting).size := by
  cases nesting <;> exact Nat.one_pos

theorem lexeme_size_pos {nesting : List Interpolation} {c : Char} {cs : List Char} {l : Lexeme}
    (h : lexeme nesting c cs = .ok l) : 0 < l.size := by
  unfold lexeme at h
  split at h
  · exact stringLexeme_size_pos h
  · split at h
    · cases h
      exact openingBrace_size_pos nesting
    · split at h
      · exact closingBrace_size_pos h
      · split at h
        · rename_i hdigit
          cases hn : number (c :: cs) with
          | error f => simp [hn, bind, Except.bind] at h
          | ok r =>
            simp only [hn, bind, Except.bind, pure, Except.pure, Except.ok.injEq] at h
            subst h
            exact number_size_pos hdigit hn
        · split at h
          · cases h
            simp
          · split at h
            · rename_i hs
              cases h
              exact sign?_size_pos hs
            · cases h

end Lexer

/-! ## The cursor -/

/-- How far a script has been read. -/
structure Cursor where
  rest : List Char
  position : Position
  nesting : List Lexer.Interpolation

namespace Cursor

def ofSource (source : String) : Cursor :=
  ⟨source.toList, Position.start, []⟩

def advance (c : Cursor) (n : Nat) : Cursor :=
  { c with rest := c.rest.drop n, position := c.position.afterAll (c.rest.take n) }

def skipGap (c : Cursor) : Cursor :=
  c.advance (Lexer.gap false c.rest)

def read (c : Cursor) : Except LexError (Spanned × Cursor) :=
  match c.rest with
  | [] =>
    if c.nesting.isEmpty then
      .ok (⟨.endOfFile, c.position, c.position.offset⟩, c)
    else
      .error (.place .unterminatedInterpolation c.position)
  | first :: rest =>
    match Lexer.lexeme c.nesting first rest with
    | .ok l =>
      let next := { c.advance l.size with nesting := l.nesting }
      .ok (⟨l.token, c.position, next.position.offset⟩, next)
    | .error f => .error (.place f.fault (c.advance f.distance).position)

def next (c : Cursor) : Except LexError (Spanned × Cursor) :=
  c.skipGap.read

theorem length_advance_rest (c : Cursor) (n : Nat) :
    (c.advance n).rest.length = c.rest.length - n := by
  simp [advance]

theorem read_shorter {c c' : Cursor} {t : Spanned} (h : c.read = .ok (t, c'))
    (ht : t.token ≠ .endOfFile) : c'.rest.length < c.rest.length := by
  unfold read at h
  split at h
  · split at h <;> cases h
    exact absurd rfl ht
  · rename_i first rest hrest
    split at h <;> cases h
    rename_i l hl
    have hsize := Lexer.lexeme_size_pos hl
    simp only [length_advance_rest, hrest, List.length_cons]
    omega

theorem next_shorter {c c' : Cursor} {t : Spanned} (h : c.next = .ok (t, c'))
    (ht : t.token ≠ .endOfFile) : c'.rest.length < c.rest.length := by
  have hread := read_shorter h ht
  simp only [skipGap, length_advance_rest] at hread
  omega

/-- All tokens from the cursor on, up to the end of the script or to the first error. -/
def tokens (c : Cursor) : List Spanned × Option LexError :=
  match h : c.next with
  | .error e => ([], some e)
  | .ok (t, c') =>
    if ht : t.token = .endOfFile then
      ([t], none)
    else
      have := next_shorter h ht
      let (ts, e) := tokens c'
      (t :: ts, e)
termination_by c.rest.length

end Cursor

/-- The tokens of a script, up to its end or to the first error. -/
def tokenize (source : String) : List Spanned × Option LexError :=
  (Cursor.ofSource source).tokens

end StackScript
