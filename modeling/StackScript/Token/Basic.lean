import StackScript.Number.Notation
import StackScript.Operation

/-!
# Tokens

The words of a script.  An interpolated string comes as several text tokens with
the tokens of the expressions between them: the first part, any number of middle
parts and the last part.
-/

namespace StackScript

/-- Words with a meaning of their own. -/
inductive Keyword where
  | true_
  | false_
  | none
  | and
  | or
  | not
  | let_
  | if_
  | elif
  | else_
  | for_
  | in_
  | while_
  | break_
  | continue_
  | function
  | return_
  | try_
  | except
  | throw
  | use
  | echo
  | print
  deriving DecidableEq, Repr, Inhabited

namespace Keyword

def all : List Keyword :=
  [true_, false_, none, and, or, not, let_, if_, elif, else_, for_, in_, while_, break_,
    continue_, function, return_, try_, except, throw, use, echo, print]

def word : Keyword -> String
  | true_ => "true"
  | false_ => "false"
  | none => "none"
  | and => "and"
  | or => "or"
  | not => "not"
  | let_ => "let"
  | if_ => "if"
  | elif => "elif"
  | else_ => "else"
  | for_ => "for"
  | in_ => "in"
  | while_ => "while"
  | break_ => "break"
  | continue_ => "continue"
  | function => "function"
  | return_ => "return"
  | try_ => "try"
  | except => "except"
  | throw => "throw"
  | use => "use"
  | echo => "echo"
  | print => "print"

def ofWord? (s : String) : Option Keyword :=
  all.find? fun k => k.word == s

end Keyword

/-- Brackets, separators and the remaining signs. -/
inductive Mark where
  | assign
  | bitNot
  | leftParen
  | rightParen
  | leftSquare
  | rightSquare
  | leftCurly
  | rightCurly
  | comma
  | colon
  | semicolon
  | dot
  deriving DecidableEq, Repr, Inhabited

namespace Mark

def all : List Mark :=
  [assign, bitNot, leftParen, rightParen, leftSquare, rightSquare, leftCurly, rightCurly, comma,
    colon, semicolon, dot]

def symbol : Mark -> String
  | assign => "="
  | bitNot => "~"
  | leftParen => "("
  | rightParen => ")"
  | leftSquare => "["
  | rightSquare => "]"
  | leftCurly => "\x7b"
  | rightCurly => "\x7d"
  | comma => ","
  | colon => ":"
  | semicolon => ";"
  | dot => "."

end Mark

/-- Where a text token stands in its string literal. -/
inductive TextPart where
  /-- The literal has no interpolation. -/
  | whole
  /-- An interpolation follows. -/
  | first
  /-- An interpolation ends here and another follows. -/
  | middle
  /-- The last interpolation ends here. -/
  | last
  deriving DecidableEq, Repr, Inhabited

inductive Token where
  | integer (n : Int64)
  | float (x : Binary64)
  | text (s : String) (part : TextPart)
  | name (s : String)
  | keyword (k : Keyword)
  | builtin (b : Builtin)
  | operator (op : Operator)
  | update (op : Operator)
  | comparison (c : Comparison)
  | mark (m : Mark)
  | endOfFile
  deriving DecidableEq, Inhabited

namespace Token

/-- The token as messages show it. -/
def spelling : Token -> String
  | integer n => toString n.toInt
  | float x => Notation.plainText x
  | text s _ => "\"" ++ s ++ "\""
  | name s => s
  | keyword k => k.word
  | builtin b => b.word
  | operator op => op.symbol
  | update op => op.symbol ++ "="
  | comparison c => c.symbol
  | mark m => m.symbol
  | endOfFile => "end of file"

/-- The token of a word: a keyword, a builtin, or else a name. -/
def ofWord (s : String) : Token :=
  match Keyword.ofWord? s, Builtin.ofWord? s with
  | some k, _ => keyword k
  | none, some b => builtin b
  | none, none => name s

end Token

/-! ## Positions -/

/-- A place in a script: row and column count from zero, the column in characters; the offset
counts bytes of UTF-8. -/
structure Position where
  row : Nat
  column : Nat
  offset : Nat
  deriving DecidableEq, Repr, Inhabited

namespace Position

def start : Position :=
  ⟨0, 0, 0⟩

def after (p : Position) (c : Char) : Position :=
  if c = '\n' then
    ⟨p.row + 1, 0, p.offset + c.utf8Size⟩
  else
    ⟨p.row, p.column + 1, p.offset + c.utf8Size⟩

def afterAll (p : Position) (cs : List Char) : Position :=
  cs.foldl after p

/-- The number of the line, counted from one. -/
def line (p : Position) : Nat :=
  p.row + 1

end Position

/-- A token with the place it starts at and the offset it ends before. -/
structure Spanned where
  token : Token
  start : Position
  stop : Nat
  deriving DecidableEq, Inhabited

end StackScript
