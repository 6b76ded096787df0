import StackScript.Text.Printable

/-!
# Quoted text

A quoted text stands between double quotes.  Quotes and backslashes are marked
by a backslash, the usual control characters have short escapes, and a character
that cannot be shown is written as its code point in lower-case hexadecimal.
-/

namespace StackScript
namespace Text

def hexDigits (n : Nat) : List Char :=
  Nat.toDigits 16 n

/-- The form of one character inside a quoted text. -/
def quoteChar (c : Char) : List Char :=
  match c with
  | '"' => ['\\', '"']
  | '\\' => ['\\', '\\']
  | '\n' => ['\\', 'n']
  | '\r' => ['\\', 'r']
  | '\t' => ['\\', 't']
  | '\x00' => ['\\', '0']
  | c =>
    if 0x20 <= c.toNat && c.toNat < 0x7F then
      [c]
    else if extendsGrapheme c || !isPrintable c then
      "\\u\x7b".toList ++ hexDigits c.toNat ++ "\x7d".toList
    else
      [c]

/-- A text between double quotes, with what cannot be shown escaped. -/
def quoted (s : String) : String :=
  "\"" ++ String.ofList (s.toList.flatMap quoteChar) ++ "\""

end Text
end StackScript
