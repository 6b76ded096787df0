import StackScript.Token.Basic

/-!
# How tokens bind

An expression is read by binding power: a token may start an expression, may
follow a complete operand, or neither, and a token that follows an operand binds
with a precedence.  The table is a function of the token alone.
-/

namespace StackScript

inductive Precedence where
  | none
  | assign
  | bits
  | or
  | and
  | equality
  | compare
  | term
  | factor
  | unary
  | call
  deriving DecidableEq, Repr, Inhabited

namespace Precedence

/-- The place of a precedence in the order, weakest first. -/
def rank : Precedence -> Nat
  | none => 0
  | assign => 1
  | bits => 2
  | or => 3
  | and => 4
  | equality => 5
  | compare => 6
  | term => 7
  | factor => 8
  | unary => 9
  | call => 10

/-- One level tighter: the precedence of the right operand of a left-associative operator. -/
def next : Precedence -> Precedence
  | none => assign
  | assign => bits
  | bits => or
  | or => and
  | and => equality
  | equality => compare
  | compare => term
  | term => factor
  | factor => unary
  | unary => call
  | call => call

end Precedence

/-- What a token begins when it starts an expression. -/
inductive Starter where
  | group
  | array
  | table
  | unary
  | literal
  | text
  | name
  | function
  | builtin
  deriving DecidableEq, Repr

/-- What a token goes on with when it follows an operand. -/
inductive Follower where
  | binary
  | and
  | or
  | call
  | dot
  | square
  deriving DecidableEq, Repr

/-- How a token binds. -/
structure Rule where
  starter : Option Starter
  follower : Option Follower
  precedence : Precedence
  deriving DecidableEq, Repr

namespace Rule

def inert : Rule :=
  ⟨none, none, .none⟩

def starts (s : Starter) : Rule :=
  ⟨some s, none, .none⟩

def follows (f : Follower) (p : Precedence) : Rule :=
  ⟨none, some f, p⟩

end Rule

def Operator.precedence : Operator -> Precedence
  | add | subtract => .term
  | multiply | divide | modulo => .factor
  | bitAnd | bitOr | bitXor | shiftLeft | shiftRight => .bits

def Comparison.precedence : Comparison -> Precedence
  | equal | notEqual => .equality
  | less | lessEqual | greater | greaterEqual => .compare

def Keyword.rule : Keyword -> Rule
  | true_ | false_ | none => .starts .literal
  | not => .starts .unary
  | and => .follows .and .and
  | or => .follows .or .or
  | function => .starts .function
  | _ => .inert

def Mark.rule : Mark -> Rule
  | leftParen => ⟨some .group, some .call, .call⟩
  | leftSquare => ⟨some .array, some .square, .call⟩
  | leftCurly => .starts .table
  | dot => .follows .dot .call
  | bitNot => .starts .unary
  | _ => .inert

namespace Token

/-- How a token binds. -/
def rule : Token -> Rule
  | integer _ => .starts .literal
  | float _ => .starts .literal
  | text _ _ => .starts .text
  | name _ => .starts .name
  | builtin _ => .starts .builtin
  | operator .subtract => ⟨some .unary, some .binary, .term⟩
  | operator op => .follows .binary op.precedence
  | comparison c => .follows .binary c.precedence
  | keyword k => k.rule
  | mark m => m.rule
  | update _ => .inert
  | endOfFile => .inert

def compound? : Token -> Option Operator
  | update op => some op
  | _ => none

def binary? : Token -> Option BinaryOp
  | operator op => some (.arith op)
  | comparison c => some (.compare c)
  | _ => none

def builtin? : Token -> Option Builtin
  | builtin b => some b
  | _ => none

end Token
end StackScript
