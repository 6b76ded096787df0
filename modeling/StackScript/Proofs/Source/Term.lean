import StackScript.Proofs.Heights.Expression
import StackScript.Proofs.Source.Word
import StackScript.Token.Binding

/-!
# Terms

Expressions as they are written, before any name is resolved.  A term is printed
with parentheses only where an operand binds less tightly than its place asks for,
and it has the code that its shape says: operands in the order of the text, each
operator behind its operands.
-/

namespace StackScript

/-! ## Operators -/

namespace Precedence

@[simp] theorem rank_assign : assign.rank = 1 := rfl

@[simp] theorem rank_unary : unary.rank = 9 := rfl

@[simp] theorem rank_call : call.rank = 10 := rfl

end Precedence

/-- The operators in front of one operand. -/
inductive UnarySign where
  | negate
  | bitNot
  | not
  deriving DecidableEq, Repr

namespace UnarySign

def word : UnarySign -> Word
  | negate => .operator .subtract
  | bitNot => .mark .bitNot
  | not => .keyword .not

def op : UnarySign -> UnaryOp
  | negate => .negate
  | bitNot => .bitNot
  | not => .not

end UnarySign

/-- The sixteen operators between two operands. -/
inductive BinarySign where
  | arith (op : Operator)
  | compare (c : Comparison)
  deriving DecidableEq, Repr

namespace BinarySign

def word : BinarySign -> Word
  | arith op => .operator op
  | compare c => .comparison c

def op : BinarySign -> BinaryOp
  | arith op => .arith op
  | compare c => .compare c

def precedence : BinarySign -> Precedence
  | arith op => op.precedence
  | compare c => c.precedence

/-- Binary operators bind tighter than an assignment and looser than a sign in front, and none of
them has the rank of a connective. -/
theorem rank_range (op : BinarySign) :
    2 <= op.precedence.rank ∧ op.precedence.rank <= 8 ∧ op.precedence.rank ≠ 3 ∧
      op.precedence.rank ≠ 4 := by
  cases op with
  | arith op => cases op <;> decide
  | compare c => cases c <;> decide

/-- The right operand of a binary operator binds one rank tighter. -/
theorem rank_next (op : BinarySign) : op.precedence.next.rank = op.precedence.rank + 1 := by
  cases op with
  | arith op => cases op <;> rfl
  | compare c => cases c <;> rfl

theorem rule_word (op : BinarySign) : op.word.token.rule.precedence = op.precedence := by
  cases op with
  | arith op => cases op <;> rfl
  | compare c => rfl

end BinarySign

/-- Whether a token can be the first one of a term. -/
def Token.opensTerm : Token -> Bool
  | integer _ | float _ | text _ .whole | name _ => true
  | keyword .true_ | keyword .false_ | keyword .none | keyword .not => true
  | operator .subtract | mark .bitNot | mark .leftParen => true
  | _ => false

theorem Token.ne_of_opensTerm {t u : Token} (ht : t.opensTerm) (hu : u.opensTerm = false) :
    t ≠ u := by
  rintro rfl
  rw [ht] at hu
  cases hu

namespace Connective

def word : Connective -> Word
  | and => .keyword .and
  | or => .keyword .or

def precedence : Connective -> Precedence
  | and => .and
  | or => .or

theorem rank_range (op : Connective) : 3 <= op.precedence.rank ∧ op.precedence.rank <= 4 := by
  cases op <;> decide

end Connective

/-! ## Terms -/

/-- Expressions as they are written. -/
inductive Term where
  | integer (n : Fin (2 ^ 63))
  | float (x : Fraction)
  | bool (b : Bool)
  | none
  | text (s : String)
  | named (x : Name)
  | unary (op : UnarySign) (a : Term)
  | binary (op : BinarySign) (a b : Term)
  | connect (op : Connective) (a b : Term)
  | call (f : Term) (args : List Term)
  | index (a i : Term)
  | property (a : Term) (key : Name)

namespace Term

/-- How tightly a term holds together: the rank of its outermost operator. -/
def level : Term -> Nat
  | unary _ _ => Precedence.unary.rank
  | binary op _ _ => op.precedence.rank
  | connect op _ _ => op.precedence.rank
  | call _ _ | index _ _ | property _ _ => Precedence.call.rank
  | _ => Precedence.call.rank + 1

/-- Words in parentheses, if they need them. -/
def grouped (needed : Bool) (ws : List Word) : List Word :=
  if needed then .mark .leftParen :: (ws ++ [.mark .rightParen]) else ws

mutual

/-- The words of a term.  A binary operator takes operands of its own rank on its left only, `and`
and `or` take them on their right only. -/
def words : Term -> List Word
  | integer n => [.integer n]
  | float x => [.float x]
  | bool b => [.keyword (if b then .true_ else .false_)]
  | none => [.keyword .none]
  | text s => [.text s]
  | named x => [.name x]
  | unary op a => op.word :: grouped (a.level < Precedence.unary.rank) a.words
  | binary op a b =>
    grouped (a.level < op.precedence.rank) a.words ++ op.word ::
      grouped (b.level < op.precedence.rank + 1) b.words
  | connect op a b =>
    grouped (a.level < op.precedence.rank + 1) a.words ++ op.word ::
      grouped (b.level < op.precedence.rank) b.words
  | call f args =>
    grouped (f.level < Precedence.call.rank) f.words ++ .mark .leftParen ::
      (Term.listed args ++ [.mark .rightParen])
  | index a i =>
    grouped (a.level < Precedence.call.rank) a.words ++ .mark .leftSquare ::
      (i.words ++ [.mark .rightSquare])
  | property a key =>
    grouped (a.level < Precedence.call.rank) a.words ++ [.mark .dot, .name key]

def listed : List Term -> List Word
  | [] => []
  | a :: rest => a.words ++ Term.listedBehind rest

def listedBehind : List Term -> List Word
  | [] => []
  | a :: rest => .mark .comma :: (a.words ++ Term.listedBehind rest)

end

example : Word.line (words (binary (.arith .subtract) (integer 1)
    (binary (.arith .subtract) (unary .negate (integer 2)) (integer 3)))) = "1 - ( - 2 - 3 )" := by
  decide

example : Word.line (words (connect .and (connect .and (bool true) (bool false))
    (connect .and none (index (text "a") (integer 0))))) =
    "( true and false ) and none and \"a\" [ 0 ]" := by
  decide

/-- The words of a term in a place that asks for a rank. -/
def wordsAt (rank : Nat) (t : Term) : List Word :=
  grouped (t.level < rank) t.words

mutual

def names : Term -> List Name
  | named x => [x]
  | unary _ a => a.names
  | binary _ a b => a.names ++ b.names
  | connect _ a b => a.names ++ b.names
  | call f args => f.names ++ Term.allNames args
  | index a i => a.names ++ i.names
  | property a _ => a.names
  | _ => []

def allNames : List Term -> List Name
  | [] => []
  | a :: rest => a.names ++ Term.allNames rest

end

/-! ## The code of a term -/

section Code

variable (look : Name -> Variable)

mutual

/-- The constants of a term whose names stand for the given variables. -/
def constants : Term -> List Value
  | text s => [.text s]
  | named x => (look x).constants
  | unary _ a => a.constants
  | binary _ a b => a.constants ++ b.constants
  | connect _ a b => a.constants ++ b.constants
  | call f args => f.constants ++ allConstants args
  | index a i => a.constants ++ i.constants
  | property a key => a.constants ++ [.text key.text]
  | _ => []

def allConstants : List Term -> List Value
  | [] => []
  | a :: rest => a.constants ++ allConstants rest

end

variable (k : Variable.Index)

mutual

/-- The code of a term whose names stand for the given variables and whose constants stand at the
given indices.  The jump of a connective goes just behind its right operand. -/
def code : Term -> List Instr
  | integer n => [.literal (.int (Int64.ofNat n))]
  | float x => [.literal (.float x.value)]
  | bool b => [.literal (.bool b)]
  | none => [.literal .none]
  | text s => [.constant (k (.text s))]
  | named x => [(look x).get k]
  | unary op a => a.code ++ [.unary op.op]
  | binary op a b => a.code ++ b.code ++ [.binary op.op]
  | connect op a b => a.code ++ op.jump (b.code.length + 1) :: .pop :: b.code
  | call f args => f.code ++ codes args ++ [.call args.length]
  | index a i => a.code ++ i.code ++ [.binary .get]
  | property a key => a.code ++ [.getProperty (k (.text key.text))]

def codes : List Term -> List Instr
  | [] => []
  | a :: rest => a.code ++ codes rest

end

/-! ## Trees of terms -/

mutual

/-- Whether a tree is the term with its names resolved, whatever lines its nodes carry. -/
def Matches : Term -> Expr -> Prop
  | integer n, e => exists line, e = .literal (.int (Int64.ofNat n)) line
  | float x, e => exists line, e = .literal (.float x.value) line
  | bool b, e => exists line, e = .literal (.bool b) line
  | none, e => exists line, e = .literal .none line
  | text s, e => exists line, e = .text s line
  | named x, e => exists line, e = .read (look x) line
  | unary op a, e => exists a' line, e = .unary op.op a' line ∧ a.Matches a'
  | binary op a b, e =>
    exists a' b' line, e = .binary op.op a' b' line ∧ a.Matches a' ∧ b.Matches b'
  | connect op a b, e =>
    exists a' opLine b', e = .connect op a' opLine b' ∧ a.Matches a' ∧ b.Matches b'
  | call f args, e =>
    exists f' args' line, e = .call f' args' line ∧ f.Matches f' ∧ AllMatch args args'
  | index a i, e =>
    exists a' i' line, e = .binary .get a' i' line ∧ a.Matches a' ∧ i.Matches i'
  | property a key, e => exists a' line, e = .property a' key.text line ∧ a.Matches a'

/-- Whether trees are the terms of a list, one by one. -/
def AllMatch : List Term -> List Expr -> Prop
  | [], es => es = []
  | a :: rest, es => exists e es', es = e :: es' ∧ a.Matches e ∧ AllMatch rest es'

end

variable {look} {k}

mutual

/-- The tree of a term is laid out as the code of the term. -/
theorem Matches.code_eq {t : Term} {e : Expr} (h : t.Matches look e) :
    (e.code k).map Prod.fst = t.code look k := by
  cases t with
  | integer | float | bool | none | text | named =>
      rcases h with ⟨line, rfl⟩
      rfl
  | unary op a =>
      rcases h with ⟨a', line, rfl, ha⟩
      simp [Expr.code, Term.code, ha.code_eq]
  | binary op a b =>
      rcases h with ⟨a', b', line, rfl, ha, hb⟩
      simp [Expr.code, Term.code, ha.code_eq, hb.code_eq]
  | connect op a b =>
      rcases h with ⟨a', opLine, b', rfl, ha, hb⟩
      have hsize : b'.size = (b.code look k).length := by
        rw [← hb.code_eq, List.length_map, Expr.length_code]
      simp [Expr.code, Term.code, ha.code_eq, hb.code_eq, hsize]
  | call f args =>
      rcases h with ⟨f', args', line, rfl, hf, hargs⟩
      simp [Expr.code, Term.code, hf.code_eq, hargs.codes_eq, hargs.length_eq]
  | index a i =>
      rcases h with ⟨a', i', line, rfl, ha, hi⟩
      simp [Expr.code, Term.code, ha.code_eq, hi.code_eq]
  | property a key =>
      rcases h with ⟨a', line, rfl, ha⟩
      simp [Expr.code, Term.code, ha.code_eq]

theorem AllMatch.codes_eq {ts : List Term} {es : List Expr} (h : AllMatch look ts es) :
    (Expr.codes k es).map Prod.fst = codes look k ts := by
  cases ts with
  | nil =>
      cases h
      rfl
  | cons t ts =>
      rcases h with ⟨e, es', rfl, ht, hts⟩
      simp [Expr.codes, codes, ht.code_eq, hts.codes_eq]

theorem AllMatch.length_eq {ts : List Term} {es : List Expr} (h : AllMatch look ts es) :
    es.length = ts.length := by
  cases ts with
  | nil =>
      cases h
      rfl
  | cons t ts =>
      rcases h with ⟨e, es', rfl, -, hts⟩
      simp [hts.length_eq]

end

mutual

theorem Matches.constants_eq {t : Term} {e : Expr} (h : t.Matches look e) :
    e.constants = t.constants look := by
  cases t with
  | integer | float | bool | none | text | named =>
      rcases h with ⟨line, rfl⟩
      simp [Expr.constants, Term.constants]
  | unary op a =>
      rcases h with ⟨a', line, rfl, ha⟩
      simp [Expr.constants, Term.constants, ha.constants_eq]
  | binary op a b =>
      rcases h with ⟨a', b', line, rfl, ha, hb⟩
      simp [Expr.constants, Term.constants, ha.constants_eq, hb.constants_eq]
  | connect op a b =>
      rcases h with ⟨a', opLine, b', rfl, ha, hb⟩
      simp [Expr.constants, Term.constants, ha.constants_eq, hb.constants_eq]
  | call f args =>
      rcases h with ⟨f', args', line, rfl, hf, hargs⟩
      simp [Expr.constants, Term.constants, hf.constants_eq, hargs.allConstants_eq]
  | index a i =>
      rcases h with ⟨a', i', line, rfl, ha, hi⟩
      simp [Expr.constants, Term.constants, ha.constants_eq, hi.constants_eq]
  | property a key =>
      rcases h with ⟨a', line, rfl, ha⟩
      simp [Expr.constants, Term.constants, ha.constants_eq]

theorem AllMatch.allConstants_eq {ts : List Term} {es : List Expr} (h : AllMatch look ts es) :
    Expr.allConstants es = allConstants look ts := by
  cases ts with
  | nil =>
      cases h
      rfl
  | cons t ts =>
      rcases h with ⟨e, es', rfl, ht, hts⟩
      simp [Expr.allConstants, allConstants, ht.constants_eq, hts.allConstants_eq]

end

end Code

/-! ## How terms are printed -/

/-- The rank that an operator behind a term has to stay below, so that the last operand of the term
does not take it. -/
def edge : Term -> Nat
  | unary _ _ => Precedence.unary.rank
  | binary op _ _ => op.precedence.rank + 1
  | connect op _ _ => op.precedence.rank
  | _ => Precedence.call.rank + 1

theorem level_le_edge (t : Term) : t.level <= t.edge := by
  cases t <;> simp [level, edge]

theorem assign_lt_level (t : Term) : Precedence.assign.rank < t.level := by
  cases t with
  | binary op =>
      have := op.rank_range
      simp only [level, Precedence.rank_assign]
      lia
  | connect op =>
      have := op.rank_range
      simp only [level, Precedence.rank_assign]
      lia
  | _ => simp [level]

/-- A term that may stand in front of a binary operator does not take the operator. -/
theorem binary_lt_edge {t : Term} {op : BinarySign} (h : op.precedence.rank <= t.level) :
    op.precedence.rank < t.edge := by
  have hop := op.rank_range
  cases t with
  | binary op' => exact Nat.lt_succ_of_le h
  | connect op' =>
      have := op'.rank_range
      simp only [level, edge] at h ⊢
      lia
  | _ =>
      simp only [edge, Precedence.rank_unary, Precedence.rank_call]
      lia

/-- A term that may stand in front of a connective does not take the connective. -/
theorem connective_lt_edge {t : Term} {op : Connective} (h : op.precedence.rank + 1 <= t.level) :
    op.precedence.rank < t.edge :=
  Nat.lt_of_lt_of_le h t.level_le_edge

/-- A term that may stand in front of a postfix does not take it. -/
theorem call_lt_edge {t : Term} (h : Precedence.call.rank <= t.level) :
    Precedence.call.rank < t.edge := by
  cases t with
  | binary op =>
      have := op.rank_range
      simp only [level, edge, Precedence.rank_call] at h ⊢
      lia
  | connect op =>
      have := op.rank_range
      simp only [level, edge, Precedence.rank_call] at h ⊢
      lia
  | unary => exact absurd h (by simp [level])
  | _ => exact Nat.lt_succ_self _

def Starts (ws : List Word) : Prop :=
  exists w rest, ws = w :: rest ∧ w.token.opensTerm

theorem Starts.append {ws : List Word} (h : Starts ws) (rest : List Word) :
    Starts (ws ++ rest) := by
  rcases h with ⟨w, ws', rfl, hw⟩
  exact ⟨w, ws' ++ rest, rfl, hw⟩

theorem Starts.grouped {ws : List Word} (h : Starts ws) (needed : Bool) :
    Starts (grouped needed ws) := by
  cases needed with
  | true => exact ⟨_, _, rfl, rfl⟩
  | false => exact h

theorem starts_words (t : Term) : Starts t.words := by
  cases t with
  | integer | float | none | text | named => exact ⟨_, _, rfl, rfl⟩
  | bool b => cases b <;> exact ⟨_, _, rfl, rfl⟩
  | unary op a => cases op <;> exact ⟨_, _, rfl, rfl⟩
  | binary op a b => exact ((starts_words a).grouped _).append _
  | connect op a b => exact ((starts_words a).grouped _).append _
  | call f args => exact ((starts_words f).grouped _).append _
  | index a i => exact ((starts_words a).grouped _).append _
  | property a key => exact ((starts_words a).grouped _).append _

end Term
end StackScript
