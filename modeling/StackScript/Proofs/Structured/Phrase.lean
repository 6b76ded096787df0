import StackScript.Proofs.Source.Term

/-!
# Structured programs

The part of the language that has no calls: declarations, assignments, output,
conditionals, loops, `break` and `continue`, `throw`, and `try` with its handler.  A
phrase is a statement, a block or what follows the body of a conditional.  It is printed
with a semicolon behind every statement.

Names are scoped by blocks.  A program is well scoped if no block declares a name twice,
no local is read by its own initializer, and `break` and `continue` stand inside loops.
-/

namespace StackScript

/-! ## Terms without calls -/

/-- No part of the term is a call. -/
def Term.CallFree : Term -> Prop
  | unary _ a => a.CallFree
  | binary _ a b => a.CallFree ∧ b.CallFree
  | connect _ a b => a.CallFree ∧ b.CallFree
  | call _ _ => False
  | index a i => a.CallFree ∧ i.CallFree
  | property a _ => a.CallFree
  | _ => True

/-- A term without calls. -/
structure Plain where
  term : Term
  callFree : term.CallFree

/-- What an expression statement or the step of a loop does. -/
inductive Action where
  | evaluate (t : Plain)
  | assign (x : Name) (t : Plain)
  | update (x : Name) (op : Operator) (t : Plain)

namespace Action

def words : Action -> List Word
  | evaluate t => t.term.words
  | assign x t => .name x :: .mark .assign :: t.term.words
  | update x op t => .name x :: .update op :: t.term.words

def names : Action -> List Name
  | evaluate t => t.term.names
  | assign x t => x :: t.term.names
  | update x _ t => x :: t.term.names

end Action

/-! ## Phrases -/

/-- What a phrase is. -/
inductive Part where
  | statement
  | block
  /-- What follows the body of a conditional. -/
  | branch
  deriving DecidableEq, Repr

/-- The structured part of the language. -/
inductive Phrase : Part -> Type where
  | declare (x : Name) (t : Plain) : Phrase .statement
  | perform (a : Action) : Phrase .statement
  | echo (t : Plain) : Phrase .statement
  | throw (t : Plain) : Phrase .statement
  | cond (c : Plain) (body : Phrase .block) (other : Phrase .branch) : Phrase .statement
  | whileLoop (c : Plain) (body : Phrase .block) : Phrase .statement
  | forLoop (x : Name) (start c : Plain) (step : Action) (body : Phrase .block) : Phrase .statement
  | leave : Phrase .statement
  | again : Phrase .statement
  | guarded (body : Phrase .block) (binder : Option Name) (handler : Phrase .block) :
      Phrase .statement
  | done : Phrase .block
  | next (first : Phrase .statement) (rest : Phrase .block) : Phrase .block
  | nothing : Phrase .branch
  | otherwise (body : Phrase .block) : Phrase .branch
  | elif (c : Plain) (body : Phrase .block) (other : Phrase .branch) : Phrase .branch

namespace Phrase

def braced (ws : List Word) : List Word :=
  .mark .leftCurly :: (ws ++ [.mark .rightCurly])

/-- The words of a phrase. -/
def words {p : Part} : Phrase p -> List Word
  | declare x t => .keyword .let_ :: .name x :: .mark .assign ::
      (t.term.words ++ [.mark .semicolon])
  | perform a => a.words ++ [.mark .semicolon]
  | echo t => .keyword .echo :: (t.term.words ++ [.mark .semicolon])
  | throw t => .keyword .throw :: (t.term.words ++ [.mark .semicolon])
  | cond c body other => .keyword .if_ ::
      (c.term.words ++ (braced body.words ++ (other.words ++ [.mark .semicolon])))
  | whileLoop c body => .keyword .while_ ::
      (c.term.words ++ (braced body.words ++ [.mark .semicolon]))
  | forLoop x start c step body => .keyword .for_ :: .keyword .let_ :: .name x :: .mark .assign ::
      (start.term.words ++ .mark .semicolon :: (c.term.words ++ .mark .semicolon ::
        (step.words ++ (braced body.words ++ [.mark .semicolon]))))
  | leave => [.keyword .break_, .mark .semicolon]
  | again => [.keyword .continue_, .mark .semicolon]
  | guarded body binder handler => .keyword .try_ :: (braced body.words ++ .keyword .except ::
      ((binder.toList.map Word.name) ++ (braced handler.words ++ [.mark .semicolon])))
  | done => []
  | next first rest => first.words ++ rest.words
  | nothing => []
  | otherwise body => .keyword .else_ :: braced body.words
  | elif c body other => .keyword .elif ::
      (c.term.words ++ (braced body.words ++ other.words))

/-! ## Scopes -/

/-- The names of the blocks around a phrase, innermost block and newest name first.  Outside of
all blocks names are global. -/
abbrev Names :=
  List (List Name)

/-- The names behind a phrase. -/
def after {p : Part} : Phrase p -> Names -> Names
  | declare x _, s :: outer => (x :: s) :: outer
  | next first rest, names => rest.after (first.after names)
  | _, names => names

/-- Whether a phrase obeys the rules of scopes; the flag says whether it stands in a loop. -/
def wellScoped {p : Part} : Phrase p -> Names -> Bool -> Bool
  | declare x t, s :: _, _ => !s.contains x && !t.term.names.contains x
  | cond _ body other, names, loop =>
    body.wellScoped ([] :: names) loop && other.wellScoped names loop
  | whileLoop _ body, names, _ => body.wellScoped ([] :: names) true
  | forLoop x start _ _ body, names, _ =>
    !start.term.names.contains x && body.wellScoped ([] :: [x] :: names) true
  | leave, _, loop => loop
  | again, _, loop => loop
  | guarded body binder handler, names, loop =>
    body.wellScoped ([] :: names) loop && handler.wellScoped ([] :: binder.toList :: names) loop
  | next first rest, names, loop =>
    first.wellScoped names loop && rest.wellScoped (first.after names) loop
  | otherwise body, names, loop => body.wellScoped ([] :: names) loop
  | elif _ body other, names, loop =>
    body.wellScoped ([] :: names) loop && other.wellScoped names loop
  | _, _, _ => true

attribute [grind =] words after wellScoped

end Phrase
end StackScript
