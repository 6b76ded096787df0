import StackScript.Proofs.Structured.Phrase
import StackScript.Value.Collection

/-!
# What structured programs mean

A phrase is carried out in a world: blocks of named values, globals and the output so
far.  It ends normally or with a signal that the phrases around it answer to.  There is
no stack of operands and there are no jumps; leaving a block forgets its names, whatever
the signal.

The number given to a phrase bounds the rounds of each of its loops.  A phrase that has
no result with any number does not end.
-/

namespace StackScript

/-! ## Worlds -/

/-- What a program can look at and change, besides the objects on the heap.  The innermost block
and the newest name come first. -/
structure World where
  scopes : List (List (Name × Value))
  globals : Table
  output : String

/-- Gives the first entry of a name another value. -/
def assignIn (x : Name) (v : Value) : List (Name × Value) -> List (Name × Value)
  | [] => []
  | (y, u) :: rest => if y = x then (y, v) :: rest else (y, u) :: assignIn x v rest

namespace World

def names (w : World) : Phrase.Names :=
  w.scopes.map fun s => s.map Prod.fst

def locals (w : World) : List (Name × Value) :=
  w.scopes.flatten

def enter (w : World) : World :=
  { w with scopes := [] :: w.scopes }

def leave (w : World) : World :=
  { w with scopes := w.scopes.tail }

/-- Declares a name in the innermost block, or a global outside of all blocks. -/
def bind (w : World) (x : Name) (v : Value) : World :=
  match w.scopes with
  | [] => { w with globals := w.globals.insert x.text v }
  | s :: outer => { w with scopes := ((x, v) :: s) :: outer }

def print (w : World) (s : String) : World :=
  { w with output := w.output ++ s }

def read (w : World) (x : Name) : Except Value Value :=
  match w.locals.lookup x with
  | some v => .ok v
  | none =>
    match w.globals[x.text]? with
    | some v => .ok v
    | none => .error (Fault.undefinedVariable x.text).value

/-- Gives the newest local of a name another value. -/
def assignLocal (x : Name) (v : Value) :
    List (List (Name × Value)) -> List (List (Name × Value))
  | [] => []
  | s :: outer =>
    if (s.lookup x).isSome then assignIn x v s :: outer else s :: assignLocal x v outer

def write (w : World) (x : Name) (v : Value) : Except Value World :=
  if (w.locals.lookup x).isSome then
    .ok { w with scopes := assignLocal x v w.scopes }
  else if w.globals.contains x.text then
    .ok { w with globals := w.globals.insert x.text v }
  else
    .error (Fault.undefinedVariable x.text).value

end World

/-! ## Terms -/

def thrown {α : Type} (x : Except Fault α) : Except Value α :=
  x.mapError Fault.value

def UnarySign.apply (h : Heap) (op : UnarySign) (a : Value) : Except Fault Value :=
  match op with
  | negate => a.negate
  | bitNot => a.bitNot
  | not => .ok (.bool (h.falsy a))

def BinarySign.apply (h : Heap) (op : BinarySign) (a b : Value) : Except Fault Value :=
  match op with
  | arith op => op.apply h a b
  | compare c => c.apply a b

/-- Whether a connective is settled by its left operand. -/
def Connective.settledBy (op : Connective) (falsy : Bool) : Bool :=
  match op with
  | and => falsy
  | or => !falsy

/-- The value of a term without calls, or what its evaluation throws. -/
def Term.eval (h : Heap) (w : World) : (t : Term) -> t.CallFree -> Except Value Value
  | integer n, _ => .ok (.integer (Int64.ofNat n))
  | float x, _ => .ok (.float x.value)
  | bool b, _ => .ok (.bool b)
  | none, _ => .ok .none
  | text s, _ => .ok (.text s)
  | named x, _ => w.read x
  | unary op a, hc => do
    let x ← a.eval h w hc
    thrown (op.apply h x)
  | binary op a b, hc => do
    let x ← a.eval h w hc.1
    let y ← b.eval h w hc.2
    thrown (op.apply h x y)
  | connect op a b, hc => do
    let x ← a.eval h w hc.1
    if op.settledBy (h.falsy x) then
      return x
    else
      b.eval h w hc.2
  | call _ _, hc => hc.elim
  | index a i, hc => do
    let x ← a.eval h w hc.1
    let y ← i.eval h w hc.2
    thrown (h.get x y)
  | property a key, hc => do
    let x ← a.eval h w hc
    thrown (h.getProperty x key.text)

namespace Plain

def eval (h : Heap) (w : World) (t : Plain) : Except Value Value :=
  t.term.eval h w t.callFree

def test (h : Heap) (t : Plain) (w : World) : Except Value Bool := do
  let v ← t.eval h w
  return !h.falsy v

end Plain

/-- The world behind an action. -/
def Action.run (h : Heap) (a : Action) (w : World) : Except Value World :=
  match a with
  | evaluate t => do
    let _ ← t.eval h w
    return w
  | assign x t => do
    let v ← t.eval h w
    w.write x v
  | update x op t => do
    let old ← w.read x
    let v ← t.eval h w
    let new ← thrown (op.apply h old v)
    w.write x new

/-! ## Phrases -/

/-- How a phrase ends. -/
inductive Signal where
  | normal
  /-- The innermost loop is left. -/
  | leave
  /-- The next round of the innermost loop starts. -/
  | again
  | throw (v : Value)
  deriving DecidableEq

/-- The signal of a phrase and the world behind it; nothing if it has not ended. -/
abbrev Result :=
  Option (Signal × World)

/-- Goes on with a value, or ends with what was thrown. -/
def orThrow {α : Type} (x : Except Value α) (w : World) (k : α -> Result) : Result :=
  match x with
  | .ok a => k a
  | .error v => some (.throw v, w)

/-- Closes the innermost block behind a phrase. -/
def inScope (run : World -> Result) (w : World) : Result :=
  (run w).map fun r => (r.1, r.2.leave)

def inBlock (run : World -> Result) (w : World) : Result :=
  inScope run w.enter

/-- Repeats a body while a test holds, with a step between two rounds. -/
def rounds (test : World -> Except Value Bool) (body : World -> Result)
    (step : World -> Except Value World) : Nat -> World -> Result
  | 0, _ => none
  | n + 1, w =>
    orThrow (test w) w fun holds =>
      if holds then
        match body w with
        | none => none
        | some (.leave, w) => some (.normal, w)
        | some (.throw v, w) => some (.throw v, w)
        | some (_, w) => orThrow (step w) w (rounds test body step n)
      else
        some (.normal, w)

/-- The world that a handler starts in. -/
def World.caught (w : World) (binder : Option Name) (v : Value) : World :=
  match binder with
  | some x => w.enter.bind x v
  | none => w.enter

/-- Carries a phrase out. -/
def Phrase.exec (h : Heap) (n : Nat) {p : Part} : Phrase p -> World -> Result
  | declare x t, w => orThrow (t.eval h w) w fun v => some (.normal, w.bind x v)
  | perform a, w => orThrow (a.run h w) w fun w => some (.normal, w)
  | echo t, w => orThrow (t.eval h w) w fun v => some (.normal, w.print (h.render v ++ "\n"))
  | throw t, w => orThrow (t.eval h w) w fun v => some (.throw v, w)
  | cond c body other, w =>
    orThrow (c.test h w) w fun holds =>
      if holds then inBlock (body.exec h n) w else other.exec h n w
  | whileLoop c body, w => rounds (c.test h) (inBlock (body.exec h n)) .ok n w
  | forLoop x start c step body, w =>
    orThrow (start.eval h w) w fun v =>
      inScope (rounds (c.test h) (inBlock (body.exec h n)) (step.run h) n) (w.enter.bind x v)
  | leave, w => some (.leave, w)
  | again, w => some (.again, w)
  | guarded body binder handler, w =>
    match inBlock (body.exec h n) w with
    | some (.throw v, w) => inScope (inBlock (handler.exec h n)) (w.caught binder v)
    | r => r
  | done, w => some (.normal, w)
  | next first rest, w =>
    match first.exec h n w with
    | some (.normal, w) => rest.exec h n w
    | r => r
  | nothing, w => some (.normal, w)
  | otherwise body, w => inBlock (body.exec h n) w
  | elif c body other, w =>
    orThrow (c.test h w) w fun holds =>
      if holds then inBlock (body.exec h n) w else other.exec h n w

/-! ## More rounds -/

section Rounds

variable {w : World} {r : Signal × World}

theorem orThrow_mono {α : Type} {x : Except Value α} {k k' : α -> Result}
    (hk : forall {a}, k a = some r -> k' a = some r) (h : orThrow x w k = some r) :
    orThrow x w k' = some r := by
  cases x with
  | ok a => exact hk h
  | error v => exact h

theorem inScope_mono {run run' : World -> Result}
    (hrun : forall {w r}, run w = some r -> run' w = some r) (h : inScope run w = some r) :
    inScope run' w = some r := by
  rcases Option.map_eq_some_iff.mp h with ⟨r', hr', rfl⟩
  exact Option.map_eq_some_iff.mpr ⟨r', hrun hr', rfl⟩

theorem rounds_mono {test : World -> Except Value Bool} {body body' : World -> Result}
    {step : World -> Except Value World} (hbody : forall {w r}, body w = some r -> body' w = some r)
    {n n' : Nat} (hn : n <= n') (h : rounds test body step n w = some r) :
    rounds test body' step n' w = some r := by
  induction n generalizing n' w with
  | zero => cases h
  | succ n ih =>
      cases n' with
      | zero => cases hn
      | succ n' =>
          have hle : n <= n' := Nat.le_of_succ_le_succ hn
          refine orThrow_mono ?_ h
          intro holds hround
          cases holds with
          | false => exact hround
          | true =>
              simp only [if_true] at hround ⊢
              cases hw : body w with
              | none => simp [hw] at hround
              | some result =>
                  rcases result with ⟨signal, w'⟩
                  rw [hw] at hround
                  rw [hbody hw]
                  cases signal with
                  | normal | again => exact orThrow_mono (ih hle) hround
                  | leave | throw => exact hround

/-- A phrase that ends with some number of rounds ends in the same way with more of them. -/
theorem Phrase.exec_mono {h : Heap} {n n' : Nat} (hn : n <= n') {p : Part} {c : Phrase p}
    (hexec : c.exec h n w = some r) : c.exec h n' w = some r := by
  induction c generalizing w r with
  | declare | perform | echo | throw | leave | again | done | nothing => exact hexec
  | cond c body other ihbody ihother | elif c body other ihbody ihother =>
      refine orThrow_mono ?_ hexec
      intro holds hbranch
      cases holds with
      | true => exact inScope_mono ihbody hbranch
      | false => exact ihother hbranch
  | whileLoop c body ih => exact rounds_mono (inScope_mono ih) hn hexec
  | forLoop x start c step body ih =>
      refine orThrow_mono ?_ hexec
      exact inScope_mono (rounds_mono (inScope_mono ih) hn)
  | guarded body binder handler ihbody ihhandler =>
      rw [exec] at hexec ⊢
      cases hw : inBlock (body.exec h n) w with
      | none => simp [hw] at hexec
      | some result =>
          rcases result with ⟨signal, w'⟩
          rw [hw] at hexec
          rw [show inBlock (body.exec h n') w = some (signal, w') from inScope_mono ihbody hw]
          cases signal with
          | throw v => exact inScope_mono (inScope_mono ihhandler) hexec
          | normal | leave | again => exact hexec
  | next first rest ihfirst ihrest =>
      rw [exec] at hexec ⊢
      cases hw : first.exec h n w with
      | none => simp [hw] at hexec
      | some result =>
          rcases result with ⟨signal, w'⟩
          rw [hw] at hexec
          rw [ihfirst hw]
          cases signal with
          | normal => exact ihrest hexec
          | leave | again | throw => exact hexec
  | otherwise body ih => exact inScope_mono ih hexec

/-- The number of rounds only says whether a phrase ends, not how. -/
theorem Phrase.exec_unique {h : Heap} {n n' : Nat} {p : Part} {c : Phrase p}
    {r' : Signal × World} (hexec : c.exec h n w = some r) (hexec' : c.exec h n' w = some r') :
    r = r' := by
  rcases Nat.le_total n n' with hle | hle
  · exact Option.some.inj ((exec_mono hle hexec).symm.trans hexec')
  · exact Option.some.inj (hexec.symm.trans (exec_mono hle hexec'))

end Rounds

/-! ## The names of a world -/

theorem map_fst_assignIn (x : Name) (v : Value) (l : List (Name × Value)) :
    (assignIn x v l).map Prod.fst = l.map Prod.fst := by
  induction l with
  | nil => rfl
  | cons e l ih =>
      rw [assignIn]
      split
      · rfl
      · simp [ih]

namespace World

@[simp] theorem names_enter (w : World) : w.enter.names = [] :: w.names := rfl

@[simp] theorem names_leave (w : World) : w.leave.names = w.names.tail := by
  simp [leave, names]

@[simp] theorem names_print (w : World) (s : String) : (w.print s).names = w.names := rfl

theorem names_bind (w : World) (x : Name) (v : Value) (t : Plain) :
    (w.bind x v).names = (Phrase.declare x t).after w.names := by
  rcases w with ⟨scopes, globals, output⟩
  cases scopes <;> rfl

@[simp] theorem names_enter_bind (w : World) (x : Name) (v : Value) :
    (w.enter.bind x v).names = [x] :: w.names := rfl

@[simp] theorem names_caught (w : World) (binder : Option Name) (v : Value) :
    (w.caught binder v).names = binder.toList :: w.names := by
  cases binder <;> rfl

theorem names_assignLocal (x : Name) (v : Value) (scopes : List (List (Name × Value))) :
    (assignLocal x v scopes).map (fun s => s.map Prod.fst) =
      scopes.map fun s => s.map Prod.fst := by
  induction scopes with
  | nil => rfl
  | cons s scopes ih =>
      rw [assignLocal]
      split
      · simp [map_fst_assignIn]
      · simp [ih]

theorem names_write {w w' : World} {x : Name} {v : Value} (h : w.write x v = .ok w') :
    w'.names = w.names := by
  unfold write at h
  split at h
  · cases h
    exact names_assignLocal x v w.scopes
  · split at h
    · cases h
      rfl
    · cases h

/-- The worlds differ at most in the names of the innermost block. -/
def SameAround (w w' : World) : Prop :=
  w'.names.tail = w.names.tail ∧ w'.names.length = w.names.length

theorem sameAround_of_eq {w w' : World} (h : w'.names = w.names) : w.SameAround w' := by
  rw [SameAround, h]
  exact ⟨rfl, rfl⟩

theorem SameAround.trans {w w' w'' : World} (h : w.SameAround w') (h' : w'.SameAround w'') :
    w.SameAround w'' :=
  ⟨h'.1.trans h.1, h'.2.trans h.2⟩

end World

theorem exists_of_bind_eq_ok {ε α β : Type} {x : Except ε α} {f : α -> Except ε β} {b : β}
    (h : x >>= f = .ok b) : exists a, x = .ok a ∧ f a = .ok b := by
  cases x with
  | error e => cases h
  | ok a => exact ⟨a, rfl, h⟩

theorem Action.names_run {h : Heap} {a : Action} {w w' : World} (hrun : a.run h w = .ok w') :
    w'.names = w.names := by
  cases a with
  | evaluate t =>
      rcases exists_of_bind_eq_ok hrun with ⟨v, -, hw⟩
      cases hw
      rfl
  | assign x t =>
      rcases exists_of_bind_eq_ok hrun with ⟨v, -, hw⟩
      exact World.names_write hw
  | update x op t =>
      rcases exists_of_bind_eq_ok hrun with ⟨old, -, hw⟩
      rcases exists_of_bind_eq_ok hw with ⟨v, -, hw⟩
      rcases exists_of_bind_eq_ok hw with ⟨new, -, hw⟩
      exact World.names_write hw

section Names

variable {run body : World -> Result} {w w' : World} {signal : Signal}

theorem cases_of_orThrow {α : Type} {x : Except Value α} {k : α -> Result}
    (h : orThrow x w k = some (signal, w')) :
    (exists a, x = .ok a ∧ k a = some (signal, w')) ∨
      exists v, x = .error v ∧ signal = .throw v ∧ w' = w := by
  cases x with
  | ok a => exact Or.inl ⟨a, rfl, h⟩
  | error v =>
      cases h
      exact Or.inr ⟨v, rfl, rfl, rfl⟩

theorem names_inScope (hrun : forall {w signal w'}, run w = some (signal, w') -> w.SameAround w')
    (h : inScope run w = some (signal, w')) : w'.names = w.names.tail := by
  rcases Option.map_eq_some_iff.mp h with ⟨⟨signal', w1⟩, h1, h2⟩
  cases h2
  rw [World.names_leave, (hrun h1).1]

theorem names_inBlock (hrun : forall {w signal w'}, run w = some (signal, w') -> w.SameAround w')
    (h : inBlock run w = some (signal, w')) : w'.names = w.names :=
  names_inScope hrun h

theorem names_rounds {test : World -> Except Value Bool} {step : World -> Except Value World}
    (hbody : forall {w signal w'}, body w = some (signal, w') -> w'.names = w.names)
    (hstep : forall {w w'}, step w = .ok w' -> w'.names = w.names) {n : Nat}
    (h : rounds test body step n w = some (signal, w')) : w'.names = w.names := by
  induction n generalizing w with
  | zero => cases h
  | succ n ih =>
      rcases cases_of_orThrow h with ⟨holds, -, h⟩ | ⟨v, -, -, rfl⟩
      · cases holds with
        | false =>
            cases h
            rfl
        | true =>
            cases hw : body w with
            | none => simp [hw] at h
            | some r =>
                rcases r with ⟨signal', w1⟩
                have hnames := hbody hw
                cases signal' with
                | leave | throw =>
                    simp only [hw, if_true, Option.some.injEq, Prod.mk.injEq] at h
                    rw [← h.2, hnames]
                | normal | again =>
                    simp only [hw, if_true] at h
                    rcases cases_of_orThrow h with ⟨w2, hw2, h⟩ | ⟨v, -, -, rfl⟩
                    · rw [ih h, hstep hw2, hnames]
                    · exact hnames
      · rfl

end Names

namespace Phrase

theorem after_branch (c : Phrase .branch) (names : Names) : c.after names = names := by
  cases c <;> rfl

/-- A phrase changes the names of the innermost block only, and when it ends normally it has
declared what its text says. -/
theorem exec_names {h : Heap} {n : Nat} {p : Part} {c : Phrase p} {w w' : World} {signal : Signal}
    (hexec : c.exec h n w = some (signal, w')) :
    w.SameAround w' ∧ (signal = .normal -> w'.names = c.after w.names) := by
  have exact_names {w w' : World} {signal : Signal} {names : Names} (hw : w'.names = w.names)
      (hnames : names = w.names) :
      w.SameAround w' ∧ (signal = .normal -> w'.names = names) :=
    ⟨World.sameAround_of_eq hw, fun _ => hw.trans hnames.symm⟩
  induction c generalizing w w' signal with
  | declare x t =>
      rcases cases_of_orThrow hexec with ⟨v, -, hw⟩ | ⟨v, -, rfl, rfl⟩
      · cases hw
        rw [World.names_bind w x v t, World.SameAround, World.names_bind w x v t]
        cases w.names <;> simp [after]
      · exact ⟨World.sameAround_of_eq rfl, fun hs => by cases hs⟩
  | perform a =>
      rcases cases_of_orThrow hexec with ⟨w1, hw1, hw⟩ | ⟨v, -, rfl, rfl⟩
      · cases hw
        exact exact_names (Action.names_run hw1) rfl
      · exact exact_names rfl rfl
  | echo t | throw t =>
      rcases cases_of_orThrow hexec with ⟨v, -, hw⟩ | ⟨v, -, rfl, rfl⟩
      · cases hw
        exact exact_names rfl rfl
      · exact exact_names rfl rfl
  | cond c body other ihbody ihother =>
      rcases cases_of_orThrow hexec with ⟨holds, -, hw⟩ | ⟨v, -, rfl, rfl⟩
      · cases holds with
        | true => exact exact_names (names_inBlock (fun h => (ihbody h).1) hw) rfl
        | false =>
            rcases ihother hw with ⟨hsame, hnormal⟩
            exact ⟨hsame, fun hs => by rw [hnormal hs, after_branch]; rfl⟩
      · exact exact_names rfl rfl
  | whileLoop c body ih =>
      exact exact_names (names_rounds (names_inBlock fun h => (ih h).1) (fun hw => by cases hw; rfl)
        hexec) rfl
  | forLoop x start c step body ih =>
      rcases cases_of_orThrow hexec with ⟨v, -, hw⟩ | ⟨v, -, rfl, rfl⟩
      · have hbody := names_inScope (fun h => World.sameAround_of_eq (names_rounds
          (names_inBlock fun h => (ih h).1) Action.names_run h)) hw
        exact exact_names hbody rfl
      · exact exact_names rfl rfl
  | leave | again | done | nothing =>
      cases hexec
      exact exact_names rfl rfl
  | guarded body binder handler ihbody ihhandler =>
      have hblock {w1 : World} {signal1 : Signal}
          (hw1 : inBlock (body.exec h n) w = some (signal1, w1)) : w1.names = w.names :=
        names_inBlock (fun h => (ihbody h).1) hw1
      rw [exec] at hexec
      split at hexec
      · rename_i v w1 hw1
        have hhandler := names_inScope (fun h => World.sameAround_of_eq
          (names_inBlock (fun h => (ihhandler h).1) h)) hexec
        rw [World.names_caught, List.tail_cons] at hhandler
        exact exact_names (hhandler.trans (hblock hw1)) rfl
      · exact exact_names (hblock hexec) rfl
  | next first rest ihfirst ihrest =>
      rw [exec] at hexec
      split at hexec
      · rename_i w1 hw1
        rcases ihfirst hw1 with ⟨hsame1, hnormal1⟩
        rcases ihrest hexec with ⟨hsame, hnormal⟩
        refine ⟨hsame1.trans hsame, ?_⟩
        intro hs
        rw [hnormal hs, hnormal1 rfl, after]
      · rename_i hne
        refine ⟨(ihfirst hexec).1, ?_⟩
        rintro rfl
        exact absurd hexec (hne w')
  | otherwise body ih => exact exact_names (names_inBlock (fun h => (ih h).1) hexec) rfl
  | elif c body other ihbody ihother =>
      rcases cases_of_orThrow hexec with ⟨holds, -, hw⟩ | ⟨v, -, rfl, rfl⟩
      · cases holds with
        | true => exact exact_names (names_inBlock (fun h => (ihbody h).1) hw) rfl
        | false =>
            rcases ihother hw with ⟨hsame, hnormal⟩
            exact ⟨hsame, fun hs => by rw [hnormal hs, after_branch]; rfl⟩
      · exact exact_names rfl rfl

end Phrase

end StackScript
