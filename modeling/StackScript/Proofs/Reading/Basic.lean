import StackScript.Script.Parser

/-!
# Successful steps of reading

What is known of a step that succeeded.  A sequence of steps succeeds when each of its parts does.
A reading is a place in the text with its surroundings, which are what no token changes.
-/

namespace StackScript

/-- What a reading keeps besides its place in the text. -/
structure Surroundings where
  scope : Scope
  inFunction : Bool
  loop : Option Nat
  definitions : Array Definition
  base : Nat

def Reading.surroundings (r : Reading) : Surroundings :=
  ⟨r.scope, r.inFunction, r.loop, r.definitions, r.base⟩

namespace Parser

section Steps

variable {α β : Type} {r r' : Reading}

@[simp] theorem pure_eq_ok {a b : α} :
    (pure a : Parser α) r = .ok (b, r') ↔ a = b ∧ r = r' := by
  show Except.ok (a, r) = Except.ok (b, r') ↔ _
  simp

@[simp] theorem bind_eq_ok {x : Parser α} {f : α -> Parser β} {b : β} :
    (x >>= f) r = .ok (b, r') ↔ exists a r1, x r = .ok (a, r1) ∧ f a r1 = .ok (b, r') := by
  show (x r >>= fun p => f p.1 p.2) = _ ↔ _
  cases x r with
  | error e =>
      constructor
      · intro h
        cases h
      · rintro ⟨a, r1, h, -⟩
        cases h
  | ok p =>
      constructor
      · intro h
        exact ⟨p.1, p.2, rfl, h⟩
      · rintro ⟨a, r1, h, hf⟩
        cases h
        exact hf

@[simp] theorem get_eq_ok {s : Reading} :
    (get : Parser Reading) r = .ok (s, r') ↔ r = s ∧ r = r' := by
  show Except.ok (r, r) = Except.ok (s, r') ↔ _
  simp

@[simp] theorem set_eq_ok {s : Reading} {u : PUnit} :
    (set s : Parser PUnit) r = .ok (u, r') ↔ s = r' := by
  show Except.ok (PUnit.unit, s) = Except.ok (u, r') ↔ _
  simp

@[simp] theorem modify_eq_ok {f : Reading -> Reading} {u : PUnit} :
    (modify f : Parser PUnit) r = .ok (u, r') ↔ f r = r' := by
  show Except.ok (PUnit.unit, f r) = Except.ok (u, r') ↔ _
  simp

@[simp] theorem failHere_ne_ok {f : SyntaxFault} {a : α} :
    ¬ (failHere f : Parser α) r = .ok (a, r') := by
  intro h
  cases h

@[simp] theorem exhausted_ne_ok {a : α} : ¬ (exhausted : Parser α) r = .ok (a, r') := by
  intro h
  cases h

/-! ## Looking at the token in front -/

@[simp] theorem current_eq_ok {t : Token} :
    current r = .ok (t, r') ↔ r.current.token = t ∧ r = r' := by
  simp [current]

@[simp] theorem previous_eq_ok {t : Token} :
    previous r = .ok (t, r') ↔ r.previous.token = t ∧ r = r' := by
  simp [previous]

@[simp] theorem line_eq_ok {n : Nat} :
    line r = .ok (n, r') ↔ r.previous.start.line = n ∧ r = r' := by
  simp [line]

@[simp] theorem at?_eq_ok {t : Token} {b : Bool} :
    at? t r = .ok (b, r') ↔ (r.current.token == t) = b ∧ r = r' := by
  simp only [at?, bind_eq_ok, current_eq_ok, pure_eq_ok]
  constructor
  · rintro ⟨t', _, ⟨rfl, rfl⟩, h⟩
    exact h
  · intro h
    exact ⟨_, _, ⟨rfl, rfl⟩, h⟩

@[simp] theorem scope_eq_ok {s : Scope} : scope r = .ok (s, r') ↔ r.scope = s ∧ r = r' := by
  simp [scope]

@[simp] theorem modifyScope_eq_ok {f : Scope -> Scope} {u : Unit} :
    modifyScope f r = .ok (u, r') ↔ { r with scope := f r.scope } = r' := by
  simp [modifyScope]

end Steps

end Parser
end StackScript
