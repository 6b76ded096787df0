import StackScript.Proofs.Reading.Basic
import StackScript.Proofs.Source.Word

/-!
# Readings that succeed

A reading is described by the tokens in front of it and by its surroundings.  Reading
runs through when, with any budget that is large enough, it gives one and the same
result.  There is a rule for each way to put steps together and for each step that
consumes a token.
-/

namespace StackScript

def ahead (ws : List Word) (ts : List Token) : List Token :=
  ws.map Word.token ++ ts

@[simp] theorem ahead_nil (ts : List Token) : ahead [] ts = ts :=
  rfl

@[simp] theorem ahead_cons (w : Word) (ws : List Word) (ts : List Token) :
    ahead (w :: ws) ts = w.token :: ahead ws ts :=
  rfl

@[simp] theorem ahead_append (ws ws' : List Word) (ts : List Token) :
    ahead (ws ++ ws') ts = ahead ws (ahead ws' ts) := by
  simp [ahead]

theorem ahead_ne_nil (ws : List Word) {ts : List Token} (h : ts ≠ []) : ahead ws ts ≠ [] := by
  simp [ahead, h]

/-- A reading with the given surroundings in front of the given tokens. -/
structure Reading.Sees (r : Reading) (s : Surroundings) (ts : List Token) : Prop where
  sound : r.failure = none
  ahead : r.current.token :: r.rest.map Spanned.token = ts
  surroundings : r.surroundings = s

namespace Reading.Sees

variable {r : Reading} {s : Surroundings} {t : Token} {ts : List Token}

theorem current_token (h : r.Sees s (t :: ts)) : r.current.token = t :=
  (List.cons.inj h.ahead).1

theorem scope (h : r.Sees s ts) : r.scope = s.scope :=
  congrArg Surroundings.scope h.surroundings

theorem advance (h : r.Sees s (t :: ts)) (hts : ts ≠ []) :
    exists r', Parser.advance r = .ok ((), r') ∧ r'.previous.token = t ∧ r'.Sees s ts := by
  rcases List.cons.inj h.ahead with ⟨hcurrent, hrest⟩
  match hr : r.rest with
  | [] =>
      rw [hr] at hrest
      exact absurd hrest.symm hts
  | u :: rest =>
      rw [hr] at hrest
      refine ⟨{ r with previous := r.current, current := u, rest := rest }, ?_, hcurrent,
        h.sound, hrest, h.surroundings⟩
      simp [Parser.advance, hr]

end Reading.Sees

namespace Parser

/-- With a budget of at least `n` a step of reading succeeds, always with the same result, of which
the condition holds. -/
def Runs {α : Type} (n : Nat) (x : Nat -> Parser α) (r : Reading) (post : α -> Reading -> Prop) :
    Prop :=
  exists a r', (forall fuel, n <= fuel -> x fuel r = .ok (a, r')) ∧ post a r'

namespace Runs

section Rules

variable {α β : Type} {n m : Nat} {r r' : Reading} {s : Surroundings} {ts : List Token}
  {t u : Token} {post : β -> Reading -> Prop}

theorem mono {x : Nat -> Parser β} {post' : β -> Reading -> Prop} (h : Runs n x r post)
    (hn : n <= m) (hpost : forall b r', post b r' -> post' b r') : Runs m x r post' := by
  rcases h with ⟨b, r', hx, hb⟩
  exact ⟨b, r', fun fuel hfuel => hx fuel (Nat.le_trans hn hfuel), hpost b r' hb⟩

theorem weaken {x : Nat -> Parser β} (h : Runs n x r post) (hn : n <= m) : Runs m x r post :=
  h.mono hn fun _ _ hb => hb

theorem pure {b : β} (h : post b r) : Runs n (fun _ => pure b) r post :=
  ⟨b, r, fun _ _ => rfl, h⟩

theorem step {x : Parser α} {f : Nat -> α -> Parser β} {a : α} (hx : x r = .ok (a, r'))
    (hf : Runs n (fun fuel => f fuel a) r' post) : Runs n (fun fuel => x >>= f fuel) r post := by
  rcases hf with ⟨b, r2, hf, hb⟩
  refine ⟨b, r2, ?_, hb⟩
  intro fuel hfuel
  exact bind_eq_ok.mpr ⟨a, r', hx, hf fuel hfuel⟩

theorem bind {x : Nat -> Parser α} {f : Nat -> α -> Parser β} {mid : α -> Reading -> Prop}
    (hx : Runs n x r mid)
    (hf : forall a r', mid a r' -> Runs n (fun fuel => f fuel a) r' post) :
    Runs n (fun fuel => x fuel >>= f fuel) r post := by
  rcases hx with ⟨a, r1, hx, ha⟩
  rcases hf a r1 ha with ⟨b, r2, hf, hb⟩
  refine ⟨b, r2, ?_, hb⟩
  intro fuel hfuel
  exact bind_eq_ok.mpr ⟨a, r1, hx fuel hfuel, hf fuel hfuel⟩

/-- A function that opens its budget takes one unit of it. -/
theorem spend {x y : Nat -> Parser β} (heq : forall fuel, x (fuel + 1) = y fuel)
    (hy : Runs n y r post) : Runs (n + 1) x r post := by
  rcases hy with ⟨b, r', hy, hb⟩
  refine ⟨b, r', ?_, hb⟩
  intro fuel hfuel
  cases fuel with
  | zero => exact absurd hfuel (Nat.not_succ_le_zero n)
  | succ fuel =>
      rw [heq]
      exact hy fuel (Nat.le_of_succ_le_succ hfuel)

/-! ## Tokens -/

variable {f : Nat -> α -> Parser β}

theorem advance {f : Nat -> Unit -> Parser β} (h : r.Sees s (t :: ts))
    (hf : forall r', r'.previous.token = t -> r'.Sees s ts ->
      Runs n (fun fuel => f fuel ()) r' post) (hts : ts ≠ []) :
    Runs n (fun fuel => Parser.advance >>= f fuel) r post := by
  rcases h.advance hts with ⟨r', hadvance, hprevious, hsees⟩
  exact step hadvance (hf r' hprevious hsees)

theorem current {f : Nat -> Token -> Parser β} (h : r.Sees s (t :: ts))
    (hf : Runs n (fun fuel => f fuel t) r post) :
    Runs n (fun fuel => Parser.current >>= f fuel) r post :=
  step (current_eq_ok.mpr ⟨h.current_token, rfl⟩) hf

theorem previous {f : Nat -> Token -> Parser β} (h : r.previous.token = t)
    (hf : Runs n (fun fuel => f fuel t) r post) :
    Runs n (fun fuel => Parser.previous >>= f fuel) r post :=
  step (previous_eq_ok.mpr ⟨h, rfl⟩) hf

theorem line {f : Nat -> Nat -> Parser β}
    (hf : Runs n (fun fuel => f fuel r.previous.start.line) r post) :
    Runs n (fun fuel => Parser.line >>= f fuel) r post :=
  step (line_eq_ok.mpr ⟨rfl, rfl⟩) hf

theorem at? {f : Nat -> Bool -> Parser β} (h : r.Sees s (t :: ts))
    (hf : Runs n (fun fuel => f fuel (t == u)) r post) :
    Runs n (fun fuel => Parser.at? u >>= f fuel) r post :=
  step (at?_eq_ok.mpr ⟨by rw [h.current_token], rfl⟩) hf

theorem accept {f : Nat -> Bool -> Parser β} (h : r.Sees s (t :: ts))
    (hf : forall r', r'.previous.token = t -> r'.Sees s ts ->
      Runs n (fun fuel => f fuel true) r' post) (hts : ts ≠ []) :
    Runs n (fun fuel => Parser.accept t >>= f fuel) r post := by
  rcases h.advance hts with ⟨r', hadvance, hprevious, hsees⟩
  refine step ?_ (hf r' hprevious hsees)
  refine bind_eq_ok.mpr ⟨true, r, at?_eq_ok.mpr ⟨by simp [h.current_token], rfl⟩, ?_⟩
  exact bind_eq_ok.mpr ⟨(), r', hadvance, rfl⟩

/-- A token that does not stand in front is not consumed. -/
theorem decline {f : Nat -> Bool -> Parser β} (h : r.Sees s (t :: ts)) (hne : t ≠ u)
    (hf : Runs n (fun fuel => f fuel false) r post) :
    Runs n (fun fuel => Parser.accept u >>= f fuel) r post := by
  refine step ?_ hf
  exact bind_eq_ok.mpr
    ⟨false, r, at?_eq_ok.mpr ⟨by simp [h.current_token, hne], rfl⟩, rfl⟩

theorem expect {f : Nat -> Unit -> Parser β} {what : String} (h : r.Sees s (t :: ts))
    (hf : forall r', r'.previous.token = t -> r'.Sees s ts ->
      Runs n (fun fuel => f fuel ()) r' post) (hts : ts ≠ []) :
    Runs n (fun fuel => Parser.expect t what >>= f fuel) r post := by
  rcases h.advance hts with ⟨r', hadvance, hprevious, hsees⟩
  refine step ?_ (hf r' hprevious hsees)
  exact bind_eq_ok.mpr
    ⟨true, r, at?_eq_ok.mpr ⟨by simp [h.current_token], rfl⟩, hadvance⟩

theorem expectName {f : Nat -> String -> Parser β} {name what : String}
    (h : r.Sees s (.name name :: ts))
    (hf : forall r', r'.previous.token = .name name -> r'.Sees s ts ->
      Runs n (fun fuel => f fuel name) r' post) (hts : ts ≠ []) :
    Runs n (fun fuel => Parser.expectName what >>= f fuel) r post := by
  rcases h.advance hts with ⟨r', hadvance, hprevious, hsees⟩
  refine step ?_ (hf r' hprevious hsees)
  refine bind_eq_ok.mpr ⟨.name name, r, current_eq_ok.mpr ⟨h.current_token, rfl⟩, ?_⟩
  exact bind_eq_ok.mpr ⟨(), r', hadvance, rfl⟩

/-- No compound assignment stands in front. -/
theorem compound? {f : Nat -> Option Operator -> Parser β} {canAssign : Bool}
    (h : r.Sees s (t :: ts)) (ht : t.compound? = none)
    (hf : Runs n (fun fuel => f fuel none) r post) :
    Runs n (fun fuel => Parser.compound? canAssign >>= f fuel) r post := by
  refine step ?_ hf
  refine bind_eq_ok.mpr ⟨t, r, current_eq_ok.mpr ⟨h.current_token, rfl⟩, ?_⟩
  rw [ht]
  cases canAssign <;> rfl

/-- A compound assignment in front is consumed. -/
theorem compound_some {f : Nat -> Option Operator -> Parser β} {op : Operator}
    (h : r.Sees s (.update op :: ts))
    (hf : forall r', r'.Sees s ts -> Runs n (fun fuel => f fuel (some op)) r' post)
    (hts : ts ≠ []) :
    Runs n (fun fuel => Parser.compound? true >>= f fuel) r post := by
  rcases h.advance hts with ⟨r', hadvance, -, hsees⟩
  refine step ?_ (hf r' hsees)
  refine bind_eq_ok.mpr ⟨.update op, r, current_eq_ok.mpr ⟨h.current_token, rfl⟩, ?_⟩
  exact bind_eq_ok.mpr ⟨(), r', hadvance, rfl⟩

end Rules
end Runs
end Parser

/-! ## Names -/

/-- The variable that a name stands for once its value is known. -/
def Scope.look (s : Scope) (x : Name) : Variable :=
  match s.resolve x.text with
  | .slot n => .slot n
  | _ => .global x.text

theorem Scope.resolve_script (x : Name) : Scope.script.resolve x.text = .global := by
  simp [Scope.script, Scope.resolve, Scope.resolveIn, x.text_ne_empty.symm]

theorem Parser.Runs.resolve {β : Type} {n : Nat} {r : Reading} {s : Surroundings}
    {ts : List Token} {x : Name} {post : β -> Reading -> Prop}
    {f : Nat -> Variable -> Parser β} (h : r.Sees s ts)
    (hx : s.scope.resolve x.text ≠ .unsettled)
    (hf : Runs n (fun fuel => f fuel (s.scope.look x)) r post) :
    Runs n (fun fuel => Parser.resolve x.text >>= f fuel) r post := by
  refine step ?_ hf
  refine bind_eq_ok.mpr ⟨s.scope, r, scope_eq_ok.mpr ⟨h.scope, rfl⟩, ?_⟩
  unfold Scope.look
  cases hres : s.scope.resolve x.text with
  | slot => rfl
  | global => rfl
  | unsettled => exact absurd hres hx

/-! ## Whole scripts -/

def Surroundings.script (base : Nat) : Surroundings :=
  ⟨Scope.script, false, none, #[], base⟩

/-- Words that are read as declarations make a script without functions. -/
theorem parse_of_runs {base n : Nat} {ws : List Word} {post : Stmt -> Prop}
    (h : forall r, r.Sees (.script base) (ahead ws [.endOfFile]) ->
      Parser.Runs n (fun fuel => Parser.declarations fuel false) r fun body r' =>
        post body ∧ r'.surroundings = .script base)
    (hn : n <= Parser.budget (ws.length + 1)) :
    exists body line, parse base (Word.line ws) = .ok ⟨#[], body, line⟩ ∧ post body := by
  rcases tokenize_line ws with ⟨ts, htokens, hts⟩
  have hlength : ts.length = ws.length + 1 := by
    have := congrArg List.length hts
    simpa using this
  have hstart : (Parser.start base ts none).Sees (.script base)
      (.endOfFile :: ahead ws [.endOfFile]) :=
    ⟨rfl, congrArg (Token.endOfFile :: ·) hts, rfl⟩
  rcases hstart.advance (ahead_ne_nil ws (by simp)) with ⟨r1, hadvance, -, hsees⟩
  rcases h r1 hsees with ⟨body, r2, hbody, hpost, hsurroundings⟩
  have hdefinitions : r2.definitions = #[] := congrArg Surroundings.definitions hsurroundings
  have hscript : Parser.script (Parser.budget ts.length) (Parser.start base ts none) =
      .ok (⟨#[], body, r2.previous.start.line⟩, r2) := by
    refine Parser.bind_eq_ok.mpr ⟨(), r1, hadvance, ?_⟩
    refine Parser.bind_eq_ok.mpr ⟨body, r2, hbody _ (hlength ▸ hn), ?_⟩
    refine Parser.bind_eq_ok.mpr ⟨r2, r2, Parser.get_eq_ok.mpr ⟨rfl, rfl⟩, ?_⟩
    refine Parser.bind_eq_ok.mpr ⟨_, r2, Parser.line_eq_ok.mpr ⟨rfl, rfl⟩, ?_⟩
    rw [hdefinitions]
    rfl
  refine ⟨body, r2.previous.start.line, ?_, hpost⟩
  simp only [parse, htokens]
  rw [StateT.run, hscript]

end StackScript
