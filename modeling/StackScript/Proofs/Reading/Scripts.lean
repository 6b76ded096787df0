import StackScript.Proofs.Reading.Reader

/-!
# Whole scripts

The first step of reading only brings the first token in front.  Behind it a script is read by its
declarations, which go on up to the end.  So the course of the whole is that of the declarations,
from the first token of the scan on.
-/

namespace StackScript

/-! ## Tokens of a script -/

/-- The tokens up to the end of the script or up to a fault, in which no other token is the end. -/
theorem Scanned.ends {ts : List Spanned} {failure : Option LexError} (h : Scanned ts failure) :
    exists words : List Spanned, (forall t, t ∈ words -> t.token ≠ .endOfFile) ∧
      (failure = none -> exists last : Spanned, ts = words ++ [last] ∧ last.token = .endOfFile) ∧
      (failure ≠ none -> ts = words) := by
  induction ts with
  | nil => exact ⟨[], nofun, fun hnone => absurd hnone h, fun _ => rfl⟩
  | cons t ts ih =>
      rw [Scanned] at h
      split at h
      case isTrue hend =>
        obtain ⟨rfl, rfl⟩ := h
        exact ⟨[], nofun, fun _ => ⟨t, rfl, hend⟩, fun hne => absurd rfl hne⟩
      case isFalse hword =>
        obtain ⟨words, hwords, hends, hfails⟩ := ih h
        refine ⟨t :: words, ?_, fun hnone => ?_, fun hne => congrArg (t :: ·) (hfails hne)⟩
        · intro u hu
          rcases List.mem_cons.mp hu with rfl | hu
          · exact hword
          · exact hwords u hu
        · obtain ⟨last, hts, hlast⟩ := hends hnone
          exact ⟨last, congrArg (t :: ·) hts, hlast⟩

theorem tokenize_scanned (source : String) : Scanned (tokenize source).1 (tokenize source).2 :=
  (scans_tokenize source).scanned

namespace Parser

/-- The tokens of a script up to its end, or up to a fault. -/
def Closed (ts : List Spanned) (failure : Option LexError) : Prop :=
  failure = none -> exists words last, ts = words ++ [last] ∧ last.token = .endOfFile ∧
    forall t, t ∈ words -> t.token ≠ .endOfFile

theorem tokenize_closed (source : String) :
    Closed (tokenize source).1 (tokenize source).2 := by
  intro hnone
  obtain ⟨words, hwords, hends, -⟩ := (tokenize_scanned source).ends
  obtain ⟨last, hlast, hend⟩ := hends hnone
  exact ⟨words, last, hlast, hend, hwords⟩

/-! ## Behind the first step -/

/-- Reading behind the first step, which only brings the first token in front. -/
def body (fuel : Nat) : Parser Script := do
  let s ← declarations fuel false
  return { definitions := (← get).definitions, body := s, line := ← line }

def begun (base : Nat) (t : Spanned) (rest : List Spanned) (failure : Option LexError) : Reading :=
  { start base rest failure with current := t }

theorem script_nil (fuel base : Nat) (e : LexError) :
    script fuel (start base [] (some e)) = .error (.lex e) :=
  rfl

theorem script_cons (fuel base : Nat) (t : Spanned) (rest : List Spanned)
    (failure : Option LexError) :
    script fuel (start base (t :: rest) failure) = body fuel (begun base t rest failure) :=
  rfl

theorem Closed.begun {base : Nat} {t : Spanned} {rest : List Spanned} {failure : Option LexError}
    (h : Closed (t :: rest) failure) : (begun base t rest failure).Ended := by
  intro hnone
  obtain ⟨words, last, hlast, hend, -⟩ := h hnone
  refine ⟨last, ?_, hend⟩
  show (t :: rest).getLast? = some last
  rw [hlast]
  simp

/-- A script is what its declarations give, with the functions that have been defined. -/
theorem body_proceeds {fuel more : Nat} (h : fuel <= more) (back : Bool) (r : Reading) :
    Proceeds false Taken fuel 5 back r
      (fun s r' => s.definitions = r'.definitions ∧ s.line = r'.line ∧
        r.Spells (.declaration s.body) r') (body fuel) (body more) := by
  refine ((reader h).declarations back r false).bind fun s r1 h1 => ?_
  refine proceeds_get (proceeds_lineThen ⟨rfl, rfl, h1⟩) (fun _ => rfl) fun _ => rfl

/-- The declarations of a script go on up to its end. -/
theorem current_of_declarations {fuel : Nat} {r r' : Reading} {s : Stmt}
    (h : declarations fuel false r = .ok (s, r')) : r'.current.token = .endOfFile := by
  induction fuel generalizing r s with
  | zero => exact absurd h exhausted_ne_ok
  | succ fuel ih =>
      rcases bind_eq_ok.mp h with ⟨t, r1, hcurrent, h⟩
      rcases current_eq_ok.mp hcurrent with ⟨rfl, rfl⟩
      split at h
      case isTrue hend =>
        rcases pure_eq_ok.mp h with ⟨-, rfl⟩
        simpa using hend
      case isFalse =>
        rcases bind_eq_ok.mp h with ⟨a, r2, -, h⟩
        rcases bind_eq_ok.mp h with ⟨b, r3, hrest, h⟩
        rcases pure_eq_ok.mp h with ⟨-, rfl⟩
        exact ih hrest

theorem current_of_body {fuel : Nat} {r r' : Reading} {s : Script}
    (h : body fuel r = .ok (s, r')) : r'.current.token = .endOfFile := by
  simp only [body, bind_eq_ok, get_eq_ok, line_eq_ok, pure_eq_ok] at h
  rcases h with ⟨a, r1, hdeclarations, _, _, ⟨rfl, rfl⟩, _, _, ⟨rfl, rfl⟩, -, rfl⟩
  exact current_of_declarations hdeclarations

end Parser

/-! ## Scripts that are read -/

theorem parse_eq (base : Nat) (source : String) : parse base source =
    (Parser.script (Parser.budget (tokenize source).1.length)
      (Parser.start base (tokenize source).1 (tokenize source).2)).map Prod.fst := by
  unfold parse
  simp only [StateT.run]
  split <;> rename_i heq <;> rw [heq] <;> rfl

theorem map_fst_eq_ok {ε α β : Type} {y : Except ε (α × β)} {a : α}
    (h : y.map Prod.fst = .ok a) : exists b, y = .ok (a, b) := by
  cases y with
  | error e => cases h
  | ok result =>
      cases h
      exact ⟨result.2, rfl⟩

/-- A script that can be read has a first token, and it is read from there. -/
theorem body_of_parse {base : Nat} {source : String} {s : Script} (h : parse base source = .ok s) :
    exists t rest failure r', tokenize source = (t :: rest, failure) ∧
      Parser.body (Parser.budget (t :: rest).length) (Parser.begun base t rest failure) =
        .ok (s, r') := by
  obtain ⟨ts, failure, htokens⟩ : exists ts failure, tokenize source = (ts, failure) :=
    ⟨_, _, rfl⟩
  have hscanned := tokenize_scanned source
  rw [parse_eq, htokens] at h
  rw [htokens] at hscanned
  obtain ⟨r', hrun⟩ := map_fst_eq_ok h
  cases ts with
  | nil =>
      cases failure with
      | none => exact absurd rfl hscanned
      | some e => cases hrun
  | cons t rest => exact ⟨t, rest, failure, r', htokens, hrun⟩

/-- What is read of a script stands between its first token and its end. -/
theorem spells_of_parse {base : Nat} {source : String} {s : Script}
    (h : parse base source = .ok s) :
    exists t rest failure r', tokenize source = (t :: rest, failure) ∧
      (Parser.begun base t rest failure).Spells (.declaration s.body) r' ∧
      s.definitions = r'.definitions ∧ s.line = r'.line := by
  obtain ⟨t, rest, failure, r', htokens, hrun⟩ := body_of_parse h
  obtain ⟨-, -, -, -, hdefinitions, hline, hspells⟩ :=
    (Parser.body_proceeds (Nat.le_refl _) false _).gives s r' hrun
  exact ⟨t, rest, failure, r', htokens, hspells, hdefinitions, hline⟩

end StackScript
