import StackScript.Compile
import StackScript.Proofs.Heights.Function
import StackScript.Proofs.Source.Expression

/-!
# The code of a printed term

A script that echoes a term is compiled to the code of the term.  Neither the budget of
the reader nor the lines of the tree matter for it, and the code finds each of its
constants at the index it mentions.
-/

namespace StackScript
namespace Term

open StackScript.Parser

section Echo

variable {t : Term} {look : Name -> Variable} {s : Surroundings} {r : Reading} {n : Nat}
variable {known : Expr -> Prop} {ts : List Token}

def Echoes (known : Expr -> Prop) (body : Stmt) : Prop :=
  exists e line, known e ∧ body = .seq (.output .echo e line) .skip

/-- A script that echoes whatever expression goes on to its end. -/
theorem runs_echo_of (hts : ts ≠ []) (hsees : r.Sees s (.keyword .echo :: ts))
    (hread : forall r', r'.Sees s ts -> Runs n (fun fuel => expression fuel .assign) r'
      fun e r' => known e ∧ r'.Sees s [.endOfFile]) :
    Runs (n + 3) (fun fuel => declarations fuel false) r fun body r' =>
      Echoes known body ∧ r'.surroundings = s := by
  have hstatement : Runs (n + 1) statement r fun body r' =>
      (exists e line, known e ∧ body = .output .echo e line) ∧ r'.Sees s [.endOfFile] := by
    apply Runs.spend (fun fuel => by rw [statement])
    apply Runs.current hsees
    refine Runs.advance hsees ?_ hts
    intro r1 _ hsees1
    apply Runs.bind (hread r1 hsees1)
    intro e r2 hread
    apply Runs.line
    exact Runs.pure ⟨⟨e, _, hread.1, rfl⟩, hread.2⟩
  have hdeclaration : Runs (n + 2) declaration r fun body r' =>
      (exists e line, known e ∧ body = .output .echo e line) ∧ r'.Sees s [.endOfFile] := by
    apply Runs.spend (fun fuel => by rw [declaration])
    apply Runs.current hsees
    apply Runs.bind hstatement
    intro body r1 hbody
    apply Runs.decline hbody.2 (by decide)
    exact Runs.pure hbody
  apply Runs.spend (fun fuel => by rw [declarations])
  apply Runs.current hsees
  apply Runs.bind hdeclaration
  intro body r1 hbody
  rcases hbody with ⟨⟨e, line, hknown, rfl⟩, hsees1⟩
  have hend : Runs 1 (fun fuel => declarations fuel false) r1 fun rest r' =>
      rest = .skip ∧ r'.surroundings = s := by
    apply Runs.spend (fun fuel => by rw [declarations])
    apply Runs.current hsees1
    exact Runs.pure ⟨rfl, hsees1.surroundings⟩
  apply Runs.bind (hend.weaken (by lia))
  intro rest r2 hrest
  rcases hrest with ⟨rfl, hsurroundings⟩
  exact Runs.pure ⟨⟨e, line, hknown, rfl⟩, hsurroundings⟩

theorem runs_echo (hsettled : t.Settled s.scope look)
    (hsees : r.Sees s (ahead (.keyword .echo :: t.words) [.endOfFile])) :
    Runs (4 * t.words.length + 5) (fun fuel => declarations fuel false) r fun body r' =>
      Echoes (t.Matches look) body ∧ r'.surroundings = s := by
  apply runs_echo_of (ahead_ne_nil _ (by simp)) hsees
  intro r1 hsees1
  exact (leads hsettled).reads_bare (Nat.le_of_lt t.assign_lt_level) (by decide)
    ⟨by decide, rfl⟩ hsees1

end Echo

end Term

/-! ## Compiling -/

/-- Outside of any block every name is global. -/
theorem Term.settled_script (t : Term) : t.Settled Scope.script fun x => .global x.text := by
  intro x _
  simp [Scope.look, Scope.resolve_script]

/-- Compiling `echo` of a printed term succeeds and gives the code of the term: its operands in the
order of the text, each operator behind its operands, and the jump of a connective just behind the
right operand.  Each constant stands where the code looks for it. -/
theorem compile_echo_term (base : Nat) (name : Option String) (t : Term) :
    exists p, compile base name (Word.line (.keyword .echo :: t.words)) = .ok p ∧
      p.functions = #[] ∧ p.main.ranges = #[] ∧
      p.main.code.instrs.toList =
        t.code (fun x => .global x.text) p.main.code.constants.idxOf ++
          [.echo, .literal .none, .ret] ∧
      forall v, v ∈ t.constants (fun x => .global x.text) ->
        p.main.code.constants[p.main.code.constants.idxOf v]? = some v := by
  have hruns : exists body line, parse base (Word.line (.keyword .echo :: t.words)) =
      .ok ⟨#[], body, line⟩ ∧ Term.Echoes (t.Matches fun x => .global x.text) body := by
    apply parse_of_runs (n := 4 * t.words.length + 5)
    · intro r hsees
      exact Term.runs_echo t.settled_script hsees
    · simp only [Parser.budget, List.length_cons]
      lia
  rcases hruns with ⟨body, line, hparse, e, echoLine, hmatch, rfl⟩
  refine ⟨_, by rw [compile, hparse], by simp [Script.program], rfl, ?_, ?_⟩
  · simp [Script.program, assemble, Stmt.code, Sink.instr, hmatch.code_eq]
  · intro v hv
    apply getElem?_idxOf
    apply mem_poolOf.mpr
    simpa [Stmt.constants, hmatch.constants_eq] using hv

end StackScript
