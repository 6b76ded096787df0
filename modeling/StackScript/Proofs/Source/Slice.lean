import StackScript.Proofs.Source.Echo

/-!
# The code of a printed slice

A slice is written with both bounds, with one of them or with none.  A first bound that is left
out is read as zero and a second one as nothing, so a slice has the code of the collection, of
both bounds and of the operation on the three.
-/

namespace StackScript
namespace Term

open StackScript.Parser

def boundWords : Option Term -> List Word
  | some t => t.words
  | Option.none => []

def sliceWords (x : Term) (start stop : Option Term) : List Word :=
  x.wordsAt Precedence.call.rank ++ .mark .leftSquare ::
    (boundWords start ++ .mark .colon :: (boundWords stop ++ [.mark .rightSquare]))

theorem zero_lt_literals : 0 < 2 ^ 63 := by
  decide

/-- The bound that is meant where none is written in front of the colon, zero. -/
def startOf (start : Option Term) : Term :=
  start.getD (.integer ⟨0, zero_lt_literals⟩)

/-- The bound that is meant where none is written behind the colon. -/
def stopOf (stop : Option Term) : Term :=
  stop.getD .none

/-- Whether a tree is a slice between the trees of three terms. -/
def SliceMatches (look : Name -> Variable) (x start stop : Term) (e : Expr) : Prop :=
  exists a b c line, e = .ternary .slice a b c line ∧ x.Matches look a ∧
    start.Matches look b ∧ stop.Matches look c

section Reading

variable {x : Term} {start stop : Option Term} {look : Name -> Variable} {s : Surroundings}
variable {r : Reading} {rest : List Token} {o i : Expr}

/-- The end of a slice, behind its colon. -/
theorem runs_slice (hstop : forall t, t ∈ stop -> t.Leads look s) (hrest : rest ≠ [])
    (ho : x.Matches look o) (hi : (startOf start).Matches look i)
    (hsees : r.Sees s (ahead (boundWords stop) (.mark .rightSquare :: rest))) :
    Runs (4 * (boundWords stop).length + 3) (fun fuel => slice fuel o i) r fun e r' =>
      SliceMatches look x (startOf start) (stopOf stop) e ∧ r'.Sees s rest := by
  apply Runs.spend (fun fuel => rfl)
  cases stop with
  | none =>
      apply Runs.at? hsees
      simp only [beq_self_eq_true, if_true]
      apply Runs.line
      simp only [pure_bind]
      refine Runs.expect hsees ?_ hrest
      intro r1 _ hsees1
      apply Runs.line
      exact Runs.pure ⟨⟨o, i, _, _, rfl, ho, hi, ⟨_, rfl⟩⟩, hsees1⟩
  | some t =>
      rcases exists_ahead_words t (.mark .rightSquare :: rest) with ⟨v, ts, hv, hopens⟩
      apply Runs.at? (hv ▸ hsees)
      have hne : (v == Token.mark .rightSquare) = false :=
        beq_eq_false_iff_ne.mpr (Token.ne_of_opensTerm hopens rfl)
      simp only [hne, Bool.false_eq_true, if_false]
      apply Runs.bind ((hstop t rfl).reads_bare (Nat.le_of_lt t.assign_lt_level) (by decide)
        ⟨by decide, rfl⟩ hsees)
      intro e r1 hread
      refine Runs.expect hread.2 ?_ hrest
      intro r2 _ hsees2
      apply Runs.line
      exact Runs.pure ⟨⟨o, i, e, _, rfl, ho, hi, hread.1⟩, hsees2⟩

/-- A slice behind its bracket. -/
theorem runs_square {canAssign : Bool} (hstart : forall t, t ∈ start -> t.Leads look s)
    (hstop : forall t, t ∈ stop -> t.Leads look s) (hrest : rest ≠ []) (ho : x.Matches look o)
    (hsees : r.Sees s (ahead (boundWords start)
      (.mark .colon :: ahead (boundWords stop) (.mark .rightSquare :: rest)))) :
    Runs (4 * (boundWords start).length + 4 * (boundWords stop).length + 4)
      (fun fuel => square fuel canAssign o) r fun e r' =>
        SliceMatches look x (startOf start) (stopOf stop) e ∧ r'.Sees s rest := by
  apply Runs.spend (fun fuel => rfl)
  cases start with
  | none =>
      refine Runs.accept hsees ?_ (ahead_ne_nil _ (by simp))
      intro r1 _ hsees1
      apply Runs.line
      have hzero : (startOf Option.none).Matches look
          (.literal (.int 0) r1.previous.start.line) := ⟨_, rfl⟩
      exact (runs_slice hstop hrest ho hzero hsees1).weaken (by simp [boundWords])
  | some t =>
      rcases exists_ahead_words t
          (.mark .colon :: ahead (boundWords stop) (.mark .rightSquare :: rest)) with
        ⟨v, ts, hv, hopens⟩
      apply Runs.decline (hv ▸ hsees) (Token.ne_of_opensTerm hopens rfl)
      have hread := (hstart t rfl).reads_bare (Nat.le_of_lt t.assign_lt_level) (by decide)
        ⟨by decide, rfl⟩ hsees
      apply Runs.bind (hread.weaken (by simp [boundWords]; lia))
      intro e r1 hread
      refine Runs.accept hread.2 ?_ (ahead_ne_nil _ (by simp))
      intro r2 _ hsees2
      have hi : (startOf (some t)).Matches look e := hread.1
      exact (runs_slice hstop hrest ho hi hsees2).weaken (by lia)

/-- A slice as an expression of its own, at the end of a script. -/
theorem runs_sliced (hx : x.Leads look s) (hstart : forall t, t ∈ start -> t.Leads look s)
    (hstop : forall t, t ∈ stop -> t.Leads look s)
    (hsees : r.Sees s (ahead (sliceWords x start stop) [.endOfFile])) :
    Runs (4 * (sliceWords x start stop).length + 8) (fun fuel => expression fuel .assign) r
      fun e r' => SliceMatches look x (startOf start) (stopOf stop) e ∧
        r'.Sees s [.endOfFile] := by
  have hwords : ahead (sliceWords x start stop) [.endOfFile] =
      ahead (x.wordsAt Precedence.call.rank) (.mark .leftSquare ::
        ahead (boundWords start) (.mark .colon :: ahead (boundWords stop)
          [.mark .rightSquare, .endOfFile])) := by
    simp only [sliceWords, ahead_append, ahead_cons, ahead_nil]
    rfl
  rw [hwords] at hsees
  have hlead : Runs
      (4 * (boundWords start).length + 4 * (boundWords stop).length + 6 +
        4 * (x.wordsAt Precedence.call.rank).length)
      (lead .assign (Precedence.assign.rank <= Precedence.assign.rank)) r
      fun e r' => SliceMatches look x (startOf start) (stopOf stop) e ∧
        r'.Sees s [.endOfFile] := by
    refine hx.lead_wordsAt (by decide) call_lt_edge ⟨by decide, rfl⟩ hsees ?_
    intro o r1 hread
    apply Runs.spend (fun fuel => rfl)
    apply Runs.current hread.2
    have hrank : Precedence.assign.rank <=
        (Token.mark .leftSquare).rule.precedence.rank := by decide
    simp only [hrank, if_true]
    refine Runs.advance hread.2 ?_ (ahead_ne_nil _ (by simp))
    intro r2 _ hsees2
    have hcontinuation (canAssign : Bool) :
        Runs (4 * (boundWords start).length + 4 * (boundWords stop).length + 5)
          (fun fuel => continuation fuel canAssign o (.mark .leftSquare)) r2 fun e r' =>
            SliceMatches look x (startOf start) (stopOf stop) e ∧ r'.Sees s [.endOfFile] :=
      Runs.spend (fun fuel => rfl) (runs_square hstart hstop (by simp) hread.1 hsees2)
    apply Runs.bind (hcontinuation _)
    intro e r3 hsliced
    exact (follow_stop hsliced.2 (by decide) hsliced).weaken (by lia)
  refine (runs_expression ⟨by decide, rfl⟩ (fun _ _ hread => hread.2) hlead).weaken ?_
  simp only [sliceWords, List.length_append, List.length_cons, List.length_nil]
  lia

end Reading
end Term

/-! ## Compiling -/

/-- Compiling `echo` of a slice gives the code of the collection, of its bounds and of the
operation.  A first bound that is not written is zero, and a second one is nothing. -/
theorem compile_echo_slice (base : Nat) (name : Option String) (x : Term)
    (start stop : Option Term) :
    exists p, compile base name (Word.line (.keyword .echo :: x.sliceWords start stop)) = .ok p ∧
      let code (t : Term) := t.code (fun y => .global y.text) p.main.code.constants.idxOf
      p.main.code.instrs.toList =
        code x ++ code (Term.startOf start) ++ code (Term.stopOf stop) ++
          [.ternary .slice, .echo, .literal .none, .ret] := by
  have hleads (t : Term) : t.Leads (fun y => .global y.text) (.script base) :=
    Term.leads t.settled_script
  have hruns : exists body line,
      parse base (Word.line (.keyword .echo :: x.sliceWords start stop)) =
        .ok ⟨#[], body, line⟩ ∧
      Term.Echoes (Term.SliceMatches (fun y => .global y.text) x (Term.startOf start)
        (Term.stopOf stop)) body := by
    apply parse_of_runs (n := 4 * (x.sliceWords start stop).length + 8 + 3)
    · intro r hsees
      apply Term.runs_echo_of (ahead_ne_nil _ (by simp)) hsees
      intro r1 hsees1
      exact Term.runs_sliced (hleads x) (fun t _ => hleads t) (fun t _ => hleads t) hsees1
    · simp only [Parser.budget, List.length_cons]
      lia
  rcases hruns with ⟨body, line, hparse, _, echoLine, ⟨a, b, c, sliceLine, rfl, ha, hb, hc⟩, rfl⟩
  refine ⟨_, by rw [compile, hparse], ?_⟩
  simp [Script.program, assemble, Stmt.code, Expr.code, Sink.instr, ha.code_eq, hb.code_eq,
    hc.code_eq]

end StackScript
