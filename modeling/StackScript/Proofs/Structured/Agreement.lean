import StackScript.Interpreter
import StackScript.Proofs.Structured.Reading
import StackScript.Proofs.Structured.Simulation

/-!
# Structured programs are compiled to what they mean

The text of a well scoped program is compiled, and running its code agrees with carrying
the program out: one ends exactly when the other does, with the same globals and output
and the same uncaught value, if there is one.
-/

namespace StackScript

/-! ## How runs end -/

namespace Machine

/-- The next step ends the run: it finishes, or it fails with a value that nothing catches. -/
def Stops (m : Machine) (thrown : Option Value) (m' : Machine) : Prop :=
  match thrown with
  | none => m.tick = (.finished, m')
  | some v => exists raised e, m.raised? = some raised ∧ raised.toValue = v ∧
      m.tick = (.failed e, m')

/-- The run ends, with the value that nothing has caught if it fails, and leaves a machine. -/
def Ends (m : Machine) (thrown : Option Value) (m' : Machine) : Prop :=
  exists k m1, m.run k = (.running, m1) ∧ m1.Stops thrown m'

variable {m m' m1 m2 : Machine} {thrown thrown' : Option Value} {k j : Nat}

theorem Stops.tick (h : m.Stops thrown m') : exists s, s ≠ .running ∧ m.tick = (s, m') := by
  cases thrown with
  | none => exact ⟨.finished, by simp, h⟩
  | some v =>
      rcases h with ⟨raised, e, -, -, htick⟩
      exact ⟨.failed e, by simp, htick⟩

/-- A run that has stopped does not go on. -/
theorem Stops.run_le (h : m.Stops thrown m') (hrun : m.run j = (.running, m2)) : j = 0 := by
  rcases h.tick with ⟨s, hs, htick⟩
  cases j with
  | zero => rfl
  | succ j =>
      rw [run, htick] at hrun
      cases s with
      | running => exact absurd rfl hs
      | finished => cases hrun
      | failed e => cases hrun

theorem run_le_of_stops (hrun : m.run k = (.running, m1)) (h : m1.Stops thrown m')
    (hj : m.run j = (.running, m2)) : j <= k := by
  by_contra hlt
  have hmore := run_add hrun (j - k)
  rw [show k + (j - k) = j by lia, hj] at hmore
  have hzero := h.run_le hmore.symm
  lia

theorem Stops.unique (h : m.Stops thrown m1) (h' : m.Stops thrown' m2) :
    thrown = thrown' ∧ m1 = m2 := by
  cases thrown with
  | none =>
      cases thrown' with
      | none =>
          have heq := h.symm.trans h'
          cases heq
          exact ⟨rfl, rfl⟩
      | some v' =>
          rcases h' with ⟨raised', e', -, -, htick'⟩
          have heq := h.symm.trans htick'
          cases heq
  | some v =>
      rcases h with ⟨raised, e, hraised, hv, htick⟩
      cases thrown' with
      | none =>
          have heq := htick.symm.trans h'
          cases heq
      | some v' =>
          rcases h' with ⟨raised', e', hraised', hv', htick'⟩
          rw [hraised] at hraised'
          rw [htick] at htick'
          cases hraised'
          cases htick'
          exact ⟨by rw [← hv, ← hv'], rfl⟩

namespace Ends

/-- A machine that ends does not go on for ever. -/
theorem bounded (h : m.Ends thrown m') : exists n, forall m'', ¬ m.Goes n m'' := by
  rcases h with ⟨k, m1, hrun, hstops⟩
  refine ⟨k + 1, ?_⟩
  rintro m'' ⟨j, hj, hgoes⟩
  have hle := run_le_of_stops hrun hstops hgoes
  lia

/-- A run ends in one way only. -/
theorem unique (h : m.Ends thrown m1) (h' : m.Ends thrown' m2) : thrown = thrown' ∧ m1 = m2 := by
  rcases h with ⟨k, last, hrun, hstops⟩
  rcases h' with ⟨k', last', hrun', hstops'⟩
  have hk : k = k' :=
    Nat.le_antisymm (run_le_of_stops hrun' hstops' hrun) (run_le_of_stops hrun hstops hrun')
  subst hk
  rw [hrun] at hrun'
  cases hrun'
  exact hstops.unique hstops'

end Ends
end Machine

/-! ## Reading a program -/

namespace Phrase

theorem after_nil {p : Part} (c : Phrase p) : c.after [] = [] := by
  induction c with
  | next first rest ihfirst ihrest => rw [after, ihfirst, ihrest]
  | _ => rfl

theorem parse_line {c : Phrase .block} (hc : c.wellScoped [] false = true) (base : Nat) :
    exists body line, parse base (Word.line c.words) = .ok ⟨#[], body, line⟩ ∧
      c.Matches [] none body := by
  apply parse_of_runs (n := 8 * c.words.length + 1)
  · intro r hsees
    have hstart : r.Sees (inside (.script base) [] none) (ahead c.words [.endOfFile]) := hsees
    have hruns : Parser.Runs (8 * c.words.length + 1) (fun fuel => Parser.declarations fuel false) r
        fun body r' => c.Matches [] none body ∧
          r'.Sees (inside (.script base) (c.after []) none) [.endOfFile] :=
      c.readsBack hc rfl hstart
    apply hruns.mono (Nat.le_refl _)
    intro body r' hbody
    refine ⟨hbody.1, ?_⟩
    have hsurroundings := hbody.2.surroundings
    rw [after_nil] at hsurroundings
    exact hsurroundings
  · simp only [Parser.budget]
    lia

end Phrase

/-! ## Running a program -/

/-- The signal of a program that ends with a value that nothing catches, or normally. -/
def Signal.ofThrown : Option Value -> Signal
  | none => .normal
  | some v => .throw v

/-- The script of a tree, with its function in the heap. -/
def Site.ofScript (m : Machine) (name : Option String) (body : Stmt) (line : Nat) : Site where
  machine := { m with
    heap := { m.heap with
      functions := m.heap.functions.push (assemble none name 0 body line) } }
  id := m.heap.functions.size

section Script

variable {m : Machine} {name : Option String} {body : Stmt} {line : Nat}

theorem Site.function_ofScript :
    (Site.ofScript m name body line).function = assemble none name 0 body line := by
  simp [Site.function, Site.heap, Site.ofScript, Heap.function]

theorem Site.laid_ofScript :
    (Site.ofScript m name body line).Laid (poolOf body.constants).idxOf none Exits.outside 0
      body where
  code := by
    have hcode : CodeAt (assemble none name 0 body line) 0 (bodyLines body line) :=
      codeAt_assemble none name line
    rw [Site.function_ofScript]
    simp only [bodyLines, along_append] at hcode
    exact hcode.1
  constants := by
    intro v hv
    rw [Site.function_ofScript]
    exact getElem?_idxOf (mem_poolOf.mpr hv)
  handlers := by
    intro j _ _
    rw [Site.handler?, Site.function_ofScript, findRange?_assemble, Option.or_none]

/-- Behind its body a script returns. -/
theorem Site.returns_ofScript (vs : List Value) (w : World) :
    ((Site.ofScript m name body line).state (0 + body.size) vs w).Goes 0
      { (Site.ofScript m name body line).machine with
        globals := w.globals, output := w.output, frames := [] } := by
  have hcode : CodeAt (assemble none name 0 body line) 0 (bodyLines body line) :=
    codeAt_assemble none name line
  simp only [bodyLines, along_append, along_cons, Stmt.length_code] at hcode
  rw [← Site.function_ofScript (m := m)] at hcode
  exact ((goes_of_ok hcode.2.1 step_literal).trans (goes_of_ok hcode.2.2.1 step_ret)).lower
    (Nat.zero_le _)

theorem load_of_parse {source : String} (hm : m.frames = [])
    (h : parse m.heap.functions.size source = .ok ⟨#[], body, line⟩) :
    Interpreter.load m name source false =
      .ok ((Site.ofScript m name body line).state 0 [] ⟨[], m.globals, m.output⟩) := by
  have hcompile : m.heap.compile name source =
      .ok (m.heap.functions.size, (Site.ofScript m name body line).heap) := by
    rw [Heap.compile, compile, h]
    show Except.ok _ = _
    simp [Script.program, Program.all, Site.ofScript, Site.heap]
  rw [Interpreter.load, hcompile]
  show Except.ok _ = _
  simp [Machine.begin, Site.state, Site.ofScript, Site.heap, hm]

end Script

/-! ## Agreement -/

/-- Where the code of a program lands, the run ends. -/
theorem Site.ends_of_lands {m start m' : Machine} {name : Option String} {body : Stmt} {line : Nat}
    {signal : Signal} {w : World} (hgoes : start.Goes 0 m')
    (hlands : (Site.ofScript m name body line).Lands none Exits.outside none (0 + body.size)
      signal w m') :
    exists thrown last, signal = .ofThrown thrown ∧ start.Ends thrown last ∧
      last.globals = w.globals ∧ last.output = w.output ∧
      last.heap = (Site.ofScript m name body line).heap := by
  cases signal with
  | normal =>
      cases hlands
      rcases hgoes.trans (returns_ofScript w.values w) with ⟨k, -, hrun⟩
      exact ⟨none, _, rfl, ⟨k, _, hrun, rfl⟩, rfl, rfl, rfl⟩
  | leave =>
      rcases hlands with ⟨d, hd, -⟩
      cases hd
  | again =>
      rcases hlands with ⟨d, hd, -⟩
      cases hd
  | throw v =>
      rcases hlands with ⟨j, us, raised, -, hhandler, htick, hraised, hv⟩
      rcases hgoes with ⟨k, -, hrun⟩
      rw [unwind_uncaught hhandler] at htick
      exact ⟨some v, _, rfl, ⟨k, m', hrun, raised, _, hraised, hv, htick⟩, rfl, rfl, rfl⟩

/-- The text of a well scoped program is compiled.  If carrying the program out ends, running its
code ends with the same globals and output, the heap is left alone, and both end normally or with
the same uncaught value.  If running the code ends, so does carrying the program out. -/
theorem structured_program_runs_as_meant (m : Machine) (name : Option String) (c : Phrase .block)
    (hm : m.frames = []) (hc : c.wellScoped [] false = true) :
    exists f loaded, Interpreter.load m name (Word.line c.words) false = .ok loaded ∧
      loaded.heap = { m.heap with functions := m.heap.functions.push f } ∧
      (forall n signal w,
        c.exec loaded.heap n ⟨[], m.globals, m.output⟩ = some (signal, w) ->
        exists thrown m', signal = .ofThrown thrown ∧ loaded.Ends thrown m' ∧
          m'.globals = w.globals ∧ m'.output = w.output ∧ m'.heap = loaded.heap) ∧
      forall thrown m', loaded.Ends thrown m' ->
        exists n w, c.exec loaded.heap n ⟨[], m.globals, m.output⟩ = some (.ofThrown thrown, w) ∧
          m'.globals = w.globals ∧ m'.output = w.output ∧ m'.heap = loaded.heap := by
  rcases c.parse_line hc m.heap.functions.size with ⟨body, line, hparse, hmatch⟩
  let S := Site.ofScript m name body line
  have hfollows (n : Nat) : Follows n (S.state 0 [] ⟨[], m.globals, m.output⟩)
      (c.exec S.heap n ⟨[], m.globals, m.output⟩)
      (S.Lands none Exits.outside none (0 + body.size)) :=
    c.followed (w := ⟨[], m.globals, m.output⟩) hmatch Site.laid_ofScript (by simp [Exits.Around])
  have hforward {n : Nat} {signal : Signal} {w : World}
      (hexec : c.exec S.heap n ⟨[], m.globals, m.output⟩ = some (signal, w)) :
      exists thrown m', signal = .ofThrown thrown ∧
        (S.state 0 [] ⟨[], m.globals, m.output⟩).Ends thrown m' ∧
        m'.globals = w.globals ∧ m'.output = w.output ∧ m'.heap = S.heap := by
    have hn := hfollows n
    rw [hexec] at hn
    rcases hn with ⟨m', hgoes, hlands⟩
    exact Site.ends_of_lands hgoes hlands
  refine ⟨_, _, load_of_parse hm hparse, rfl, fun n signal w => hforward, ?_⟩
  intro thrown m' hends
  rcases hends.bounded with ⟨n, hbound⟩
  have hn := hfollows n
  cases hexec : c.exec S.heap n ⟨[], m.globals, m.output⟩ with
  | none =>
      rw [hexec] at hn
      rcases hn with ⟨m'', hgoes⟩
      exact absurd hgoes (hbound m'')
  | some result =>
      rcases result with ⟨signal, w⟩
      rcases hforward hexec with ⟨thrown', m'', rfl, hends', hglobals, houtput, hheap⟩
      rcases hends.unique hends' with ⟨rfl, rfl⟩
      exact ⟨n, w, hexec, hglobals, houtput, hheap⟩

/-! ## A program that throws out of a loop -/

namespace Search

def counter : Name := ⟨"i", by decide⟩

def caught : Name := ⟨"e", by decide⟩

/-- Counts up to one, throws a text, catches it and throws it again. -/
def program : Phrase .block :=
  .next
    (.forLoop counter ⟨.integer 0, trivial⟩
      ⟨.binary (.compare .less) (.named counter) (.integer 3), trivial, trivial⟩
      (.update counter .add ⟨.integer 1, trivial⟩)
      (.next
        (.guarded
          (.next
            (.cond ⟨.binary (.compare .equal) (.named counter) (.integer 1), trivial, trivial⟩
              (.next (.throw ⟨.text "found", trivial⟩) .done) .nothing)
            .done)
          (some caught)
          (.next (.throw ⟨.named caught, trivial⟩) .done))
        .done))
    .done

example : Word.line program.words =
    "for let i = 0 ; i < 3 ; i += 1 \x7b try \x7b if i == 1 \x7b throw \"found\" ; \x7d ; \x7d " ++
      "except e \x7b throw e ; \x7d ; \x7d ;" := by
  decide

theorem exec_program (h : Heap) (globals : Table) (output : String) :
    program.exec h 2 ⟨[], globals, output⟩ =
      some (.throw (.text "found"), ⟨[], globals, output⟩) := rfl

theorem program_runs_as_meant :
    exists loaded m', Interpreter.load {} none (Word.line program.words) false = .ok loaded ∧
      loaded.Ends (some (.text "found")) m' := by
  rcases structured_program_runs_as_meant {} none program rfl (by decide) with
    ⟨f, loaded, hload, -, hforward, -⟩
  rcases hforward 2 _ _ (exec_program loaded.heap _ _) with ⟨thrown, m', hsignal, hends, -⟩
  cases thrown with
  | none => cases hsignal
  | some v =>
      cases hsignal
      exact ⟨loaded, m', hload, hends⟩

end Search

end StackScript
