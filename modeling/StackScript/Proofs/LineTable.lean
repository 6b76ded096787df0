import StackScript.Proofs.Interpolations
import StackScript.Proofs.Loops
import StackScript.Proofs.Machine.Loads
import StackScript.Proofs.Reading.Lines
import StackScript.Proofs.Token.Spans

/-!
# The lines of compiled code

Each function of a script that compiles has one line for each of its instructions.  The lines do
not go down along the code and are lines of the script.  So whatever call of such a function the
report of a failed run mentions, the line in the report is a line of the script that the function
was compiled from.
-/

namespace StackScript

def lineCount (source : String) : Nat :=
  source.toList.count '\n' + 1

/-! ## Lines of tokens -/

namespace Position

theorem line_behind (text : List Char) : (behind text).line = text.count '\n' + 1 :=
  rfl

end Position

namespace Tiles

variable {before text : List Char} {ts : List Spanned}

/-- Tokens stand on the lines of their text. -/
theorem line_bounds (h : Tiles before text ts) (t : Spanned) (ht : t ∈ ts) :
    (Position.behind before).line <= t.start.line ∧
      t.start.line <= (Position.behind (before ++ text)).line := by
  induction h with
  | @last before gap hgap =>
      rw [List.mem_singleton.mp ht]
      simp only [Position.line_behind, List.count_append]
      lia
  | @token before gap word text token ts hgap hword htoken htiles ih =>
      rcases List.mem_cons.mp ht with rfl | ht
      · simp only [Position.line_behind, List.count_append]
        lia
      · have hbounds := ih ht
        simp only [Position.line_behind, List.count_append] at hbounds ⊢
        lia

/-- The lines of tokens do not go down. -/
theorem lines_sorted (h : Tiles before text ts) :
    ts.Pairwise fun a b => a.start.line <= b.start.line := by
  induction h with
  | last => exact List.pairwise_singleton _ _
  | @token before gap word text token ts hgap hword htoken htiles ih =>
      refine List.Pairwise.cons (fun t ht => ?_) ih
      have hle := (htiles.line_bounds t ht).1
      simp only [Position.line_behind, List.count_append] at hle ⊢
      lia

end Tiles

theorem Parser.lined_begun {source : String} {t : Spanned} {rest : List Spanned}
    (h : Spans source (t :: rest)) (base : Nat) (failure : Option LexError) :
    (begun base t rest failure).Lined (lineCount source) := by
  have hfirst : 1 <= lineCount source := Nat.le_add_left 1 _
  refine ⟨⟨?_, ?_⟩, fun d hd => absurd hd (by simp [begun, start])⟩
  · refine List.Pairwise.cons (fun u _ => ?_) h.tiles.lines_sorted
    exact Nat.le_add_left 1 _
  · intro u hu
    rcases List.mem_cons.mp hu with rfl | hu
    · exact hfirst
    · exact (h.tiles.line_bounds u hu).2

/-! ## Lines of scripts -/

/-- The code of a script and of its definitions rises through so many lines. -/
structure Script.Lined (lines : Nat) (s : Script) : Prop where
  definitions : forall d, d ∈ s.definitions -> d.Lined lines
  body : s.body.Rises 1 s.line
  bound : s.line <= lines

theorem parse_lined {base : Nat} {source : String} {s : Script} (h : parse base source = .ok s) :
    s.Lined (lineCount source) := by
  obtain ⟨uses, last, hclosed, -⟩ := Parser.parse_uses h
  obtain ⟨t, rest, failure, r', htokens, hspells, hdefinitions, hline⟩ := spells_of_parse h
  obtain rfl : failure = none := by
    rw [htokens] at hclosed
    exact (Prod.mk.inj hclosed).2
  have hstart := Parser.lined_begun ((tokenize_spans source).1 _ htokens) base none
  obtain ⟨hr', hbody⟩ := hspells.rises hstart
  constructor
  · rw [hdefinitions]
    exact hr'.definitions
  · rw [hline]
    exact Stmt.Rises.earlier hbody (Reading.one_le_line _)
  · rw [hline]
    exact hr'.line_le

/-! ## Lines of functions -/

def Function.FromScript (script : Option String) (source : String) (f : Function) : Prop :=
  exists base p, compile base script source = .ok p ∧ f ∈ p.all

section FromScript

variable {f : Function} {script : Option String} {source : String}

theorem Function.FromScript.rising (h : f.FromScript script source) :
    f.Rising (lineCount source) := by
  rcases h with ⟨base, p, hp, hf⟩
  rcases compile_eq_ok hp with ⟨s, hs, rfl⟩
  have hlined := parse_lined hs
  rcases Script.of_mem_program hf with ⟨i, d, hd, rfl⟩ | rfl
  · have hdefinition := hlined.definitions d (Array.mem_of_getElem? hd)
    exact assemble_rising hdefinition.1 hdefinition.2
  · exact assemble_rising hlined.body hlined.bound

/-- A function knows the name of its script. -/
theorem Function.FromScript.script_eq (h : f.FromScript script source) : f.script = script := by
  rcases h with ⟨base, p, hp, hf⟩
  rcases compile_eq_ok hp with ⟨s, -, rfl⟩
  rcases Script.of_mem_program hf with ⟨_, d, -, rfl⟩ | rfl
  · rfl
  · rfl

/-- Where there is an instruction there is a line. -/
theorem Function.Rising.line_mem {lines ip : Nat} (h : f.Rising lines) (hip : ip < f.code.size) :
    f.code.line ip ∈ f.code.lines := by
  have hlt : ip < f.code.lines.size := by
    rw [h.size]
    exact hip
  have hline : f.code.line ip = f.code.lines[ip] := by
    unfold Code.line
    exact (Array.getElem_eq_getD 0).symm
  rw [hline]
  exact Array.getElem_mem hlt

end FromScript

/-! ## Reports -/

namespace Machine

/-- The line of a call in a report is one of its code and one of the script. -/
structure OnLine (m : Machine) (f : Frame) (l : Load) : Prop where
  script : (m.heap.function f.function).script = l.script
  code : m.lineOf f ∈ (m.heap.function f.function).code.lines
  first : 1 <= m.lineOf f
  last : m.lineOf f <= lineCount l.source

section Reports

variable {m m' : Machine} {f : Frame} {l : Load} {log : List Load}

theorem onLine_of_made (hl : l.Made m.heap.functions f.function)
    (hip : f.ip - 1 < (m.heap.function f.function).code.size) : m.OnLine f l := by
  rcases hl with ⟨p, j, function, hp, hj, -, hfunction⟩
  have hsame : m.heap.function f.function = function := by
    rw [Heap.function, Array.getD_eq_getD_getElem?, hfunction]
    rfl
  have hfrom : function.FromScript l.script l.source := ⟨l.base, p, hp, Array.mem_of_getElem? hj⟩
  rw [hsame] at hip
  have hline : m.lineOf f = function.code.line (f.ip - 1) := by rw [lineOf, hsame]
  have hmem := hfrom.rising.line_mem hip
  rcases hfrom.rising.bounds _ hmem with ⟨hfirst, hlast⟩
  constructor
  · rw [hsame]
    exact hfrom.script_eq
  · rw [hline, hsame]
    exact hmem
  · rw [hline]
    exact hfirst
  · rw [hline]
    exact hlast

/-- The report of a failed turn has the lines of all calls that were in progress. -/
theorem Hosted.report {e : RuntimeError} (hm : m.Hosted) (h : m.tick = (.failed e, m')) :
    exists (m1 : Machine) (thrown : Value), m' = m1.reset ∧ e = m1.report thrown ∧
      m1.frames ≠ [] ∧ m.heap.Extends m1.heap ∧
      forall f, f ∈ m1.frames -> (exists g, g ∈ m.frames ∧ g.function = f.function) ∧
        forall l, l.Made m1.heap.functions f.function -> m1.OnLine f l := by
  rcases hm.placed.report hm.steady h with ⟨m1, thrown, hreset, he, hframes, hext, hcalls⟩
  refine ⟨m1, thrown, hreset, he, hframes, hext, fun f hf => ⟨(hcalls f hf).1, fun l hl => ?_⟩⟩
  exact onLine_of_made hl ((hcalls f hf).2 hl.checked)

/-- Each call in the report is one of a function of a script that the machine has loaded. -/
theorem Loads.report {e : RuntimeError} (hm : m.Loads log) (h : m.tick = (.failed e, m')) :
    exists (more : List Load) (m1 : Machine) (thrown : Value), m'.Loads (log ++ more) ∧
      m' = m1.reset ∧ e = m1.report thrown ∧ m1.frames ≠ [] ∧
      forall f, f ∈ m1.frames -> exists l, l ∈ log ++ more ∧
        l.Made m1.heap.functions f.function ∧ m1.OnLine f l := by
  rcases hm.reachable.hosted.report h with ⟨m1, thrown, rfl, he, hframes, hext, hcalls⟩
  rcases hm.exists_tick with ⟨more, hmore⟩
  rw [h] at hmore
  refine ⟨more, m1, thrown, hmore, rfl, he, hframes, fun f hf => ?_⟩
  rcases (hcalls f hf).1 with ⟨g, hg, hsame⟩
  have hgood := hm.reachable.sound.safe.frames g hg
  have hlt : f.function < m1.heap.functions.size := by
    rw [← hsame]
    exact Nat.lt_of_lt_of_le hgood.lt_size hext.size
  rcases hmore.made hlt with ⟨l, hl, hmade⟩
  exact ⟨l, hl, hmade, (hcalls f hf).2 l hmade⟩

end Reports
end Machine

/-! ## Scripts and their runs -/

/-- In each function of a script that compiles there is one line for each instruction, the lines do
not go down, and they are lines of the script.  If a run fails, the line of each call of a compiled
function in the report is a line of the source that this function was compiled from, whatever the
host has done; and if the host brings in no code of its own, each call in the report is one of a
function of a script that was loaded, imported or compiled by the host. -/
theorem compiled_lines_are_real :
    (forall base name source p, compile base name source = .ok p -> forall f, f ∈ p.all ->
      f.Rising (lineCount source)) ∧
    (forall (m m' : Machine) n e, m.Hosted -> m.run n = (.failed e, m') ->
      exists (m1 : Machine) (thrown : Value), m' = m1.reset ∧ e = m1.report thrown ∧
        m1.frames ≠ [] ∧ forall f, f ∈ m1.frames ->
          forall l, l.Made m1.heap.functions f.function -> m1.OnLine f l) ∧
    forall (m m' : Machine) log n e, m.Loads log -> m.run n = (.failed e, m') ->
      exists (more : List Load) (m1 : Machine) (thrown : Value), m'.Loads (log ++ more) ∧
        m' = m1.reset ∧ e = m1.report thrown ∧ m1.frames ≠ [] ∧
        forall f, f ∈ m1.frames -> exists l, l ∈ log ++ more ∧
          l.Made m1.heap.functions f.function ∧ m1.OnLine f l := by
  refine ⟨fun base name source p hp f hf => ?_, fun m m' n e hm h => ?_,
    fun m m' log n e hm h => ?_⟩
  · have hfrom : f.FromScript name source := ⟨base, p, hp, hf⟩
    exact hfrom.rising
  · rcases Machine.exists_failed_tick (fun _ => .tick) hm h with ⟨m0, hm0, htick⟩
    rcases hm0.report htick with ⟨m1, thrown, hreset, he, hframes, -, hcalls⟩
    exact ⟨m1, thrown, hreset, he, hframes, fun f hf => (hcalls f hf).2⟩
  · have hlogs (m : Machine) (hm : exists more, m.Loads (log ++ more)) :
        exists more, m.tick.2.Loads (log ++ more) := by
      rcases hm with ⟨more, hm⟩
      rcases hm.exists_tick with ⟨later, hlater⟩
      exact ⟨more ++ later, List.append_assoc log more later ▸ hlater⟩
    have hstart : exists more, m.Loads (log ++ more) := ⟨[], log.append_nil.symm ▸ hm⟩
    rcases Machine.exists_failed_tick hlogs hstart h with ⟨m0, ⟨more, hm0⟩, htick⟩
    rcases hm0.report htick with ⟨later, hlater⟩
    rw [List.append_assoc] at hlater
    exact ⟨more ++ later, hlater⟩

/-- A script with a string over two lines, which fails on its fourth line. -/
def failingScript : String :=
  "let s = 'a\nb'\nfunction f(x) \x7b\n throw x + s\n\x7d # end\nf(s)"

def Status.report? : Status -> Option RuntimeError
  | .failed e => some e
  | _ => none

theorem failingScript_lines_are_real :
    (exists p, compile 0 none failingScript = .ok p ∧
      p.main.code.lines.toList = [1, 1, 5, 5, 6, 6, 6, 6, 6, 6] ∧
      p.main.Rising (lineCount failingScript)) ∧
    exists m' e, (Interpreter.begun failingScript).run 30 = (.failed e, m') ∧ e.line = 4 ∧
      e.callStack = ["at f <script>:4", "at <script> <script>:6"] ∧
      (exists (m1 : Machine) (thrown : Value), m' = m1.reset ∧ e = m1.report thrown ∧
        m1.frames ≠ [] ∧ forall f, f ∈ m1.frames ->
          forall l, l.Made m1.heap.functions f.function -> m1.OnLine f l) ∧
      exists (more : List Load) (m1 : Machine) (thrown : Value),
        m'.Loads ([⟨0, none, failingScript⟩] ++ more) ∧ m' = m1.reset ∧ e = m1.report thrown ∧
        m1.frames ≠ [] ∧ forall f, f ∈ m1.frames ->
          exists l, l ∈ [⟨0, none, failingScript⟩] ++ more ∧
            l.Made m1.heap.functions f.function ∧ m1.OnLine f l := by
  have hlines : (compile 0 none failingScript).toOption.map
      (fun p => p.main.code.lines.toList) = some [1, 1, 5, 5, 6, 6, 6, 6, 6, 6] := by
    decide +kernel
  have hrun : ((Interpreter.begun failingScript).run 30).1.report?.map
      (fun e => (e.line, e.callStack)) =
        some (4, ["at f <script>:4", "at <script> <script>:6"]) := by
    decide +kernel
  have hbegun : (Interpreter.load (Interpreter.new {} Files.empty).machine none failingScript
      false).isOk = true := by
    decide +kernel
  refine ⟨?_, ?_⟩
  · rcases exists_of_toOption_map hlines with ⟨p, hp, hlines⟩
    exact ⟨p, hp, hlines, compiled_lines_are_real.1 0 none _ p hp p.main Array.mem_push_self⟩
  · have hloads := Interpreter.loads_begun hbegun
    cases hresult : (Interpreter.begun failingScript).run 30 with
    | mk status m' =>
        rw [hresult] at hrun
        cases status with
        | failed e =>
            simp only [Status.report?, Option.map_some, Option.some.injEq, Prod.mk.injEq] at hrun
            refine ⟨m', e, rfl, hrun.1, hrun.2, ?_, ?_⟩
            · exact compiled_lines_are_real.2.1 _ _ 30 e hloads.reachable.hosted hresult
            · exact compiled_lines_are_real.2.2 _ _ _ 30 e hloads hresult
        | _ => cases hrun

end StackScript
