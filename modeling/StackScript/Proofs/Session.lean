import StackScript.Interpreter
import StackScript.Proofs.Machine.Tidy

/-!
# One call after the other

Calls are made on one interpreter again and again, and each may end as it likes: the script
runs to its end, is rejected, cannot be read, or throws a value that nothing catches.  The
next call finds nothing in progress, so what it does follows from the limits, the files, the
functions of the host, the heap and the globals alone.
-/

namespace StackScript

/-- A call on an interpreter. -/
inductive Request where
  | addNative (name : String) (native : Native)
  /-- A script may have a name, and its code may be shown first. -/
  | interpret (script : Option String) (source : String) (listing : Bool)
  | interpretFile (path : String) (listing : Bool)

/-- The answer to a call and the interpreter after it, if scripts run for at most `fuel`
instructions. -/
def Request.serve (fuel : Nat) : Request -> Interpreter -> Option Failure × Interpreter
  | addNative name native, i => (none, i.addNative name native)
  | interpret script source listing, i => i.interpret fuel script source listing
  | interpretFile path listing, i => i.interpretFile fuel path listing

/-- An interpreter after calls that have all returned.  The files may change in between. -/
inductive Interpreter.Served : Interpreter -> Prop where
  | new (limits : Limits) (files : Files) : Served (new limits files)
  | files (files : Files) {i : Interpreter} :
      Served i -> Served { i with machine := { i.machine with files := files } }
  | call (fuel : Nat) (r : Request) {i : Interpreter} :
      Served i -> (r.serve fuel i).1 ≠ some .unfinished -> Served (r.serve fuel i).2

namespace Machine

/-- Two machines with the same limits, files, functions of the host, heap and globals. -/
structure SameWorld (m m' : Machine) : Prop where
  limits : m.limits = m'.limits
  files : m.files = m'.files
  natives : m.natives = m'.natives
  heap : m.heap = m'.heap
  globals : Table.Same m.globals m'.globals

section Worlds

variable {a b : String} {m m' : Machine}

theorem Alike.sameWorld (h : m.Alike a b m') : m.SameWorld m' := by
  rcases h with ⟨m, text, hsame⟩
  exact ⟨rfl, rfl, rfl, rfl, hsame⟩

theorem Alike.written (h : m.Alike a b m') :
    exists text, m.output = a ++ text ∧ m'.output = b ++ text := by
  rcases h with ⟨m, text, -⟩
  exact ⟨text, rfl, rfl⟩

/-- With nothing in progress there is nothing else in which machines could differ. -/
theorem SameWorld.alike (h : m.SameWorld m') (hm : m.Idle) (hm' : m'.Idle) :
    m.Alike m.output m'.output m' := by
  have hleft : m = { m with globals := m.globals, output := m.output ++ "" } := by
    rw [String.append_empty]
  have hright : m' = { m with globals := m'.globals, output := m'.output ++ "" } := by
    rw [String.append_empty, h.limits, h.files, h.natives, h.heap, hm.stack, hm.frames,
      ← hm'.stack, ← hm'.frames]
  have halike := Alike.mk (a := m.output) (b := m'.output) m "" h.globals
  rwa [← hleft, ← hright] at halike

end Worlds
end Machine

namespace Interpreter

section Calls

variable {a b : String} {m m' : Machine} {i j : Interpreter} {fuel : Nat}
  {script : Option String} {source : String} {listing : Bool}

/-! ## Nothing is in progress between calls -/

theorem load_rooted (hm : m.Idle) (hload : load m script source listing = .ok m') :
    m'.Rooted := by
  rcases load_ok hload with ⟨id, h, output, -, rfl⟩
  show ((⟨id, 0, m.stack.size⟩ :: m.frames : List Frame).map Frame.base).getLast? = some 0
  rw [hm.stack, hm.frames]
  rfl

theorem idle_interpret (hi : i.machine.Idle)
    (hreturns : (i.interpret fuel script source listing).1 ≠ some .unfinished) :
    (i.interpret fuel script source listing).2.machine.Idle := by
  unfold interpret at hreturns ⊢
  cases hload : load i.machine script source listing with
  | error e => exact hi
  | ok m =>
      have hgrounded : m.Grounded := Or.inr (load_rooted hi hload)
      have hsettles := hgrounded.run fuel
      rw [hload] at hreturns
      apply hsettles.idle
      intro hrunning
      apply hreturns
      show failureOf? (m.run fuel).1 = some .unfinished
      rw [hrunning]
      rfl

theorem idle_interpretFile {path : String} (hi : i.machine.Idle)
    (hreturns : (i.interpretFile fuel path listing).1 ≠ some .unfinished) :
    (i.interpretFile fuel path listing).2.machine.Idle := by
  unfold interpretFile at hreturns ⊢
  cases hread : i.machine.files.read path with
  | error e => exact hi
  | ok source =>
      rw [hread] at hreturns
      exact idle_interpret hi hreturns

theorem Served.idle (h : i.Served) : i.machine.Idle := by
  induction h with
  | new limits files => exact ⟨rfl, rfl⟩
  | files files _ ih => exact ⟨ih.stack, ih.frames⟩
  | call fuel r _ hreturns ih =>
      cases r with
      | addNative name native => exact ⟨ih.stack, ih.frames⟩
      | interpret script source listing => exact idle_interpret ih hreturns
      | interpretFile path listing => exact idle_interpretFile ih hreturns

theorem interpret_rejected (h : (load i.machine script source listing).isOk = false) :
    (i.interpret fuel script source listing).2.machine = i.machine := by
  unfold interpret
  cases hload : load i.machine script source listing with
  | error e => rfl
  | ok m =>
      rw [hload] at h
      cases h

theorem interpretFile_unread {path : String} (h : (i.machine.files.read path).isOk = false) :
    (i.interpretFile fuel path listing).2.machine = i.machine := by
  unfold interpretFile
  cases hread : i.machine.files.read path with
  | error e => rfl
  | ok source =>
      rw [hread] at h
      cases h

/-! ## Calls on machines that are alike -/

/-- The same answer from interpreters whose machines are alike. -/
structure Echoes (a b : String) (answer answer' : Option Failure × Interpreter) : Prop where
  failure : answer.1 = answer'.1
  machines : answer.2.machine.Alike a b answer'.2.machine

theorem load_alike (script : Option String) (source : String) (listing : Bool)
    (h : m.Alike a b m') :
    (exists e, load m script source listing = .error e ∧
      load m' script source listing = .error e) ∨
    exists m1 m1', load m script source listing = .ok m1 ∧
      load m' script source listing = .ok m1' ∧ m1.Alike a b m1' := by
  rcases h with ⟨m, text, hsame⟩
  unfold load
  rcases m.heap.compile script source with e | ⟨id, h⟩
  · exact Or.inl ⟨e, rfl, rfl⟩
  · have halike : Machine.Alike a b _ _ :=
      .mk ({ m with heap := h }.begin id)
        (text ++ if listing then h.listing (h.function id) else "") hsame
    rw [← String.append_assoc, ← String.append_assoc] at halike
    exact Or.inr ⟨_, _, rfl, rfl, halike⟩

theorem interpret_echoes (hi : i.machine.Idle) (h : i.machine.Alike a b j.machine) :
    Echoes a b (i.interpret fuel script source listing)
      (j.interpret fuel script source listing) := by
  unfold interpret
  rcases load_alike script source listing h with ⟨e, hload, hload'⟩ |
    ⟨m, m', hload, hload', halike⟩
  · rw [hload, hload']
    exact ⟨rfl, h⟩
  · rw [hload, hload']
    have hconcur := halike.run (Or.inr (load_rooted hi hload)) fuel
    exact ⟨congrArg failureOf? hconcur.status, hconcur.machines⟩

theorem serve_echoes (fuel : Nat) (r : Request) (hi : i.machine.Idle)
    (h : i.machine.Alike a b j.machine) :
    Echoes a b (r.serve fuel i) (r.serve fuel j) := by
  cases r with
  | addNative name native =>
      rcases i with ⟨m, e⟩
      rcases j with ⟨m', e'⟩
      rcases h with ⟨m, text, hsame⟩
      exact ⟨rfl, .mk { m with natives := m.natives.push native } text (hsame.insert name _)⟩
  | interpret script source listing => exact interpret_echoes hi h
  | interpretFile path listing =>
      have hfiles : j.machine.files = i.machine.files := h.sameWorld.files.symm
      simp only [Request.serve, interpretFile, hfiles]
      cases i.machine.files.read path with
      | error e => exact ⟨rfl, h⟩
      | ok source => exact interpret_echoes hi h

end Calls
end Interpreter

/-! ## What a call depends on -/

/-- However the calls on an interpreter ended, they left nothing on the stack, and in each run
the outermost call stands at the bottom of it.  So on two interpreters with the same limits,
files, functions of the host, heap and globals, whatever was called on them before, the next
call has the same result, writes the same text and leaves the same globals. -/
theorem calls_leave_nothing_behind :
    (forall i : Interpreter, i.Served -> i.machine.stack = #[] ∧ i.machine.frames = []) ∧
    (forall (i : Interpreter) (script : Option String) (source : String) (listing : Bool)
        (m m' : Machine) (n : Nat) (f : Frame), i.Served ->
      Interpreter.load i.machine script source listing = .ok m -> m.run n = (.running, m') ->
        m'.frames.getLast? = some f -> f.base = 0) ∧
    forall (i j : Interpreter) (r : Request) (fuel : Nat), i.Served -> j.Served ->
      i.machine.SameWorld j.machine ->
        (r.serve fuel i).1 = (r.serve fuel j).1 ∧
        (r.serve fuel i).2.machine.SameWorld (r.serve fuel j).2.machine ∧
        exists text, (r.serve fuel i).2.machine.output = i.machine.output ++ text ∧
          (r.serve fuel j).2.machine.output = j.machine.output ++ text := by
  refine ⟨?_, ?_, ?_⟩
  · intro i hi
    exact ⟨hi.idle.stack, hi.idle.frames⟩
  · intro i script source listing m m' n f hi hload hrun hlast
    have hgrounded : m.Grounded := Or.inr (Interpreter.load_rooted hi.idle hload)
    have hsettles := hgrounded.run n
    rw [hrun] at hsettles
    rcases hsettles.grounded with hidle | hrooted
    · rw [hidle.frames] at hlast
      cases hlast
    · unfold Machine.Rooted at hrooted
      rw [List.getLast?_map, hlast] at hrooted
      simpa using hrooted
  · intro i j r fuel hi hj hsame
    have hechoes := Interpreter.serve_echoes fuel r hi.idle (hsame.alike hi.idle hj.idle)
    exact ⟨hechoes.failure, hechoes.machines.sameWorld, hechoes.machines.written⟩

/-! ## A call after failed calls -/

/-- An interpreter on which a value was thrown that nothing caught. -/
def uncaught : Interpreter :=
  ((Request.interpret none "throw 1" false).serve 5 (.new {} Files.empty)).2

/-- Then there was no file to read. -/
def unread : Interpreter :=
  ((Request.interpretFile "script" false).serve 5 uncaught).2

/-- Or then there was a text without an end. -/
def unended : Interpreter :=
  ((Request.interpret none "\"" false).serve 5 uncaught).2

theorem served_uncaught : uncaught.Served :=
  .call 5 _ (.new {} Files.empty) (by decide +kernel)

/-- The last two calls failed in different ways, but neither started a run. -/
theorem sameWorld_unread_unended : unread.machine.SameWorld unended.machine := by
  have hunread : unread.machine = uncaught.machine :=
    Interpreter.interpretFile_unread (by decide +kernel)
  have hunended : unended.machine = uncaught.machine :=
    Interpreter.interpret_rejected (by decide +kernel)
  rw [hunread, hunended]
  exact ⟨rfl, rfl, rfl, rfl, fun _ => rfl⟩

def echoTwo : Request :=
  .interpret none "echo 2" false

def echoing : Machine :=
  (Interpreter.load unread.machine none "echo 2" false).toOption.getD default

theorem failed_calls_leave_nothing_behind :
    unread.Served ∧ unended.Served ∧ unread.error ≠ unended.error ∧
      unread.machine.SameWorld unended.machine ∧
      (unread.machine.stack = #[] ∧ unread.machine.frames = []) ∧
      (exists f, (echoing.run 1).2.frames.getLast? = some f ∧ f.base = 0) ∧
      (echoTwo.serve 5 unread).1 = (echoTwo.serve 5 unended).1 ∧
      (echoTwo.serve 5 unread).2.machine.SameWorld (echoTwo.serve 5 unended).2.machine ∧
      exists text, (echoTwo.serve 5 unread).2.machine.output = unread.machine.output ++ text ∧
        (echoTwo.serve 5 unended).2.machine.output = unended.machine.output ++ text := by
  have hunread : unread.Served := .call 5 _ served_uncaught (by decide +kernel)
  have hunended : unended.Served := .call 5 _ served_uncaught (by decide +kernel)
  rcases calls_leave_nothing_behind with ⟨hempty, hbottom, hnext⟩
  have hload : Interpreter.load unread.machine none "echo 2" false = .ok echoing := by
    have hok : (Interpreter.load unread.machine none "echo 2" false).isOk = true := by
      decide +kernel
    rcases exists_of_isOk hok with ⟨m, hm⟩
    rw [echoing, hm]
    rfl
  have hrun : echoing.run 1 = (.running, (echoing.run 1).2) := by
    have hstatus : (echoing.run 1).1 = .running := by decide +kernel
    rw [← hstatus]
  have hframe : (echoing.run 1).2.frames.getLast?.isSome = true := by decide +kernel
  rcases Option.isSome_iff_exists.mp hframe with ⟨f, hf⟩
  have hbase := hbottom unread none "echo 2" false echoing _ 1 f hunread hload hrun hf
  exact ⟨hunread, hunended, by decide +kernel, sameWorld_unread_unended, hempty unread hunread,
    ⟨f, hf, hbase⟩, hnext unread unended echoTwo 5 hunread hunended sameWorld_unread_unended⟩

end StackScript
