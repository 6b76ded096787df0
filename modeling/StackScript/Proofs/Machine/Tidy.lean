import StackScript.Proofs.Machine.Soundness

/-!
# Runs that leave nothing behind

The outermost call of a run stands at the bottom of the stack, whatever code runs above it,
so when it is over the stack is empty.  And no instruction looks at what was written before
it, or at the order in which the globals came, so machines that differ in nothing else do
the same.
-/

namespace StackScript

namespace Machine

/-- Two machines with the same globals that differ in nothing else but what they have written:
the one has the same text behind `a` as the other behind `b`. -/
inductive Alike (a b : String) : Machine -> Machine -> Prop where
  | mk (m : Machine) (text : String) {globals globals' : Table} : Table.Same globals globals' ->
      Alike a b { m with globals := globals, output := a ++ text }
        { m with globals := globals', output := b ++ text }

/-- A call is in progress, and the outermost one stands at the bottom of the stack. -/
def Rooted (m : Machine) : Prop :=
  (m.frames.map Frame.base).getLast? = some 0

/-- Nothing is in progress. -/
structure Idle (m : Machine) : Prop where
  stack : m.stack = #[]
  frames : m.frames = []

/-- Nothing is in progress, or the outermost call stands at the bottom of the stack. -/
def Grounded (m : Machine) : Prop :=
  m.Idle ∨ m.Rooted

theorem Rooted.frames {m : Machine} (h : m.Rooted) : exists f rest, m.frames = f :: rest := by
  unfold Rooted at h
  cases hf : m.frames with
  | nil =>
      rw [hf] at h
      cases h
  | cons f rest => exact ⟨f, rest, rfl⟩

theorem Rooted.sole {m : Machine} {f : Frame} (h : m.Rooted) (hm : m.frames = [f]) :
    f.base = 0 := by
  unfold Rooted at h
  rw [hm] at h
  simpa using h

/-- The calls from one call outwards, wherever that call goes on. -/
theorem Rooted.outwards {m m' : Machine} {f g : Frame} {inner outer : List Frame} (h : m.Rooted)
    (hm : m.frames = inner ++ f :: outer) (hm' : m'.frames = g :: outer)
    (hbase : g.base = f.base) : m'.Rooted := by
  unfold Rooted at h ⊢
  rw [hm, List.map_append, List.map_cons, List.getLast?_append_cons] at h
  rw [hm', List.map_cons, hbase]
  exact h

theorem Rooted.advance {m : Machine} (h : m.Rooted) : m.advance.Rooted := by
  cases hf : m.frames with
  | nil =>
      rw [advance_idle hf]
      exact h
  | cons f rest =>
      have hall : m.frames = [] ++ f :: rest := hf
      rw [advance_apply hf]
      exact h.outwards hall rfl rfl

/-! ## Instructions -/

section Alike

variable {a b : String} {m m' : Machine}

theorem Alike.refl (m : Machine) : m.Alike m.output m.output m := by
  have halike : Alike m.output m.output { m with output := m.output ++ "" }
      { m with output := m.output ++ "" } := .mk m "" fun _ => rfl
  rwa [String.append_empty] at halike

theorem Alike.heap_eq (h : m.Alike a b m') : m'.heap = m.heap := by
  cases h
  rfl

theorem Alike.stack_eq (h : m.Alike a b m') : m'.stack = m.stack := by
  cases h
  rfl

theorem Alike.frames_eq (h : m.Alike a b m') : m'.frames = m.frames := by
  cases h
  rfl

theorem Alike.full_iff (h : m.Alike a b m') : Exec.Full m' ↔ Exec.Full m := by
  cases h
  exact Iff.rfl

theorem Alike.withStack (h : m.Alike a b m') (s : Array Value) :
    Alike a b { m with stack := s } { m' with stack := s } := by
  rcases h with ⟨m, text, hsame⟩
  exact .mk { m with stack := s } text hsame

theorem Alike.withHeap (h : m.Alike a b m') (heap : Heap) :
    Alike a b { m with heap := heap } { m' with heap := heap } := by
  rcases h with ⟨m, text, hsame⟩
  exact .mk { m with heap := heap } text hsame

theorem Alike.withFrames (h : m.Alike a b m') (frames : List Frame) :
    Alike a b { m with frames := frames } { m' with frames := frames } := by
  rcases h with ⟨m, text, hsame⟩
  exact .mk { m with frames := frames } text hsame

end Alike

/-- Machines that are alike in the course of an instruction. -/
structure Beside (a b : String) (natives : Array Native) (files : Files) (p : Stage)
    (m m' : Machine) : Prop where
  alike : m.Alike a b m'
  rooted : m.Rooted
  heap : m.heap = p.heap
  natives : m.natives = natives
  files : m.files = files

/-- What is said of machines that are alike. -/
def tidy (a b : String) (natives : Array Native) (files : Files) : Account where
  natives := natives
  files := files
  Good := fun _ _ => True
  At := Beside a b natives files
  Ends := fun m m' => m.Alike a b m' ∧ m.Grounded
  Fails := fun _ m m' => m.Alike a b m' ∧ m.Rooted

section Covers

open Exec Account

variable {a b : String} {natives : Array Native} {files : Files} {p : Stage} {m m' : Machine}
variable {i : Instr}

theorem Beside.fails (hm : Beside a b natives files p m m') (e : Raised) :
    (tidy a b natives files).Fails e m m' :=
  ⟨hm.alike, hm.rooted⟩

/-- The call goes on, on both machines at the same place. -/
theorem Beside.ends_goTo {f : Frame} {rest : List Frame} (hm : Beside a b natives files p m m')
    (hf : m.frames = f :: rest) (ip : Nat) :
    (tidy a b natives files).Ends { m with frames := { f with ip := ip } :: rest }
      { m' with frames := { f with ip := ip } :: rest } := by
  have hall : m.frames = [] ++ f :: rest := hf
  exact ⟨hm.alike.withFrames _, Or.inr (hm.rooted.outwards hall rfl rfl)⟩

theorem gives_getLocal_beside (slot : Nat) :
    (tidy a b natives files).Gives p (fun _ q => q = p ∧ (i = .getLocal slot -> True))
      (getLocal slot) := by
  intro m m' hm
  rcases hm.rooted.frames with ⟨f, rest, hf⟩
  have hf' := hm.alike.frames_eq.trans hf
  have hstack := hm.alike.stack_eq
  cases hv : m.stack[f.base + slot]? with
  | some v =>
      rw [getLocal_apply hf hv, getLocal_apply hf' (hstack.symm ▸ hv)]
      exact .ok ⟨p, ⟨rfl, fun _ => trivial⟩, hm⟩
  | none =>
      rw [getLocal_outside hf hv, getLocal_outside hf' (hstack.symm ▸ hv)]
      exact .error (hm.fails _)

theorem gives_setLocal_beside (slot : Nat) (v : Value) :
    (tidy a b natives files).Gives p (fun _ q => q = { p with wrote := true })
      (setLocal slot v) := by
  intro m m' hm
  rcases hm.rooted.frames with ⟨f, rest, hf⟩
  have hf' := hm.alike.frames_eq.trans hf
  have hstack := hm.alike.stack_eq
  by_cases hlt : f.base + slot < m.stack.size
  · rw [setLocal_apply hf hlt, setLocal_apply hf' (hstack.symm ▸ hlt), hstack]
    exact .ok ⟨_, rfl, { hm with alike := hm.alike.withStack _ }⟩
  · rw [setLocal_outside hf hlt, setLocal_outside hf' (hstack.symm ▸ hlt)]
    exact .error (hm.fails _)

theorem gives_constant_beside (k : Nat) :
    (tidy a b natives files).Gives p (fun _ q => q = p ∧ True) (constant k) := by
  intro m m' hm
  rcases hm.rooted.frames with ⟨f, rest, hf⟩
  have hf' := hm.alike.frames_eq.trans hf
  have hheap := hm.alike.heap_eq
  cases hv : (m.heap.function f.function).code.constants[k]? with
  | some v =>
      rw [constant_apply hf hv, constant_apply hf' (hheap.symm ▸ hv)]
      exact .ok ⟨p, ⟨rfl, trivial⟩, hm⟩
  | none =>
      rw [constant_outside hf hv, constant_outside hf' (hheap.symm ▸ hv)]
      exact .error (hm.fails _)

/-- A new call goes on top of the ones in progress. -/
theorem completes_enter_beside (id count : Nat) :
    (tidy a b natives files).Completes p (enter id count) := by
  intro m m' hm
  have hheap := hm.alike.heap_eq
  by_cases harity : (m.heap.function id).arity = count
  · by_cases hfull : Full m
    · rw [enter_full harity hfull,
        enter_full (hheap.symm ▸ harity) (hm.alike.full_iff.mpr hfull)]
      exact .error (hm.fails _)
    · have henter : enter id count m' =
          .ok () { m' with frames := ⟨id, 0, m.stack.size - count - 1⟩ :: m.frames } := by
        rw [enter_apply (hheap.symm ▸ harity) (mt hm.alike.full_iff.mp hfull), hm.alike.stack_eq,
          hm.alike.frames_eq]
      rw [enter_apply harity hfull, henter]
      refine .ok ⟨hm.alike.withFrames _, Or.inr ?_⟩
      show ((_ :: m.frames).map Frame.base).getLast? = some 0
      rw [List.map_cons, List.getLast?_cons, hm.rooted]
      rfl
  · rw [enter_wrongArity harity, enter_wrongArity (hheap.symm ▸ harity), hheap]
    exact .error (hm.fails _)

/-- The outermost call is over when it returns, and then it leaves nothing on the stack. -/
theorem completes_leave_beside : (tidy a b natives files).Completes p leave := by
  intro m m' hm
  rcases hm.rooted.frames with ⟨f, rest, hf⟩
  have hf' := hm.alike.frames_eq.trans hf
  have hstack := hm.alike.stack_eq
  rcases Nat.eq_zero_or_pos m.stack.size with hzero | hpos
  · have hempty := Array.eq_empty_of_size_eq_zero hzero
    have hpop (w : Machine) (hw : w.stack = #[]) :
        leave w = .error (.fault .stackUnderflow) w := bind_error (pop_empty hw)
    rw [hpop m hempty, hpop m' (hstack.trans hempty)]
    exact .error (hm.fails _)
  · rcases Array.exists_push_of_size_pos hpos with ⟨s, v, hs⟩
    cases rest with
    | nil =>
        have hbase : f.base = 0 := hm.rooted.sole hf
        rw [leave_last hs hf, leave_last (hstack.trans hs) hf']
        exact .ok ⟨(hm.alike.withFrames []).withStack (s.take f.base),
          Or.inl ⟨by simp [hbase], rfl⟩⟩
    | cons g outer =>
        have hall : m.frames = [f] ++ g :: outer := hf
        rw [leave_apply hs hf, leave_apply (hstack.trans hs) hf']
        exact .ok ⟨(hm.alike.withFrames (g :: outer)).withStack ((s.take f.base).push v),
          Or.inr (hm.rooted.outwards hall rfl rfl)⟩

/-- No instruction looks at what machines that are alike differ in. -/
theorem tidy_covers (i : Instr) (a b : String) (natives : Array Native) (files : Files) :
    (tidy a b natives files).Covers i i.reach where
  heap := fun hm => ⟨hm.heap, hm.alike.heap_eq.trans hm.heap⟩
  stack := fun hm => hm.alike.stack_eq
  globals := by
    rintro p _ _ ⟨⟨m, text, hsame⟩, -, -⟩
    exact hsame
  natives := by
    rintro p _ _ ⟨⟨m, text, hsame⟩, -, -, hnatives, -⟩
    exact ⟨hnatives, hnatives⟩
  files := by
    rintro p _ _ ⟨⟨m, text, hsame⟩, -, -, -, hfiles⟩
    exact ⟨hfiles, hfiles⟩
  candidates := by
    rintro p _ _ target ⟨⟨m, text, hsame⟩, -, -⟩
    simp only [candidates, hsame Import.pathsName]
    rfl
  plain := fun _ _ _ => trivial
  operand := fun _ _ _ _ => trivial
  global := fun _ _ => trivial
  item := fun _ _ => ⟨trivial, trivial⟩
  fault := fun hm _ _ _ _ => hm.fails _
  thrown := fun hm _ _ _ _ => hm.fails _
  short := fun hm _ _ _ => hm.fails _
  pushes := by
    intro p m m' v hm _
    rw [hm.alike.stack_eq]
    exact { hm with alike := hm.alike.withStack _ }
  takes := by
    intro p m m' n k hm _ _ _ _
    rw [hm.alike.stack_eq]
    exact { hm with alike := hm.alike.withStack _ }
  reads := fun _ _ _ => gives_getLocal_beside _
  writes := fun _ _ _ => gives_setLocal_beside _ _
  constants := fun _ _ _ => gives_constant_beside _
  names := fun _ _ _ =>
    gives_name (gives_constant_beside _) (fun _ _ h => h.1) fun _ _ _ hm => hm.fails _
  defines := by
    rintro p _ _ x v ⟨⟨m, text, hsame⟩, hrooted, hheap, hnatives, hfiles⟩ -
    exact ⟨.mk m text (hsame.insert x v), hrooted, hheap, hnatives, hfiles⟩
  outputs := by
    rintro p _ _ s ⟨⟨m, text, hsame⟩, hrooted, hheap, hnatives, hfiles⟩
    refine ⟨?_, hrooted, hheap, hnatives, hfiles⟩
    simp only [String.append_assoc]
    exact .mk m (text ++ s) hsame
  acts := fun hm _ _ => ⟨trivial, { hm with alike := hm.alike.withHeap _, heap := rfl }⟩
  host := fun hm _ _ _ =>
    ⟨fun _ _ => trivial, { hm with alike := hm.alike.withHeap _, heap := rfl }⟩
  compiled := fun hm _ _ _ =>
    ⟨trivial, { hm with alike := hm.alike.withHeap _, heap := rfl }⟩
  next := fun hm _ _ => ⟨hm.alike, Or.inr hm.rooted⟩
  forward := by
    intro p offset _ _ _ m m' hm
    rcases hm.rooted.frames with ⟨f, rest, hf⟩
    rw [jumpForward_apply hf, jumpForward_apply (hm.alike.frames_eq.trans hf)]
    exact .ok (hm.ends_goTo hf _)
  back := by
    intro p offset _ _ m m' hm
    rcases hm.rooted.frames with ⟨f, rest, hf⟩
    have hf' := hm.alike.frames_eq.trans hf
    by_cases hle : offset <= f.ip
    · rw [jumpBack_apply hf hle, jumpBack_apply hf' hle]
      exact .ok (hm.ends_goTo hf _)
    · rw [jumpBack_outside hf hle, jumpBack_outside hf' hle]
      exact .error (hm.fails _)
  enters := fun _ _ _ _ _ => completes_enter_beside _ _
  leaves := fun _ _ _ => completes_leave_beside

/-- An instruction of machines that are alike leaves them alike.  The outermost call stays at the
bottom of the stack, unless it has ended with nothing left. -/
theorem Alike.execute {i : Option Instr} (h : m.Alike a b m') (hroot : m.Rooted) :
    (tidy a b m.natives m.files).Same (fun _ => (tidy a b m.natives m.files).Ends)
      (Machine.execute i m) (Machine.execute i m') := by
  have hbeside (height : Nat) : Beside a b m.natives m.files ⟨m.heap, height, false⟩ m m' :=
    ⟨h, hroot, rfl, rfl, rfl⟩
  cases i with
  | none => exact .error ((hbeside 0).fails _)
  | some i => exact (tidy_covers i a b _ _).step (Nat.le_refl _) m m' (hbeside i.reach)

end Covers

/-! ## One turn -/

/-- A machine that goes on is grounded, and one that does not is idle. -/
structure Settles (outcome : Status × Machine) : Prop where
  grounded : outcome.2.Grounded
  idle : outcome.1 ≠ .running -> outcome.2.Idle

theorem Rooted.unwind {m : Machine} {thrown : Value} (h : m.Rooted) :
    Settles (m.unwind thrown) := by
  unfold Machine.unwind
  split
  · rename_i f r outer hhandler
    rcases of_handler?_some hhandler with ⟨above, hsplit, -, -⟩
    have hcaught : (m.catchIn thrown f r outer).Rooted := h.outwards hsplit rfl rfl
    exact ⟨Or.inr hcaught, fun hdone => absurd rfl hdone⟩
  · exact ⟨Or.inl ⟨rfl, rfl⟩, fun _ => ⟨rfl, rfl⟩⟩

/-! ## Machines that are alike -/

/-- The same status of machines that are alike and settle. -/
structure Concur (a b : String) (outcome outcome' : Status × Machine) : Prop where
  status : outcome.1 = outcome'.1
  machines : outcome.2.Alike a b outcome'.2
  settles : Settles outcome

section Alike

variable {a b : String} {m m' : Machine}

theorem Alike.advance (h : m.Alike a b m') : m.advance.Alike a b m'.advance := by
  rcases h with ⟨m, text, hsame⟩
  unfold Machine.advance
  cases m.frames with
  | nil => exact .mk { m with frames := [] } text hsame
  | cons f rest => exact .mk { m with frames := { f with ip := f.ip + 1 } :: rest } text hsame

theorem Alike.unwind {thrown : Value} (h : m.Alike a b m') (hroot : m.Rooted) :
    Concur a b (m.unwind thrown) (m'.unwind thrown) := by
  have hsettles : Settles (m.unwind thrown) := hroot.unwind
  rcases h with ⟨m, text, hsame⟩
  revert hsettles
  unfold Machine.unwind
  rcases handler? m.heap m.frames with _ | ⟨f, r, rest⟩
  · exact fun hsettles => ⟨rfl, .mk m.reset text hsame, hsettles⟩
  · exact fun hsettles => ⟨rfl, .mk (m.catchIn thrown f r rest) text hsame, hsettles⟩

theorem Alike.tick (h : m.Alike a b m') (hm : m.Grounded) : Concur a b m.tick m'.tick := by
  rcases hm with hidle | hrooted
  · rw [tick_idle hidle.frames, tick_idle (h.frames_eq.trans hidle.frames)]
    exact ⟨rfl, h, Or.inl hidle, fun _ => hidle⟩
  · rcases hrooted.frames with ⟨f, rest, hf⟩
    have hfetch : m'.fetch? f = m.fetch? f := by
      unfold Machine.fetch?
      rw [h.heap_eq]
    have hsame := h.advance.execute (i := m.fetch? f) hrooted.advance
    generalize hr : Machine.execute (m.fetch? f) m.advance = r at hsame
    generalize hr' : Machine.execute (m.fetch? f) m'.advance = r' at hsame
    rw [← hfetch] at hr'
    cases hsame with
    | ok hends =>
        rw [tick_of_execute_ok hf hr, tick_of_execute_ok (h.frames_eq.trans hf) hr']
        exact ⟨rfl, hends.1, hends.2, fun hdone => absurd rfl hdone⟩
    | error hfails =>
        rw [tick_of_execute_error hf hr, tick_of_execute_error (h.frames_eq.trans hf) hr']
        exact hfails.1.unwind hfails.2

theorem Alike.run (h : m.Alike a b m') (hm : m.Grounded) (n : Nat) :
    Concur a b (m.run n) (m'.run n) := by
  induction n generalizing m m' with
  | zero => exact ⟨rfl, h, hm, fun hdone => absurd rfl hdone⟩
  | succ n ih =>
      have htick := h.tick hm
      unfold Machine.run
      revert htick
      rcases m.tick with ⟨status, m1⟩
      rcases m'.tick with ⟨status', m1'⟩
      rintro ⟨rfl, hnext, hsettles⟩
      cases status with
      | running => exact ih hnext hsettles.grounded
      | finished => exact ⟨rfl, hnext, hsettles⟩
      | failed e => exact ⟨rfl, hnext, hsettles⟩

/-- However a run goes, the outermost call stays at the bottom of the stack, and when the run is
over nothing is left. -/
theorem Grounded.run (hm : m.Grounded) (n : Nat) : Settles (m.run n) :=
  ((Alike.refl m).run hm n).settles

end Alike

end Machine
end StackScript
