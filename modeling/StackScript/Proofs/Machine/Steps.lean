import StackScript.Interpreter
import StackScript.Proofs.Compile

/-!
# What a step computes

The result of each piece of a run, written out for a machine whose stack and frames
are known as far as the piece looks at them.  Later arguments use these equations and
do not open the definitions again.
-/

namespace StackScript
namespace Exec

attribute [grind =] step

section Pieces

variable {α β : Type} {m m' : Machine} {s : Array Value} {v : Value} {f : Frame}
variable {rest : List Frame}

theorem bind_ok {x : Exec α} {g : α -> Exec β} {a : α} (h : x m = .ok a m') :
    (x >>= g) m = g a m' := by
  show EStateM.bind x g m = _
  rw [EStateM.bind, h]

theorem bind_error {x : Exec α} {g : α -> Exec β} {e : Raised} (h : x m = .error e m') :
    (x >>= g) m = .error e m' := by
  show EStateM.bind x g m = _
  rw [EStateM.bind, h]

theorem of_bind_ok {x : Exec α} {g : α -> Exec β} {b : β} (h : (x >>= g) m = .ok b m') :
    exists a m1, x m = .ok a m1 ∧ g a m1 = .ok b m' := by
  cases hx : x m with
  | ok a m1 =>
      rw [bind_ok hx] at h
      exact ⟨a, m1, rfl, h⟩
  | error e m1 =>
      rw [bind_error hx] at h
      cases h

theorem of_bind_error {x : Exec α} {g : α -> Exec β} {e : Raised}
    (h : (x >>= g) m = .error e m') :
    x m = .error e m' ∨ exists a m1, x m = .ok a m1 ∧ g a m1 = .error e m' := by
  cases hx : x m with
  | ok a m1 =>
      rw [bind_ok hx] at h
      exact Or.inr ⟨a, m1, rfl, h⟩
  | error e' m1 =>
      rw [bind_error hx] at h
      cases h
      exact Or.inl rfl

theorem get_apply : (get : Exec Machine) m = .ok m m :=
  rfl

theorem push_apply : push v m = .ok () { m with stack := m.stack.push v } :=
  rfl

theorem pop_apply (h : m.stack = s.push v) : pop m = .ok v { m with stack := s } := by
  unfold pop
  rw [bind_ok get_apply, h]
  simp only [Array.back?_push, Array.pop_push]
  rfl

theorem pop_empty (h : m.stack = #[]) : pop m = .error (.fault .stackUnderflow) m := by
  unfold pop
  rw [bind_ok get_apply, h]
  rfl

theorem of_pop_ok (h : pop m = .ok v m') :
    exists s, m.stack = s.push v ∧ m' = { m with stack := s } := by
  rcases Nat.eq_zero_or_pos m.stack.size with hzero | hpos
  · rw [pop_empty (Array.eq_empty_of_size_eq_zero hzero)] at h
    cases h
  · rcases Array.exists_push_of_size_pos hpos with ⟨s, w, hs⟩
    rw [pop_apply hs] at h
    cases h
    exact ⟨s, hs, rfl⟩

theorem peek_apply {d : Nat} (h : d < m.stack.size) :
    peek d m = .ok (m.stack.getD (m.stack.size - 1 - d) .none) m := by
  unfold peek
  rw [bind_ok get_apply, if_pos h]
  rfl

theorem of_peek_ok {d : Nat} (h : peek d m = .ok v m') :
    d < m.stack.size ∧ m.stack[m.stack.size - 1 - d]? = some v ∧ m' = m := by
  by_cases hd : d < m.stack.size
  · rw [peek_apply hd] at h
    cases h
    have hplace : m.stack.size - 1 - d < m.stack.size := by lia
    refine ⟨hd, ?_, rfl⟩
    rw [Array.getD_eq_getD_getElem?, Array.getElem?_eq_getElem hplace, Option.getD_some]
  · unfold peek at h
    rw [bind_ok get_apply, if_neg hd] at h
    cases h

theorem peek_zero_apply (h : m.stack = s.push v) : peek 0 m = .ok v m := by
  rw [peek_apply (by simp [h])]
  simp [h]

theorem peek_one_apply {w : Value} (h : m.stack = (s.push v).push w) : peek 1 m = .ok v m := by
  have hv : m.stack[s.size]? = some v := by
    rw [h, Array.getElem?_push_lt (by simp)]
    simp
  have hplace : m.stack.size - 1 - 1 = s.size := by simp [h]
  rw [peek_apply (by simp [h]), hplace, Array.getD_eq_getD_getElem?, hv]
  rfl

theorem popMany_apply {n : Nat} (h : n <= m.stack.size) :
    popMany n m =
      .ok (m.stack.drop (m.stack.size - n))
        { m with stack := m.stack.take (m.stack.size - n) } := by
  unfold popMany
  rw [bind_ok get_apply, if_pos h]
  rfl

/-! ## Frames -/

theorem frame_apply (h : m.frames = f :: rest) : frame m = .ok f m := by
  unfold frame
  rw [bind_ok get_apply, h]
  rfl

theorem goTo_apply {ip : Nat} (h : m.frames = f :: rest) :
    goTo ip m = .ok () { m with frames := { f with ip := ip } :: rest } := by
  cases m
  cases h
  rfl

theorem jumpForward_apply {offset : Nat} (h : m.frames = f :: rest) :
    jumpForward offset m =
      .ok () { m with frames := { f with ip := f.ip + offset } :: rest } := by
  unfold jumpForward
  rw [bind_ok (frame_apply h), goTo_apply h]

theorem jumpBack_apply {offset : Nat} (h : m.frames = f :: rest) (hle : offset <= f.ip) :
    jumpBack offset m =
      .ok () { m with frames := { f with ip := f.ip - offset } :: rest } := by
  unfold jumpBack
  rw [bind_ok (frame_apply h), if_pos hle, goTo_apply h]

theorem jumpBack_outside {offset : Nat} (h : m.frames = f :: rest) (hlt : ¬ offset <= f.ip) :
    jumpBack offset m = .error (.fault .jumpBeforeStart) m := by
  unfold jumpBack
  rw [bind_ok (frame_apply h), if_neg hlt]
  rfl

theorem getLocal_apply {slot : Nat} (h : m.frames = f :: rest)
    (hv : m.stack[f.base + slot]? = some v) : getLocal slot m = .ok v m := by
  unfold getLocal
  rw [bind_ok (frame_apply h), bind_ok get_apply, hv]
  rfl

theorem getLocal_outside {slot : Nat} (h : m.frames = f :: rest)
    (hnone : m.stack[f.base + slot]? = none) :
    getLocal slot m = .error (.fault .stackUnderflow) m := by
  unfold getLocal
  rw [bind_ok (frame_apply h), bind_ok get_apply, hnone]
  rfl

theorem of_getLocal_ok {slot : Nat} (hf : m.frames = f :: rest) (h : getLocal slot m = .ok v m') :
    m' = m := by
  cases hv : m.stack[f.base + slot]? with
  | some w =>
      rw [getLocal_apply hf hv] at h
      cases h
      rfl
  | none =>
      rw [getLocal_outside hf hv] at h
      cases h

theorem setLocal_apply {slot : Nat} (h : m.frames = f :: rest)
    (hlt : f.base + slot < m.stack.size) :
    setLocal slot v m =
      .ok () { m with stack := m.stack.setIfInBounds (f.base + slot) v } := by
  unfold setLocal
  rw [bind_ok (frame_apply h), bind_ok get_apply, if_pos hlt]
  rfl

theorem setLocal_outside {slot : Nat} (h : m.frames = f :: rest)
    (hlt : ¬ f.base + slot < m.stack.size) :
    setLocal slot v m = .error (.fault .stackUnderflow) m := by
  unfold setLocal
  rw [bind_ok (frame_apply h), bind_ok get_apply, if_neg hlt]
  rfl

theorem of_setLocal_ok {slot : Nat} (hf : m.frames = f :: rest)
    (h : setLocal slot v m = .ok () m') : f.base + slot < m.stack.size ∧
      m' = { m with stack := m.stack.setIfInBounds (f.base + slot) v } := by
  by_cases hlt : f.base + slot < m.stack.size
  · rw [setLocal_apply hf hlt] at h
    cases h
    exact ⟨hlt, rfl⟩
  · rw [setLocal_outside hf hlt] at h
    cases h

/-! ## Constants and the heap -/

theorem constant_apply {k : Nat} (h : m.frames = f :: rest)
    (hv : (m.heap.function f.function).code.constants[k]? = some v) :
    constant k m = .ok v m := by
  unfold constant
  rw [bind_ok (frame_apply h), bind_ok get_apply, hv]
  rfl

theorem constant_outside {k : Nat} (h : m.frames = f :: rest)
    (hnone : (m.heap.function f.function).code.constants[k]? = none) :
    constant k m = .error (.fault (.constantOutOfRange k)) m := by
  unfold constant
  rw [bind_ok (frame_apply h), bind_ok get_apply, hnone]
  rfl

theorem name_apply {k : Nat} {x : String} (h : m.frames = f :: rest)
    (hv : (m.heap.function f.function).code.constants[k]? = some (.text x)) :
    name k m = .ok x m := by
  unfold name
  rw [bind_ok (constant_apply h hv)]
  rfl

theorem perform_ok {op : Heap -> Answer} {h : Heap} (hop : op m.heap = .ok v h) :
    perform op m = .ok v { m with heap := h } := by
  unfold perform
  rw [bind_ok get_apply, hop]
  rfl

theorem of_perform_ok {op : Heap -> Answer} (h : perform op m = .ok v m') :
    exists heap, op m.heap = .ok v heap ∧ m' = { m with heap := heap } := by
  unfold perform at h
  rw [bind_ok get_apply] at h
  cases hop : op m.heap with
  | error f heap =>
      rw [hop] at h
      cases h
  | ok v heap =>
      rw [hop] at h
      cases h
      exact ⟨_, rfl, rfl⟩

theorem perform_error {op : Heap -> Answer} {h : Heap} {fault : Fault}
    (hop : op m.heap = .error fault h) :
    perform op m = .error (.fault fault) { m with heap := h } := by
  unfold perform
  rw [bind_ok get_apply, hop]
  rfl

/-- An operation that only looks at the heap. -/
theorem perform_answer {found : Heap -> Except Fault Value} :
    perform (fun h => answer h (found h)) m =
      match found m.heap with
      | .ok v => .ok v m
      | .error fault => .error (.fault fault) m := by
  cases hfound : found m.heap with
  | ok v => exact perform_ok (by rw [hfound]; rfl)
  | error fault => exact perform_error (by rw [hfound]; rfl)

theorem allocate_apply {new : Heap -> Value × Heap} :
    allocate new m = .ok (new m.heap).1 { m with heap := (new m.heap).2 } :=
  rfl

/-! ## Calls -/

/-- There is no room for one more call. -/
def Full (m : Machine) : Prop :=
  m.limits.frames <= m.frames.length ∨ m.limits.slots <= m.stack.size

theorem enter_wrongArity {id count : Nat} (h : (m.heap.function id).arity ≠ count) :
    enter id count m =
      .error (.fault (.wrongArity (m.heap.function id).arity count)) m := by
  have hne : ((m.heap.function id).arity != count) = true := by simpa using h
  unfold enter
  rw [bind_ok get_apply]
  simp only [hne, if_true]
  rfl

theorem enter_full {id count : Nat} (h : (m.heap.function id).arity = count) (hm : Full m) :
    enter id count m = .error (.fault .stackOverflow) m := by
  have hne : ((m.heap.function id).arity != count) = false := by simpa using h
  have hfull : (decide (m.limits.frames <= m.frames.length) ||
      decide (m.limits.slots <= m.stack.size)) = true := by simpa [Full] using hm
  unfold enter
  rw [bind_ok get_apply]
  simp only [hne, hfull, if_true, Bool.false_eq_true, if_false]
  rfl

theorem enter_apply {id count : Nat} (h : (m.heap.function id).arity = count) (hm : ¬ Full m) :
    enter id count m =
      .ok () { m with frames := ⟨id, 0, m.stack.size - count - 1⟩ :: m.frames } := by
  have hne : ((m.heap.function id).arity != count) = false := by simpa using h
  have hfull : (decide (m.limits.frames <= m.frames.length) ||
      decide (m.limits.slots <= m.stack.size)) = false := by simpa [Full] using hm
  unfold enter
  rw [bind_ok get_apply]
  simp only [hne, hfull, Bool.false_eq_true, if_false]
  rfl

theorem leave_last (hs : m.stack = s.push v) (hf : m.frames = [f]) :
    leave m = .ok () { m with frames := [], stack := s.take f.base } := by
  unfold leave
  rw [bind_ok (pop_apply hs), bind_ok get_apply]
  simp only [hf]
  rfl

theorem leave_apply {g : Frame} (hs : m.stack = s.push v) (hf : m.frames = f :: g :: rest) :
    leave m = .ok () { m with frames := g :: rest, stack := (s.take f.base).push v } := by
  unfold leave
  rw [bind_ok (pop_apply hs), bind_ok get_apply]
  simp only [hf]
  rfl

/-! ## Imports -/

section Imports

variable {path source : String} {id : Nat}

theorem readScript_apply (h : m.files.read path = .ok source) :
    readScript path m = .ok source m := by
  unfold readScript
  rw [bind_ok get_apply, h]
  rfl

theorem readScript_unread {e : FileError} (h : m.files.read path = .error e) :
    readScript path m = .error (.fault (.importUnreadable path e.message)) m := by
  unfold readScript
  rw [bind_ok get_apply, h]
  rfl

theorem of_readScript_ok (h : readScript path m = .ok source m') :
    m.files.read path = .ok source ∧ m' = m := by
  cases hr : m.files.read path with
  | ok text =>
      rw [readScript_apply hr] at h
      cases h
      exact ⟨rfl, rfl⟩
  | error e =>
      rw [readScript_unread hr] at h
      cases h

theorem compileScript_apply {h : Heap} (hc : m.heap.compile (some path) source = .ok (id, h)) :
    compileScript path source m = .ok id { m with heap := h } := by
  unfold compileScript
  rw [bind_ok get_apply, hc]
  rfl

theorem compileScript_rejected {e : CompileError}
    (hc : m.heap.compile (some path) source = .error e) :
    compileScript path source m = .error (.fault (.importRejected e.render)) m := by
  unfold compileScript
  rw [bind_ok get_apply, hc]
  rfl

theorem of_compileScript_ok (hok : compileScript path source m = .ok id m') :
    exists h, m.heap.compile (some path) source = .ok (id, h) ∧ m' = { m with heap := h } := by
  cases hc : m.heap.compile (some path) source with
  | ok found =>
      rw [compileScript_apply hc] at hok
      cases hok
      exact ⟨_, rfl, rfl⟩
  | error e =>
      rw [compileScript_rejected hc] at hok
      cases hok

end Imports

end Pieces

end Exec

/-- A script that is loaded is compiled, and its outermost call is opened. -/
theorem Interpreter.load_ok {m m' : Machine} {script : Option String} {source : String}
    {listing : Bool} (hload : load m script source listing = .ok m') :
    exists id h output, m.heap.compile script source = .ok (id, h) ∧
      m' = { m with
        heap := h
        output := output
        stack := m.stack.push (.function id)
        frames := ⟨id, 0, m.stack.size⟩ :: m.frames } := by
  unfold load at hload
  cases hc : m.heap.compile script source with
  | error e =>
      rw [hc] at hload
      cases hload
  | ok found =>
      rw [hc] at hload
      cases hload
      exact ⟨found.1, found.2, _, rfl, rfl⟩

namespace Machine

/-! ## Turns -/

section Turn

variable {m m' : Machine} {f : Frame} {rest : List Frame} {i : Instr} {e : Raised}

theorem advance_apply (hf : m.frames = f :: rest) :
    m.advance = { m with frames := { f with ip := f.ip + 1 } :: rest } := by
  unfold Machine.advance
  rw [hf]

theorem advance_idle (hf : m.frames = []) : m.advance = m := by
  unfold Machine.advance
  rw [hf]

/-- Moving on changes nothing but an index. -/
theorem advance_eq (m : Machine) :
    exists frames, m.advance = { m with frames } ∧ frames.length = m.frames.length := by
  cases hf : m.frames with
  | nil => exact ⟨[], by rw [advance_idle hf, ← hf], rfl⟩
  | cons f rest => exact ⟨_, advance_apply hf, rfl⟩

theorem advance_limits (m : Machine) : m.advance.limits = m.limits := by
  rcases advance_eq m with ⟨_, hm, -⟩
  rw [hm]

theorem advance_files (m : Machine) : m.advance.files = m.files := by
  rcases advance_eq m with ⟨_, hm, -⟩
  rw [hm]

theorem advance_natives (m : Machine) : m.advance.natives = m.natives := by
  rcases advance_eq m with ⟨_, hm, -⟩
  rw [hm]

theorem advance_heap (m : Machine) : m.advance.heap = m.heap := by
  rcases advance_eq m with ⟨_, hm, -⟩
  rw [hm]

theorem advance_globals (m : Machine) : m.advance.globals = m.globals := by
  rcases advance_eq m with ⟨_, hm, -⟩
  rw [hm]

theorem advance_stack (m : Machine) : m.advance.stack = m.stack := by
  rcases advance_eq m with ⟨_, hm, -⟩
  rw [hm]

theorem length_advance (m : Machine) : m.advance.frames.length = m.frames.length := by
  rcases advance_eq m with ⟨_, hm, hlength⟩
  rw [hm, hlength]

/-- A machine without a call has nothing to do. -/
theorem tick_idle (hf : m.frames = []) : m.tick = (.finished, m) := by
  unfold Machine.tick
  rw [hf]

theorem tick_of_execute_ok (hf : m.frames = f :: rest)
    (h : execute (m.fetch? f) m.advance = .ok () m') : m.tick = (.running, m') := by
  unfold Machine.tick
  simp only [hf, h]

theorem tick_of_execute_error (hf : m.frames = f :: rest)
    (h : execute (m.fetch? f) m.advance = .error e m') : m.tick = m'.unwind e.toValue := by
  unfold Machine.tick
  simp only [hf, h]

theorem tick_of_ok (hf : m.frames = f :: rest) (hi : m.fetch? f = some i)
    (h : Exec.step i m.advance = .ok () m') : m.tick = (.running, m') := by
  apply tick_of_execute_ok hf
  rw [hi]
  exact h

theorem tick_of_error (hf : m.frames = f :: rest) (hi : m.fetch? f = some i)
    (h : Exec.step i m.advance = .error e m') : m.tick = m'.unwind e.toValue := by
  apply tick_of_execute_error hf
  rw [hi]
  exact h

end Turn

/-! ## Runs that go on -/

/-- The machine is still running and at least so many instructions further. -/
def Goes (n : Nat) (m m' : Machine) : Prop :=
  exists k, n <= k ∧ m.run k = (.running, m')

theorem run_succ_of_tick {m m' : Machine} (h : m.tick = (.running, m')) (k : Nat) :
    m.run (k + 1) = m'.run k := by
  rw [run, h]

theorem run_add {m m' : Machine} {k : Nat} (h : m.run k = (.running, m')) (j : Nat) :
    m.run (k + j) = m'.run j := by
  induction k generalizing m with
  | zero =>
      cases h
      rw [Nat.zero_add]
  | succ k ih =>
      rw [run] at h
      split at h
      · rename_i m1 htick
        rw [Nat.add_right_comm, run_succ_of_tick htick, ih h]
      · rename_i hne
        exact absurd h (hne m')

namespace Goes

theorem refl (m : Machine) : Goes 0 m m :=
  ⟨0, Nat.le_refl 0, rfl⟩

theorem tick {m m' : Machine} (h : m.tick = (.running, m')) : Goes 1 m m' :=
  ⟨1, Nat.le_refl 1, run_succ_of_tick h 0⟩

theorem trans {n n' : Nat} {m m' m'' : Machine} (h : Goes n m m') (h' : Goes n' m' m'') :
    Goes (n + n') m m'' := by
  rcases h with ⟨k, hk, hrun⟩
  rcases h' with ⟨k', hk', hrun'⟩
  exact ⟨k + k', Nat.add_le_add hk hk', by rw [run_add hrun, hrun']⟩

theorem lower {n n' : Nat} {m m' : Machine} (h : Goes n m m') (hn : n' <= n) : Goes n' m m' := by
  rcases h with ⟨k, hk, hrun⟩
  exact ⟨k, Nat.le_trans hn hk, hrun⟩

end Goes
end Machine

end StackScript
