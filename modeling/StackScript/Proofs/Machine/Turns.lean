import StackScript.Proofs.Machine.Effects

/-!
# What one turn of the machine can do

A turn carries out one instruction and, if that raises something, looks for a handler.  In
checked code there are six ways for it to end: the call goes on, it opens a call, it
returns to the call below or ends the run, and what it raises is caught or fails the run.
-/

namespace StackScript

/-! ## Completed calls and returns -/

namespace Exec

section Endings

variable {m m' : Machine} {f : Frame} {rest : List Frame}

theorem enter_ok {id count : Nat} (hok : enter id count m = .ok () m') :
    m' = { m with frames := ⟨id, 0, m.stack.size - count - 1⟩ :: m.frames } := by
  by_cases harity : (m.heap.function id).arity = count
  · by_cases hfull : Full m
    · rw [enter_full harity hfull] at hok
      cases hok
    · rw [enter_apply harity hfull] at hok
      cases hok
      rfl
  · rw [enter_wrongArity harity] at hok
    cases hok

theorem enter_arity {id count : Nat} (hok : enter id count m = .ok () m') :
    (m.heap.function id).arity = count := by
  by_contra harity
  rw [enter_wrongArity harity] at hok
  cases hok

/-- A completed call enters a function, or a function of the host has answered. -/
theorem call_cases {count : Nat} (hok : call count m = .ok () m') :
    (exists id, count < m.stack.size ∧
      m.stack[m.stack.size - 1 - count]? = some (.function id) ∧ enter id count m = .ok () m') ∨
      exists native, native ∈ m.natives ∧ callNative native count m = .ok () m' := by
  rcases of_bind_ok hok with ⟨v, m1, hpeek, hrest⟩
  rcases of_peek_ok hpeek with ⟨hcount, hv, rfl⟩
  cases v with
  | function id => exact Or.inl ⟨id, hcount, hv, hrest⟩
  | native x id =>
      rcases of_bind_ok hrest with ⟨m2, m3, hget, hcall⟩
      cases hget
      cases hn : m1.natives[id]? with
      | none =>
          simp only [hn] at hcall
          cases hcall
      | some native =>
          simp only [hn] at hcall
          exact Or.inr ⟨native, Array.mem_of_getElem? hn, hcall⟩
  | _ => cases hrest

theorem take_push_of_le {s : Array Value} {v : Value} {n : Nat} (hn : n <= s.size) :
    (s.push v).take n = s.take n := by
  rw [Array.take_eq_extract, Array.take_eq_extract, Array.extract_push_of_le hn]

theorem leave_returns {g : Frame} {outer : List Frame} (hf : m.frames = f :: g :: outer)
    (hbase : f.base < m.stack.size) :
    exists v, m.stack.back? = some v ∧
      leave m = .ok () { m with frames := g :: outer, stack := (m.stack.take f.base).push v } := by
  rcases Array.exists_push_of_size_pos (Nat.lt_of_le_of_lt (Nat.zero_le _) hbase) with ⟨s, v, hs⟩
  rw [hs, Array.size_push] at hbase
  refine ⟨v, by rw [hs, Array.back?_push], ?_⟩
  rw [leave_apply hs hf, hs, take_push_of_le (Nat.le_of_lt_succ hbase)]

theorem leave_ends (hf : m.frames = [f]) (hbase : f.base < m.stack.size) :
    leave m = .ok () { m with frames := [], stack := m.stack.take f.base } := by
  rcases Array.exists_push_of_size_pos (Nat.lt_of_le_of_lt (Nat.zero_le _) hbase) with ⟨s, v, hs⟩
  rw [hs, Array.size_push] at hbase
  rw [leave_last hs hf, hs, take_push_of_le (Nat.le_of_lt_succ hbase)]

end Endings

end Exec

/-- An instruction that can open a call has as many arguments as it says. -/
theorem Instr.of_opens {i : Instr} (hi : i.opens = true) :
    exists count, i.taken = count + 1 ∧ (i = .call count ∨ i = .use ∧ count = 0) := by
  cases i with
  | call count => exact ⟨count, rfl, Or.inl rfl⟩
  | use => exact ⟨0, rfl, Or.inr ⟨rfl, rfl⟩⟩
  | _ => cases hi

/-! ## Turns -/

/-- How a turn can end that carries out an instruction of the innermost call `f`. -/
inductive Machine.Turn (m : Machine) (f : Frame) (rest : List Frame) (i : Instr) :
    Status × Machine -> Prop where
  | stays {m' : Machine} : m.advance.Stays i { f with ip := f.ip + 1 } rest m' ->
      Turn m f rest i (.running, m')
  | opens {m' : Machine} : i.opens = true -> m.advance.Opens i m' -> Turn m f rest i (.running, m')
  | returns {v : Value} : i = .ret -> rest ≠ [] -> m.stack.back? = some v ->
      Turn m f rest i
        (.running, { m with frames := rest, stack := (m.stack.take f.base).push v })
  | ends : i = .ret -> rest = [] ->
      Turn m f rest i (.running, { m with frames := [], stack := m.stack.take f.base })
  | catches {e : Raised} {m' : Machine} {g : Frame} {r : TryRange} {outer : List Frame} :
      m.raised? = some e -> m.advance.Spares i m' ->
        handler? m'.heap m.advance.frames = some (g, r, outer) ->
        Turn m f rest i (.running, m'.catchIn e.toValue g r outer)
  | fails {e : Raised} {m' : Machine} :
      m.raised? = some e -> m.advance.Spares i m' ->
        handler? m'.heap m.advance.frames = none ->
        Turn m f rest i (.failed (m'.report e.toValue), m'.reset)

namespace Machine

section Turn

variable {m : Machine} {f : Frame} {rest : List Frame}

theorem Lawful.advance (hm : m.Lawful) : m.advance.Lawful := by
  unfold Machine.Lawful
  rw [advance_natives]
  exact hm

theorem Steady.advance (hm : m.Steady) : m.advance.Steady := by
  unfold Machine.Steady
  rw [advance_natives]
  exact hm

/-- An instruction that fails has opened no call and given none up. -/
theorem frames_of_failed {i : Instr} {e : Raised} {m' : Machine} (hf : m.frames = f :: rest)
    (herror : Exec.step i m.advance = .error e m') : m'.frames = m.advance.frames := by
  have hf' : m.advance.frames = { f with ip := f.ip + 1 } :: rest := by rw [advance_apply hf]
  exact (Exec.of_step_error hf' herror).2.1

theorem Kept.of_advance {i : Instr} {m' : Machine} (h : m.advance.Kept i m') : m.Kept i m' where
  limits := h.limits.trans m.advance_limits
  files := h.files.trans m.advance_files
  natives := h.natives.trans m.advance_natives
  functions := by
    have hfunctions := h.functions
    rwa [advance_heap] at hfunctions
  extends_ := by
    intro hs
    rw [← m.advance_heap]
    exact h.extends_ hs.advance
  brings := by
    intro hl
    rcases h.brings hl.advance with ⟨log, hlog, hfrom⟩
    rw [advance_heap] at hlog
    refine ⟨log, hlog, fun l hmem => ?_⟩
    cases hfrom l hmem with
    | imported hread =>
        rw [advance_files] at hread
        exact .imported hread
    | host => exact .host

theorem Kept.unwind {i : Instr} {m' : Machine} (h : m.Kept i m') (thrown : Value) :
    m.Kept i (m'.unwind thrown).2 := by
  unfold Machine.unwind
  split <;> exact { h with }

/-- How a turn of the call `f` can end, whatever code it runs.  Where there is no instruction, the
turn does no more than one that does nothing to the functions on the heap. -/
inductive Ticks (m : Machine) (f : Frame) (rest : List Frame) : Status × Machine -> Prop where
  | completed {i : Instr} {m' : Machine} : m.fetch? f = some i -> m.Kept i m' ->
      Moved i { f with ip := f.ip + 1 } rest m'.frames -> Ticks m f rest (.running, m')
  | raised {i : Instr} {m' : Machine} (thrown : Value) :
      m.fetch? f = some i ∨ i = .pop -> m.Kept i m' ->
        m'.frames = { f with ip := f.ip + 1 } :: rest -> Ticks m f rest (m'.unwind thrown)

theorem ticks (hf : m.frames = f :: rest) : m.Ticks f rest m.tick := by
  have hf' : m.advance.frames = { f with ip := f.ip + 1 } :: rest := by rw [advance_apply hf]
  cases hi : m.fetch? f with
  | none =>
      have hexecute : execute (m.fetch? f) m.advance =
          .error (.fault .instructionOutOfBounds) m.advance := by
        rw [hi]
        rfl
      rw [tick_of_execute_error hf hexecute]
      exact .raised _ (.inr rfl) (Kept.refl .pop m.advance).of_advance hf'
  | some i =>
      cases hstep : Exec.step i m.advance with
      | ok u m' =>
          rcases Exec.of_step_ok hf' hstep with ⟨hkept, hmoved, -⟩
          rw [tick_of_ok hf hi hstep]
          exact .completed hi hkept.of_advance hmoved
      | error e m' =>
          rcases Exec.of_step_error hf' hstep with ⟨hkept, hframes, -⟩
          rw [tick_of_error hf hi hstep]
          exact .raised _ (.inl hi) hkept.of_advance (hframes.trans hf')

/-- Whatever a turn does, it keeps what an instruction keeps. -/
theorem exists_tick_kept (m : Machine) : exists i,
    (m.frames.head?.bind m.fetch? = some i ∨ i = .pop) ∧ m.Kept i m.tick.2 := by
  cases hf : m.frames with
  | nil =>
      refine ⟨.pop, .inr rfl, ?_⟩
      rw [tick_idle hf]
      exact .refl _ _
  | cons f rest =>
      have hticks := ticks hf
      generalize m.tick = result at hticks ⊢
      cases hticks with
      | completed hi hkept => exact ⟨_, .inl hi, hkept⟩
      | raised thrown hi hkept => exact ⟨_, hi, hkept.unwind thrown⟩

/-- A call in checked code that returns to the one below it. -/
theorem Safe.tick_ret {g : Frame} {outer : List Frame} (hm : m.Safe)
    (hf : m.frames = f :: g :: outer) (hi : m.fetch? f = some .ret) :
    exists v, m.stack.back? = some v ∧ m.tick =
      (.running, { m with frames := g :: outer, stack := (m.stack.take f.base).push v }) := by
  rcases hm.stepping hf with ⟨height, i, hi', hs, hat⟩
  rw [hi] at hi'
  cases hi'
  have hf' : m.advance.frames = { f with ip := f.ip + 1 } :: g :: outer := by rw [advance_apply hf]
  have hoperands := hs.fits.operands
  have hbase : f.base < m.advance.stack.size := by
    rw [hat.size]
    lia
  rcases Exec.leave_returns hf' hbase with ⟨v, htop, hleave⟩
  rw [advance_stack] at htop
  refine ⟨v, htop, ?_⟩
  rw [tick_of_ok hf hi hleave, advance_apply hf]

/-- Wherever the call goes on, it is the same call at a successor of the instruction. -/
theorem Stays.goes {i : Instr} {m' : Machine}
    (h : m.advance.Stays i { f with ip := f.ip + 1 } rest m') :
    exists t, t ∈ i.successors f.ip ∧ m'.frames = { f with ip := t } :: rest := by
  rcases h.frames with ⟨t, ht, hframes⟩
  exact ⟨t, ht.successor f.ip rfl, hframes⟩

theorem Safe.turn (hm : m.Safe) (hf : m.frames = f :: rest) :
    exists i, m.fetch? f = some i ∧ f.base + i.taken < m.stack.size ∧
      m.Turn f rest i m.tick := by
  rcases hm.stepping hf with ⟨height, i, hi, hs, hat⟩
  have hf' : m.advance.frames = { f with ip := f.ip + 1 } :: rest := by rw [advance_apply hf]
  have hsize := hat.size
  have hoperands := hs.fits.operands
  have htaken := i.taken_le_reach
  have hbase : f.base + i.taken < m.stack.size := by
    rw [← advance_stack]
    lia
  refine ⟨i, hi, hbase, ?_⟩
  cases hstep : Exec.step i m.advance with
  | error e m' =>
      have hspares := (Exec.of_step_error hf' hstep).2.2 (hs.seats hsize)
      rw [tick_of_error hf hi hstep, Machine.unwind]
      have hraised := raised?_of_error hf hi hstep
      rw [hspares.frames]
      cases hh : handler? m'.heap m.advance.frames with
      | none => exact .fails hraised hspares hh
      | some found => exact .catches hraised hspares hh
  | ok u m' =>
      rw [tick_of_ok hf hi hstep]
      cases (Exec.of_step_ok hf' hstep).2.2 hs.fits.loopVars with
      | stays hstays => exact .stays hstays
      | opens hopens hopened => exact .opens hopens hopened
      | returns hret =>
          subst hret
          cases rest with
          | nil =>
              rw [← advance_stack] at hbase
              have hleave := Exec.leave_ends hf' (Nat.lt_of_le_of_lt (Nat.le_add_right _ _) hbase)
              rw [Exec.step, hleave] at hstep
              cases hstep
              rw [advance_apply hf]
              exact .ends rfl rfl
          | cons g outer =>
              rcases hm.tick_ret hf hi with ⟨v, htop, htick⟩
              rw [tick_of_ok hf hi hstep] at htick
              cases htick
              exact .returns rfl (by simp) htop

end Turn
end Machine
end StackScript
