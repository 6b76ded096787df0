import StackScript.Proofs.Machine.Reachable

/-!
# Where a thrown value goes

Whatever an instruction of a compiled script raises goes to the innermost call that stands
inside a `try`, and there to the innermost `try`.  The calls further out stay as they are,
and the stack is what it was before the instruction, down to the locals of that `try`.
-/

namespace StackScript

/-! ## Calls inside a `try` -/

/-- A range that covers the instruction a call has gone past and that lies inside every other one
that does. -/
structure Frame.Guarded (h : Heap) (f : Frame) (r : TryRange) : Prop where
  mem : r ∈ (h.function f.function).ranges
  covers : r.covers (f.ip - 1) = true
  inner : forall q, q ∈ (h.function f.function).ranges -> q.covers (f.ip - 1) = true ->
    q.start <= r.start ∧ r.stop <= q.stop

/-- No range covers the instruction that a call has gone past. -/
def Frame.Bare (h : Heap) (f : Frame) : Prop :=
  forall q, q ∈ (h.function f.function).ranges -> q.covers (f.ip - 1) = false

namespace Machine

section Calls

variable {m m' : Machine} {f g : Frame} {rest : List Frame} {r : TryRange}

theorem Sound.triesOf (hm : m.Sound) (hg : m.heap.Good g.function) :
    exists body, (m.heap.function g.function).TriesOf body :=
  (hm.compiled _ hg.mem_functions).triesOf

theorem Sound.bare (hm : m.Sound) (hg : m.heap.Good g.function)
    (hnone : (m.heap.function g.function).findRange? (g.ip - 1) = none) : g.Bare m.heap := by
  rcases hm.triesOf hg with ⟨body, hbody⟩
  exact fun q hq => hbody.not_covers hnone hq

theorem Sound.guarded (hm : m.Sound) (hg : m.heap.Good g.function)
    (hsome : (m.heap.function g.function).findRange? (g.ip - 1) = some r) :
    g.Guarded m.heap r := by
  rcases hm.triesOf hg with ⟨body, hbody⟩
  rcases Function.mem_of_findRange? hsome with ⟨hmem, hcovers⟩
  exact ⟨hmem, hcovers, fun q hq hcovers' => hbody.within hsome hq hcovers'⟩

/-- What is known when an instruction of the innermost call raises something. -/
structure Raising (m : Machine) (e : Raised) (f : Frame) (rest : List Frame) (height : Nat -> Nat)
    (i : Instr) (m' : Machine) : Prop where
  keeps : (m.heap.function f.function).Keeps height
  instr : (m.heap.function f.function).code.instrs[f.ip]? = some i
  size : m.stack.size = f.base + height f.ip
  loud : i.quiet = false
  spares : m.advance.Spares i m'
  tick : m.tick = m'.unwind e.toValue

theorem Sound.raising {e : Raised} (hm : m.Sound) (hf : m.frames = f :: rest)
    (he : m.raised? = some e) : exists height i m', m.Raising e f rest height i m' := by
  rcases hm.safe.stepping hf with ⟨height, i, hi, hs, hat⟩
  have hf' : m.advance.frames = { f with ip := f.ip + 1 } :: rest := by rw [advance_apply hf]
  have hsafe := hs.step hat
  cases hstep : Exec.step i m.advance with
  | ok u m' =>
      have hexecute : execute (m.fetch? f) m.advance = .ok u m' := by
        rw [hi]
        exact hstep
      unfold Machine.raised? at he
      simp only [hf, hexecute] at he
      cases he
  | error e' m' =>
      have heq := raised?_of_error hf hi hstep
      rw [he] at heq
      cases heq
      rw [hstep] at hsafe
      rcases hsafe with ⟨h, n, -, ⟨k, hk, -⟩, -⟩
      refine ⟨height, i, m', hs.keeps, hi, ?_, ?_, ?_, tick_of_error hf hi hstep⟩
      · rw [← advance_stack]
        exact hat.size
      · -- An instruction that is quiet has no height to fail at.
        by_contra hq
        simp [contextOf, hq] at hk
      · exact (Exec.of_step_error hf' hstep).2.2 (hs.seats hat.size)

/-- An instruction that raises something takes nothing that a handler needs. -/
theorem Raising.room {e : Raised} {height : Nat -> Nat} {i : Instr}
    (h : m.Raising e f rest height i m') (hw : Waiting m.heap f.base rest)
    (hg : g ∈ { f with ip := f.ip + 1 } :: rest) (hr : g.Guarded m.heap r) :
    g.base + r.depth + i.taken <= m.stack.size := by
  rw [h.size]
  rcases List.mem_cons.mp hg with rfl | hg
  · have hcovers := hr.covers
    rw [Nat.add_sub_cancel] at hcovers
    have hkept := (h.keeps.ranges r hr.mem).kept f.ip i hcovers h.instr h.loud
    show f.base + r.depth + i.taken <= f.base + height f.ip
    lia
  · have hle := hw.depth_le hg hr.mem hr.covers
    have hoperands := (h.keeps.instrs f.ip i h.instr).operands
    have htaken := i.taken_le_reach
    lia

/-- What a call above the handler has on the stack is not touched before it is taken away. -/
theorem Raising.stack {e : Raised} {height : Nat -> Nat} {i : Instr} {n : Nat}
    (h : m.Raising e f rest height i m') (hn : n + i.taken <= m.stack.size) :
    m'.stack.take n = m.stack.take n := by
  refine take_eq_take fun j hj => ?_
  rw [h.spares.stack j (by rw [advance_stack]; lia), advance_stack]

end Calls

/-! ## The handler -/

/-- What an instruction of a compiled script raises goes to the topmost call inside a `try`, and
there to the innermost `try`; the frames at that moment are those of `m.advance`, where the
innermost call has gone past the instruction.  If no call is inside a `try`, the run fails. -/
theorem raised_goes_to_innermost_handler {m : Machine} {e : Raised} (hm : m.Reachable)
    (he : m.raised? = some e) :
    (forall g, g ∈ m.frames.tail -> 0 < g.ip ∧
      ((m.heap.function g.function).code.instrs[g.ip - 1]? = some .use ∨
        exists n, (m.heap.function g.function).code.instrs[g.ip - 1]? = some (.call n))) ∧
    ((exists above g r outer m', m.advance.frames = above ++ g :: outer ∧
        (forall k, k ∈ above -> k.Bare m.heap) ∧ g.Guarded m.heap r ∧
        m.tick = (.running, m') ∧ m'.frames = { g with ip := r.stop } :: outer ∧
        m'.stack = (m.stack.take (g.base + r.depth)).push e.toValue ∧
        m'.stack.size = g.base + r.depth + 1) ∨
      ((forall k, k ∈ m.advance.frames -> k.Bare m.heap) ∧
        exists error m', m.tick = (.failed error, m') ∧
          error.message = m'.heap.render e.toValue ∧
          error.callStack = m.advance.frames.map m'.callEntry ∧
          m'.stack = #[] ∧ m'.frames = [])) := by
  have hsound := hm.sound
  cases hf : m.frames with
  | nil =>
      unfold Machine.raised? at he
      rw [hf] at he
      cases he
  | cons f rest =>
      have hstands := hsound.safe.stands
      rw [Machine.Stands, hf] at hstands
      rcases hstands with ⟨-, hwaiting⟩
      refine ⟨fun g hg => hwaiting.opened hg, ?_⟩
      rcases hsound.raising hf he with ⟨height, i, m', h⟩
      have hframes : m.advance.frames = { f with ip := f.ip + 1 } :: rest := by
        rw [advance_apply hf]
      have hgood : forall k, k ∈ m.advance.frames -> m.heap.Good k.function := by
        intro k hk
        rw [hframes] at hk
        rcases List.mem_cons.mp hk with rfl | hk
        · exact hsound.safe.frames f (by simp [hf])
        · exact hsound.safe.frames k (by simp [hf, hk])
      -- The functions of the calls are still what they were before the instruction.
      have hext := h.spares.extends_ hsound.lawful.steady.advance
      rw [advance_heap] at hext
      have hsame {k : Frame} (hk : k ∈ m.advance.frames) :
          m'.heap.function k.function = m.heap.function k.function :=
        hext.function_of_good (hgood k hk)
      have hbare {k : Frame} (hk : k ∈ m.advance.frames)
          (hnone : (m'.heap.function k.function).findRange? (k.ip - 1) = none) :
          k.Bare m.heap := by
        rw [hsame hk] at hnone
        exact hsound.bare (hgood k hk) hnone
      rw [h.tick, Machine.unwind, h.spares.frames]
      cases hh : handler? m'.heap m.advance.frames with
      | none =>
          refine Or.inr ⟨fun k hk => hbare hk (of_handler?_none hh hk), ?_⟩
          refine ⟨m'.report e.toValue, m'.reset, rfl, rfl, ?_, rfl, rfl⟩
          rw [← h.spares.frames]
          rfl
      | some found =>
          rcases found with ⟨g, r, outer⟩
          rcases of_handler?_some hh with ⟨above, hsplit, habove, hfound⟩
          have hg : g ∈ m.advance.frames := by simp [hsplit]
          rw [hsame hg] at hfound
          have hguarded := hsound.guarded (hgood g hg) hfound
          have hroom := h.room hwaiting (by rw [← hframes]; exact hg) hguarded
          have hstack : (m'.catchIn e.toValue g r outer).stack =
              (m.stack.take (g.base + r.depth)).push e.toValue := by
            rw [← h.stack hroom]
            rfl
          refine Or.inl ⟨above, g, r, outer, m'.catchIn e.toValue g r outer, hsplit, ?_, hguarded,
            rfl, rfl, hstack, ?_⟩
          · intro k hk
            exact hbare (by simp [hsplit, hk]) (habove k hk)
          · rw [hstack, Array.size_push, Array.take_eq_extract, Array.size_extract]
            lia

end Machine

/-! ## A value thrown through a call -/

/-- A script whose function throws into the `try` around its call. -/
def thrownThrough : String :=
  "function f() \x7b throw 1 \x7d try \x7b f() \x7d except e \x7b echo e \x7d"

def thrower : Machine :=
  ((Interpreter.begun thrownThrough).run 5).2

theorem thrower_goes_to_innermost_handler :
    thrower.Reachable ∧ thrower.raised? = some (.value (.integer 1)) ∧
      exists above g r outer m', thrower.advance.frames = above ++ g :: outer ∧
        (forall k, k ∈ above -> k.Bare thrower.heap) ∧ g.Guarded thrower.heap r ∧
        thrower.tick = (.running, m') ∧ m'.frames = { g with ip := r.stop } :: outer ∧
        m'.stack = (thrower.stack.take (g.base + r.depth)).push (.integer 1) ∧
        m'.stack.size = g.base + r.depth + 1 := by
  have hreachable : thrower.Reachable := (Interpreter.reachable_begun (by decide +kernel)).run 5
  have hfacts : thrower.raised? = some (.value (.integer 1)) ∧ thrower.tick.1 = .running := by
    decide +kernel
  refine ⟨hreachable, hfacts.1, ?_⟩
  rcases (Machine.raised_goes_to_innermost_handler hreachable hfacts.1).2 with
    hcaught | ⟨-, error, m', htick, -⟩
  · exact hcaught
  · have hrunning := hfacts.2
    rw [htick] at hrunning
    cases hrunning

end StackScript
