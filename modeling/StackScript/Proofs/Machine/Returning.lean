import StackScript.Proofs.Machine.Reachable

/-!
# Returning to the caller

While a call is in progress, nothing below its slot zero is written, taken away or cut
off: not by the call itself, nor by the calls that it opens, nor by values thrown and
caught inside of it.  So when it returns, its caller finds what it left.
-/

namespace StackScript
namespace Machine

theorem getElem?_take_push {s : Array Value} {v : Value} {n j : Nat} (hn : j < n)
    (hs : j < s.size) : ((s.take n).push v)[j]? = s[j]? := by
  have hj : j < (s.take n).size := by
    rw [Array.take_eq_extract, Array.size_extract]
    lia
  rw [Array.getElem?_push_lt hj, Array.getElem?_eq_getElem hs]
  simp

/-- A handler finds what lay below its height. -/
theorem getElem?_catchIn {m : Machine} {v : Value} {f : Frame} {r : TryRange} {rest : List Frame}
    {j : Nat} (hj : j < f.base + r.depth) (hs : j < m.stack.size) :
    (m.catchIn v f r rest).stack[j]? = m.stack[j]? :=
  getElem?_take_push hj hs

theorem size_catchIn {m : Machine} {v : Value} {f : Frame} {r : TryRange} {rest : List Frame}
    (h : f.base + r.depth <= m.stack.size) :
    (m.catchIn v f r rest).stack.size = f.base + r.depth + 1 := by
  show ((m.stack.take (f.base + r.depth)).push v).size = _
  rw [Array.size_push, Array.take_eq_extract, Array.size_extract, Nat.sub_zero,
    Nat.min_eq_left h]

/-! ## The call over given frames -/

/-- Frames with a call over `below` whose slot zero is at `base`. -/
def Over (below : List Frame) (base : Nat) (frames : List Frame) : Prop :=
  exists above c, frames = above ++ c :: below ∧ c.base = base

/-- The call over `below` is in progress, and below its slot zero lies what lies in `s`. -/
structure Shields (below : List Frame) (base : Nat) (s : Array Value) (m : Machine) : Prop where
  frames : Over below base m.frames
  stack : forall j, j < base -> m.stack[j]? = s[j]?

section Over

variable {below rest outer : List Frame} {base : Nat} {f g : Frame}

theorem not_over_nil : ¬ Over below base [] := by
  rintro ⟨above, c, hframes, -⟩
  simp at hframes

/-- What the call stands over lies below the calls above it. -/
theorem Over.below_suffix (h : Over below base (f :: rest)) : below <:+ rest := by
  rcases h with ⟨above, c, hframes, -⟩
  cases above with
  | nil =>
      cases hframes
      exact List.suffix_refl _
  | cons a above =>
      cases hframes
      exact ⟨above ++ [c], by simp⟩

/-- If there is nothing above the call it is the innermost one. -/
theorem Over.innermost (h : Over below base (f :: rest)) (hlength : rest.length = below.length) :
    rest = below ∧ f.base = base := by
  rcases h with ⟨above, c, hframes, hbase⟩
  have hempty : above = [] := by
    have hcount := congrArg List.length hframes
    simp only [List.length_append, List.length_cons] at hcount
    exact List.eq_nil_of_length_eq_zero (by lia)
  rw [hempty] at hframes
  cases hframes
  exact ⟨rfl, hbase⟩

/-- Only the base of a frame matters. -/
theorem Over.head (h : Over below base (f :: rest)) (hg : g.base = f.base) :
    Over below base (g :: rest) := by
  rcases h with ⟨above, c, hframes, hbase⟩
  cases above with
  | nil =>
      cases hframes
      exact ⟨[], g, rfl, hg.trans hbase⟩
  | cons a above =>
      cases hframes
      exact ⟨g :: above, c, rfl, hbase⟩

theorem Over.cons (h : Over below base rest) (f : Frame) : Over below base (f :: rest) := by
  rcases h with ⟨above, c, hframes, hbase⟩
  exact ⟨f :: above, c, by rw [hframes]; rfl, hbase⟩

/-- Giving up calls above it leaves the call. -/
theorem Over.suffix {frames : List Frame} (h : Over below base frames)
    (hsuffix : outer <:+ frames) (hlength : below.length < outer.length) :
    Over below base outer := by
  rcases h with ⟨above, c, hframes, hbase⟩
  have hcall : (c :: below) <:+ frames := ⟨above, hframes.symm⟩
  rcases List.suffix_of_suffix_length_le hcall hsuffix hlength with ⟨between, heq⟩
  exact ⟨between, c, heq.symm, hbase⟩

/-- Slot zero of the call lies at or below that of every call above it. -/
theorem Over.base_le {h : Heap} {size : Nat} (hover : Over below base (f :: rest))
    (hstands : Standing h size (f :: rest)) : base <= f.base := by
  rcases hover with ⟨above, c, hframes, hbase⟩
  rcases hstands with ⟨-, hwaiting⟩
  cases above with
  | nil =>
      cases hframes
      exact Nat.le_of_eq hbase.symm
  | cons a above =>
      cases hframes
      rw [← hbase]
      exact hwaiting.base_le (by simp)

end Over

/-! ## One turn -/

section Turns

variable {m m' : Machine} {below : List Frame} {base : Nat} {s : Array Value}

theorem Over.advance (h : Over below base m.frames) : Over below base m.advance.frames := by
  cases hf : m.frames with
  | nil =>
      rw [hf] at h
      exact absurd h not_over_nil
  | cons f rest =>
      rw [hf] at h
      rw [advance_apply hf]
      exact h.head rfl

/-- As long as the call is in progress, a turn leaves what lies below it alone. -/
theorem Shields.tick (hm : m.Sound) (h : m.Shields below base s)
    (htick : m.tick = (.running, m')) (hlength : below.length < m'.frames.length) :
    m'.Shields below base s := by
  have hover := h.frames
  have hadvance := h.frames.advance
  have hstands := hm.safe.stands
  have hsafe' := tick_safe hm.safe
  rw [htick] at hsafe'
  have hstands' := hsafe'.stands
  cases hf : m.frames with
  | nil =>
      rw [hf] at hover
      exact absurd hover not_over_nil
  | cons f rest =>
      rw [Machine.Stands, hf] at hstands
      rw [hf] at hover
      have hbase := hover.base_le hstands
      rcases hm.safe.turn hf with ⟨i, -, hsize, hturn⟩
      rw [htick] at hturn
      have hgone {j : Nat} (hj : j < base) {m1 : Machine} (hspares : m.advance.Spares i m1) :
          m1.stack[j]? = s[j]? := by
        rw [hspares.stack j (by rw [advance_stack]; lia), advance_stack]
        exact h.stack j hj
      cases hturn with
      | stays hstays =>
          rcases hstays.goes with ⟨ip, -, hframes⟩
          refine ⟨?_, fun j hj => ?_⟩
          · rw [hframes]
            exact hover.head rfl
          · have hfar : forall s, s ∈ i.writes -> j ≠ f.base + s := fun s _ => by lia
            rw [hstays.stack j (by rw [advance_stack]; lia) hfar, advance_stack]
            exact h.stack j hj
      | opens _ hopens =>
          rcases hopens.frames with ⟨id, hframes⟩
          refine ⟨?_, fun j hj => ?_⟩
          · rw [hframes]
            exact hadvance.cons _
          · rw [hopens.stack j (by rw [advance_stack]; lia), advance_stack]
            exact h.stack j hj
      | returns hi hrest htop =>
          refine ⟨hover.suffix (List.suffix_cons f rest) hlength, fun j hj => ?_⟩
          show ((m.stack.take f.base).push _)[j]? = _
          rw [getElem?_take_push (by lia) (by lia)]
          exact h.stack j hj
      | ends => simp at hlength
      | catches he hspares hh =>
          rename_i e m1 g r outer
          rcases of_handler?_some hh with ⟨above, hsplit, -, -⟩
          have hgiven : Over below base (g :: outer) :=
            hadvance.suffix ⟨above, hsplit.symm⟩ hlength
          have hcaught : Over below base (m1.catchIn e.toValue g r outer).frames := hgiven.head rfl
          have hle : base <= g.base := hcaught.base_le hstands'
          have hleft := hspares.size
          rw [advance_stack] at hleft
          refine ⟨hcaught, fun j hj => ?_⟩
          rw [getElem?_catchIn (by lia) (by lia)]
          exact hgone hj hspares

/-! ## Runs -/

theorem Shields.run {n : Nat} (hm : m.Sound) (h : m.Shields below base s)
    (hrun : m.run n = (.running, m'))
    (hstays : forall k, k <= n -> below.length < (m.run k).2.frames.length) :
    m'.Sound ∧ m'.Shields below base s := by
  induction n generalizing m with
  | zero =>
      cases hrun
      exact ⟨hm, h⟩
  | succ n ih =>
      rw [Machine.run] at hrun
      split at hrun
      · rename_i m1 htick
        have hnext (k : Nat) : m.run (k + 1) = m1.run k := run_succ_of_tick htick k
        have hone : below.length < m1.frames.length := by
          have hlength := hstays 1 (by lia)
          rw [hnext 0] at hlength
          exact hlength
        have hsound : m1.Sound := by
          have hsound := sound_tick hm
          rw [htick] at hsound
          exact hsound
        refine ih hsound (h.tick hm htick hone) hrun ?_
        intro k hk
        rw [← hnext k]
        exact hstays (k + 1) (by lia)
      · rename_i hne
        exact absurd hrun (hne m')

end Turns

/-- A turn with one call more at its end has opened it. -/
theorem Sound.opened {m m' : Machine} {f : Frame} {rest : List Frame} (hm : m.Sound)
    (hf : m.frames = f :: rest) (htick : m.tick = (.running, m'))
    (hlength : m'.frames.length = m.frames.length + 1) :
    exists i count, (m.fetch? f = some (.call count) ∨ m.fetch? f = some .use ∧ count = 0) ∧
      i.taken = count + 1 ∧ count + 1 < m.stack.size ∧ m.advance.Opens i m' := by
  rcases hm.safe.turn hf with ⟨i, hi, hsize, hturn⟩
  have hadvance : m.advance.frames = { f with ip := f.ip + 1 } :: rest := by rw [advance_apply hf]
  rw [htick] at hturn
  rw [hf, List.length_cons] at hlength
  cases hturn with
  | stays hstays =>
      rcases hstays.goes with ⟨ip, -, hframes⟩
      rw [hframes, List.length_cons] at hlength
      lia
  | opens hi' hopens =>
      rcases Instr.of_opens hi' with ⟨count, hcount, hkind⟩
      refine ⟨i, count, ?_, hcount, by lia, hopens⟩
      rcases hkind with rfl | ⟨rfl, rfl⟩
      · exact Or.inl hi
      · exact Or.inr ⟨hi, rfl⟩
  | returns =>
      simp only at hlength
      lia
  | ends => simp at hlength
  | catches _ _ hh =>
      rcases of_handler?_some hh with ⟨above, hsplit, -, -⟩
      have hframes := congrArg List.length hsplit
      rw [hadvance] at hframes
      simp only [catchIn, List.length_cons, List.length_append] at hlength hframes
      lia

/-- A call that has been opened and returns, whatever was done in between, leaves its caller the
frames and the stack as they were at the call, with its result in place of itself and its
arguments. -/
theorem call_returns_to_caller {m m1 m2 : Machine} {f : Frame} {rest : List Frame} {n : Nat}
    (hm : m.Reachable) (hf : m.frames = f :: rest) (hcall : m.tick = (.running, m1))
    (hopened : m1.frames.length = m.frames.length + 1) (hrun : m1.run n = (.running, m2))
    (hstays : forall k, k <= n -> m.frames.length < (m1.run k).2.frames.length)
    (hback : m2.frames.length = m1.frames.length)
    (hret : m2.frames.head?.bind m2.fetch? = some .ret) :
    exists count callee v m3,
      (m.fetch? f = some (.call count) ∨ m.fetch? f = some .use ∧ count = 0) ∧
      count + 1 < m.stack.size ∧
      m1.frames = callee :: { f with ip := f.ip + 1 } :: rest ∧
      callee.base = m.stack.size - count - 1 ∧
      m2.stack.back? = some v ∧ m2.tick = (.running, m3) ∧
      m3.frames = { f with ip := f.ip + 1 } :: rest ∧
      m3.stack = (m.stack.take (m.stack.size - count - 1)).push v := by
  have hsound := hm.sound
  rcases hsound.opened hf hcall hopened with ⟨i, count, hkind, hcount, hsize, hopens⟩
  rcases hopens.frames with ⟨id, hframes⟩
  have hadvance : m.advance.frames = { f with ip := f.ip + 1 } :: rest := by rw [advance_apply hf]
  rw [advance_stack, hadvance, hcount, Nat.sub_add_eq] at hframes
  have hsound1 : m1.Sound := by
    have hsound1 := sound_tick hsound
    rw [hcall] at hsound1
    exact hsound1
  have hshields : m1.Shields ({ f with ip := f.ip + 1 } :: rest) (m.stack.size - count - 1)
      m.stack := by
    refine ⟨⟨[], _, hframes, rfl⟩, fun j hj => ?_⟩
    rw [hopens.stack j (by rw [advance_stack]; lia), advance_stack]
  rw [hf] at hstays
  rcases hshields.run hsound1 hrun hstays with ⟨hsound2, ⟨above, c, hframes2, hbase⟩, hstack2⟩
  have habove : above = [] := by
    rw [hframes, hframes2] at hback
    simp only [List.length_append, List.length_cons] at hback
    exact List.eq_nil_of_length_eq_zero (by lia)
  rw [habove, List.nil_append] at hframes2
  rw [hframes2] at hret
  rcases hsound2.safe.tick_ret hframes2 hret with ⟨v, htop, htick⟩
  refine ⟨count, _, v, _, hkind, hsize, hframes, rfl, htop, htick, rfl, ?_⟩
  show (m2.stack.take c.base).push v = _
  rw [hbase, take_eq_take hstack2]

end Machine

/-! ## A call with one argument -/

def returned : String :=
  "function f(x) \x7b return x \x7d f(7)"

def caller : Machine :=
  ((Interpreter.begun returned).run 4).2

theorem caller_is_returned_to :
    caller.Reachable ∧ caller.frames = [⟨1, 4, 0⟩] ∧
      exists m1 m2, caller.tick = (.running, m1) ∧ m1.run 1 = (.running, m2) ∧
        exists count callee v m3,
          (caller.fetch? ⟨1, 4, 0⟩ = some (.call count) ∨
            caller.fetch? ⟨1, 4, 0⟩ = some .use ∧ count = 0) ∧
          count + 1 < caller.stack.size ∧
          m1.frames = [callee, ⟨1, 5, 0⟩] ∧ callee.base = caller.stack.size - count - 1 ∧
          m2.stack.back? = some v ∧ m2.tick = (.running, m3) ∧
          m3.frames = [⟨1, 5, 0⟩] ∧
          m3.stack = (caller.stack.take (caller.stack.size - count - 1)).push v := by
  have hreachable : caller.Reachable := (Interpreter.reachable_begun (by decide +kernel)).run 4
  have hfacts : caller.frames = [⟨1, 4, 0⟩] ∧ caller.tick.1 = .running ∧
      caller.tick.2.frames.length = 2 ∧ (caller.tick.2.run 1).1 = .running ∧
      (caller.tick.2.run 1).2.frames.length = 2 ∧
      (caller.tick.2.run 1).2.frames.head?.bind (caller.tick.2.run 1).2.fetch? = some .ret := by
    decide +kernel
  rcases hfacts with ⟨hframes, htick, hopened, hrun, hback, hret⟩
  have hlength : caller.frames.length = 1 := by rw [hframes]; rfl
  refine ⟨hreachable, hframes, caller.tick.2, (caller.tick.2.run 1).2, Prod.ext htick rfl,
    Prod.ext hrun rfl, ?_⟩
  refine Machine.call_returns_to_caller (n := 1) hreachable hframes (Prod.ext htick rfl) ?_
    (Prod.ext hrun rfl) ?_ ?_ hret
  · rw [hopened, hlength]
  · intro k hk
    rw [hlength]
    rcases Nat.le_one_iff_eq_zero_or_eq_one.mp hk with rfl | rfl
    · show 1 < caller.tick.2.frames.length
      lia
    · lia
  · rw [hback, hopened]

end StackScript
