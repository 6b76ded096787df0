import Mathlib.Data.Set.Finite.Lattice
import StackScript.Proofs.Machine.Room

/-!
# How far calls and values can pile up

Only the opening of a call looks at the limits, so what bounds a machine is an invariant.  The
calls stand one above the other, from the bottom of the stack on, and each of them but the
outermost was opened when there was room.  What a call adds to the stack above its base is known
from its code alone.
-/

namespace StackScript

/-! ## Static heights -/

/-- Going by the code, control comes to an index with so many values in its call. -/
inductive Function.Comes (f : Function) : Nat -> Nat -> Prop where
  | entry : Comes f 0 (f.arity + 1)
  | flow {ip t n : Nat} {i : Instr} : Comes f ip n -> f.code.instrs[ip]? = some i ->
      t ∈ i.successors ip -> Comes f t (i.heightAfter n)
  | handler {ip n : Nat} {r : TryRange} : Comes f ip n -> r ∈ f.ranges -> r.covers ip = true ->
      Comes f r.stop (r.depth + 1)

/-- The heights that calls of a function have by its code. -/
def Function.staticHeights (f : Function) : Set Nat :=
  {n | exists ip, f.Comes ip n}

def Heap.staticHeights (h : Heap) : Set Nat :=
  {n | exists f, f ∈ h.functions ∧ n ∈ f.staticHeights}

section Static

variable {f : Function} {ip n : Nat} {height : Nat -> Nat}

/-- Every assignment of heights that passes the check gives the same ones where control comes. -/
theorem Function.Keeps.of_comes (hk : f.Keeps height) (h : f.Comes ip n) :
    ip < f.code.size ∧ height ip = n := by
  induction h with
  | entry => exact ⟨hk.nonempty, hk.entry⟩
  | flow _ hi ht ih =>
      have hfits := hk.instrs _ _ hi
      exact ⟨hfits.inside _ ht, by rw [hfits.flow _ ht, ih.2]⟩
  | handler _ hr _ _ =>
      have hfits := hk.ranges _ hr
      exact ⟨hfits.inside, hfits.handler⟩

theorem Function.Checked.finite_staticHeights (hf : f.Checked) : f.staticHeights.Finite := by
  rcases hf with ⟨height, hk⟩
  refine ((Set.finite_lt_nat f.code.size).image height).subset ?_
  rintro n ⟨ip, hcomes⟩
  rcases hk.of_comes hcomes with ⟨hin, hheight⟩
  exact ⟨ip, hin, hheight⟩

theorem Heap.finite_staticHeights {h : Heap}
    (hchecked : forall f, f ∈ h.functions -> f.Checked) : h.staticHeights.Finite := by
  have hfunctions : {f : Function | f ∈ h.functions}.Finite := by
    refine h.functions.toList.finite_toSet.subset ?_
    intro f hf
    exact Array.mem_toList_iff.mpr hf
  refine (hfunctions.biUnion fun f hf => (hchecked f hf).finite_staticHeights).subset ?_
  rintro n ⟨f, hf, hn⟩
  exact Set.mem_biUnion hf hn

end Static

/-! ## Calls and where their code can come to -/

/-- A call is where the code of its function can come to, and if it waits for another call, it has
come from the instruction before. -/
def Seat.Led (S : Seat) (outer : List Frame) (ip : Nat) (m : Machine) : Prop :=
  (exists n, S.function.Comes ip n) ∧
    (outer.length + 1 < m.frames.length -> exists n, S.function.Comes (ip - 1) n)

/-- Every call is where the code of its function can come to. -/
def Machine.Follows (m : Machine) : Prop :=
  forall above f outer, m.frames = above ++ f :: outer -> (m.seat f).Led outer f.ip m

section Follows

variable {S : Seat} {height : Nat -> Nat} {m m' : Machine} {f : Frame} {rest outer : List Frame}
variable {ip t : Nat}

theorem Seat.Top.length (h : S.Top height outer ip m) : m.frames.length = outer.length + 1 := by
  rw [h.frames, List.length_cons]

theorem Seat.Below.length (h : S.Below height outer ip m) :
    outer.length + 1 < m.frames.length := by
  rcases h with ⟨base, -, above, c, hframes, -⟩
  rw [hframes]
  simp only [List.length_append, List.length_cons]
  lia

/-- The innermost call has come to its instruction by the code of its function. -/
theorem Seat.led_of_comes (hcomes : exists n, S.function.Comes ip n)
    (htop : m.frames.length = outer.length + 1) : S.Led outer ip m := by
  refine ⟨hcomes, fun hlonger => ?_⟩
  rw [htop] at hlonger
  exact absurd hlonger (Nat.lt_irrefl _)

theorem Seat.Passes.led (h : S.Passes height outer m m' ip t) (hled : S.Led outer ip m) :
    S.Led outer t m' := by
  rcases hled with ⟨⟨n, hcomes⟩, hwaits⟩
  cases h with
  | above hbelow _ _ => exact ⟨⟨n, hcomes⟩, fun _ => hwaits hbelow.length⟩
  | back _ htop _ => exact led_of_comes ⟨n, hcomes⟩ htop.length
  | goes hi _ _ htop ht _ => exact led_of_comes ⟨_, hcomes.flow hi ht⟩ htop.length
  | opens hi hopens _ _ _ =>
      exact ⟨⟨_, hcomes.flow hi (Instr.successors_of_opens hopens)⟩, fun _ => ⟨n, hcomes⟩⟩
  | catches _ hr hcovers hfrom htop _ =>
      refine led_of_comes ?_ htop.length
      rcases hfrom with ⟨-, rfl⟩ | ⟨hbelow, rfl⟩
      · exact ⟨_, hcomes.handler hr hcovers⟩
      · rcases hwaits hbelow.length with ⟨k, hcomes⟩
        exact ⟨_, hcomes.handler hr hcovers⟩

namespace Machine

/-- A call that has just been opened is at the entry of its function. -/
theorem led_of_entry (hf : m.frames = f :: outer) (hip : f.ip = 0) :
    (m.seat f).Led outer f.ip m := by
  rw [hip]
  exact Seat.led_of_comes ⟨_, .entry⟩ (by rw [hf, List.length_cons])

theorem Follows.tick (h : m.Follows) (hm : m.Reachable) : m.tick.2.Follows := by
  intro above f outer hf
  rcases htick : m.tick with ⟨s, m'⟩
  rw [htick] at hf
  show (m'.seat f).Led outer f.ip m'
  rcases hm.levelled.passes hm.sound htick hf with ⟨hnew, hip⟩ | ⟨above', ip, hold, hseat, hpasses⟩
  · exact led_of_entry hnew hip
  · have hmem : { f with ip := ip } ∈ m.frames := by simp [hold]
    rcases (hm.sound.safe.frames _ hmem).checked with ⟨height, hk⟩
    rw [hseat]
    exact (hpasses height hk).led (h _ _ _ hold)

theorem Reachable.follows (hm : m.Reachable) : m.Follows := by
  induction hm with
  | new limits files =>
      intro above f outer hf
      exact absurd hf (by simp [Interpreter.new])
  | addNative name _ _ ih => exact ih
  | files files _ ih => exact ih
  | load _ hrest hload =>
      intro above f outer hf
      rcases frames_of_load hrest hload hf with ⟨hbegun, hip⟩
      exact led_of_entry hbegun hip
  | tick hm ih => exact ih.tick hm

/-- What the innermost call has on the stack is a static height of its function. -/
theorem Reachable.top_comes (hm : m.Reachable) (hf : m.frames = f :: rest) :
    exists n, (m.heap.function f.function).Comes f.ip n ∧ m.stack.size = f.base + n := by
  have hmem : f ∈ m.frames := by simp [hf]
  rcases (hm.sound.safe.frames f hmem).checked with ⟨height, hk⟩
  rcases (hm.follows [] f rest hf).1 with ⟨n, hcomes⟩
  refine ⟨n, hcomes, ?_⟩
  rcases hm.levelled [] f rest height hf hk with htop | hbelow
  · rw [htop.size, (hk.of_comes hcomes).2]
    rfl
  · have hlonger := hbelow.length
    rw [hf, List.length_cons] at hlonger
    exact absurd hlonger (Nat.lt_irrefl _)

end Machine
end Follows

/-! ## The bases of the calls -/

/-- Bases of calls within limits, innermost first.  The outermost call is at the bottom of the
stack.  Each other one was opened above a base further down, when there was room. -/
def Stacked (l : Limits) : List Nat -> Prop
  | [] => True
  | [b] => b = 0
  | b :: c :: rest =>
    c < b ∧ b < l.slots ∧ rest.length + 1 < l.frames ∧ Stacked l (c :: rest)

section Stacked

variable {l : Limits} {b c : Nat} {bases rest : List Nat}

theorem Stacked.tail (h : Stacked l (b :: rest)) : Stacked l rest := by
  cases rest with
  | nil => trivial
  | cons c rest => exact h.2.2.2

theorem Stacked.suffix (h : Stacked l bases) (hsuffix : rest <:+ bases) : Stacked l rest := by
  induction bases with
  | nil =>
      rw [List.suffix_nil.mp hsuffix]
      trivial
  | cons b bases ih =>
      rcases List.suffix_cons_iff.mp hsuffix with rfl | hsuffix
      · exact h
      · exact ih h.tail hsuffix

theorem Stacked.length_le (h : Stacked l bases) : bases.length <= max 1 l.frames := by
  match bases, h with
  | [], _ => exact Nat.zero_le _
  | [b], _ => exact Nat.le_max_left _ _
  | b :: c :: rest, h =>
      refine Nat.le_trans ?_ (Nat.le_max_right _ _)
      exact h.2.2.1

theorem Stacked.le_head (h : Stacked l (b :: rest)) (hc : c ∈ rest) : c < b := by
  induction rest generalizing b with
  | nil => cases hc
  | cons d rest ih =>
      rcases List.mem_cons.mp hc with rfl | hc
      · exact h.1
      · exact Nat.lt_trans (ih h.tail hc) h.1

theorem Stacked.pairwise (h : Stacked l bases) : bases.Pairwise (fun b c => c < b) := by
  induction bases with
  | nil => exact .nil
  | cons b rest ih => exact List.pairwise_cons.mpr ⟨fun c hc => h.le_head hc, ih h.tail⟩

theorem Stacked.last (h : Stacked l (rest ++ [b])) : b = 0 :=
  h.suffix (List.suffix_append rest [b])

theorem Stacked.lt_slots (h : Stacked l (bases ++ b :: rest)) (hrest : rest ≠ []) :
    b < l.slots := by
  have hinner := h.suffix (List.suffix_append bases (b :: rest))
  cases rest with
  | nil => exact absurd rfl hrest
  | cons c rest => exact hinner.2.1

end Stacked

/-- A machine whose calls have been opened within its limits. -/
structure Machine.Held (m : Machine) : Prop where
  stacked : Stacked m.limits (m.frames.map Frame.base)
  /-- Between two runs there is nothing on the stack. -/
  idle : m.frames = [] -> m.stack = #[]

namespace Machine

section Held

variable {m m' : Machine} {f : Frame} {rest : List Frame} {i : Instr} {s : Status}

/-- A run that has come to its end leaves what was below its outermost call. -/
theorem Turn.stack_of_rest (ht : m.Turn f rest i (s, m')) (hbase : rest = [] -> f.base = 0)
    (hrest : m'.frames = []) : m'.stack = #[] := by
  cases ht with
  | stays hstays =>
      rcases hstays.goes with ⟨ip, -, hframes⟩
      rw [hframes] at hrest
      cases hrest
  | opens _ hopens =>
      rcases hopens.frames with ⟨id, hframes⟩
      rw [hframes] at hrest
      cases hrest
  | returns _ houter _ => exact absurd hrest houter
  | ends _ houter =>
      show m.stack.take f.base = #[]
      rw [hbase houter]
      simp
  | catches _ _ _ => cases hrest
  | fails _ _ _ => rfl

theorem Held.tick (h : m.Held) (hm : m.Sound) : m.tick.2.Held := by
  cases hf : m.frames with
  | nil =>
      rw [tick_idle hf]
      exact h
  | cons f rest =>
      have hstacked := h.stacked
      rw [hf] at hstacked
      rcases m.exists_tick_kept with ⟨_, -, hkept⟩
      have hlimits := hkept.limits
      have hopens_iff := hm.opens_iff hf
      rcases hm.safe.turn hf with ⟨i, -, hsize, hturn⟩
      rcases htick : m.tick with ⟨s, m'⟩
      rw [htick] at hturn hlimits hopens_iff
      have hidle : m'.frames = [] -> m'.stack = #[] := by
        refine hturn.stack_of_rest fun hrest => ?_
        rw [hrest] at hstacked
        exact hstacked
      refine ⟨?_, hidle⟩
      rw [hlimits]
      rcases hturn.bases hf with hsuffix | ⟨hi, hopens⟩
      · exact h.stacked.suffix hsuffix
      · have htaken : 0 < i.taken := by
          rcases Instr.of_opens hi with ⟨count, hcount, -⟩
          lia
        rcases hopens.frames with ⟨id, hframes⟩
        have hlonger : m.frames.length < m'.frames.length := by
          rw [hframes, List.length_cons, length_advance]
          exact Nat.lt_succ_self _
        have hroom := (hopens_iff.mp hlonger).2
        unfold Exec.Full at hroom
        rw [hf, List.length_cons] at hroom
        rw [hframes, advance_stack, advance_apply hf]
        refine ⟨?_, ?_, ?_, hstacked⟩
        · show f.base < m.stack.size - i.taken
          lia
        · show m.stack.size - i.taken < m.limits.slots
          lia
        · rw [List.length_map]
          lia

theorem Reachable.held (hm : m.Reachable) : m.Held := by
  induction hm with
  | new limits files => exact ⟨trivial, fun _ => rfl⟩
  | addNative name _ _ ih => exact ⟨ih.stacked, ih.idle⟩
  | files files _ ih => exact ⟨ih.stacked, ih.idle⟩
  | load _ hrest hload ih =>
      rcases Interpreter.load_ok hload with ⟨id, h, output, -, rfl⟩
      refine ⟨?_, fun hnone => by cases hnone⟩
      rw [hrest, ih.idle hrest]
      rfl
  | tick hm ih => exact ih.tick hm.sound

/-- The values on the stack are as many as the limit and a static height at most. -/
theorem Reachable.size_le {n : Nat} (hm : m.Reachable)
    (hn : n ∈ upperBounds m.heap.staticHeights) : m.stack.size <= m.limits.slots + n := by
  cases hf : m.frames with
  | nil =>
      rw [hm.held.idle hf]
      exact Nat.zero_le _
  | cons f rest =>
      have hmem : f ∈ m.frames := by simp [hf]
      rcases hm.top_comes hf with ⟨k, hcomes, hsize⟩
      have hk : k <= n :=
        hn ⟨_, (hm.sound.safe.frames f hmem).mem_functions, f.ip, hcomes⟩
      have hbase : f.base <= m.limits.slots := by
        have hstacked := hm.held.stacked
        rw [hf] at hstacked
        cases rest with
        | nil =>
            have hzero : f.base = 0 := hstacked
            rw [hzero]
            exact Nat.zero_le _
        | cons g outer =>
            have hroom : f.base < m.limits.slots := hstacked.2.1
            exact Nat.le_of_lt hroom
      lia

end Held

/-- The limits are looked at only where a call is opened, but they hold at all times.  The calls
in progress are as many as the limit allows, or one.  They stand one above the other, the
outermost at the bottom of the stack and the others below the limit on values, which the stack
exceeds by a static height of some function at most.  A call for which there is no room throws
and leaves all calls and all values below it where they are. -/
theorem calls_keep_to_limits {m : Machine} (hm : m.Reachable) :
    m.frames.length <= max 1 m.limits.frames ∧
    (m.frames.map Frame.base).Pairwise (fun above below => below < above) ∧
    (forall inner f, m.frames = inner ++ [f] -> f.base = 0) ∧
    (forall inner f outer, m.frames = inner ++ f :: outer -> outer ≠ [] ->
      f.base < m.limits.slots) ∧
    BddAbove m.heap.staticHeights ∧
    (forall n, n ∈ upperBounds m.heap.staticHeights -> m.stack.size <= m.limits.slots + n) ∧
    forall f rest, m.frames = f :: rest ->
      (m.frames.length < m.tick.2.frames.length ↔
        (exists count, m.Calls f count) ∧ ¬ Exec.Full m) ∧
      forall count, m.Calls f count -> Exec.Full m ->
        m.raised? = some (.fault .stackOverflow) ∧
          exists m1, m.advance.Asks count m1 ∧ m.tick = m1.unwind (.text "Stack overflow.") := by
  have hstacked := hm.held.stacked
  have hchecked (f : Function) (hf : f ∈ m.heap.functions) : f.Checked := by
    rcases hm.sound.compiled f hf with ⟨base, name, source, p, hp, hmem⟩
    exact (compile_sound hp f hmem).1
  refine ⟨?_, hstacked.pairwise, ?_, ?_, (Heap.finite_staticHeights hchecked).bddAbove,
    fun n hn => hm.size_le hn, ?_⟩
  · have hlength := hstacked.length_le
    rwa [List.length_map] at hlength
  · intro inner f hf
    rw [hf, List.map_append] at hstacked
    exact hstacked.last
  · intro inner f outer hf houter
    rw [hf, List.map_append] at hstacked
    refine hstacked.lt_slots ?_
    rwa [ne_eq, List.map_eq_nil_iff]
  · intro f rest hf
    exact ⟨hm.sound.opens_iff hf, fun count hcalls hfull => hcalls.refused hf hfull⟩

/-! ## A call too many -/

def recursing : String :=
  "function f(x) \x7b f(x) \x7d f(1)"

def shallow : Machine :=
  (Interpreter.new { frames := 3, slots := 20 } Files.empty).machine

def deepest : Machine :=
  (((Interpreter.load shallow none recursing false).toOption.getD default).run 10).2

theorem deepest_reachable : deepest.Reachable := by
  have hloads : (Interpreter.load shallow none recursing false).isOk = true := by
    decide +kernel
  rcases exists_of_isOk hloads with ⟨m, hm⟩
  have hdeepest : deepest = (m.run 10).2 := by
    rw [deepest, hm]
    rfl
  have hshallow : shallow.Reachable := .new _ Files.empty
  rw [hdeepest]
  exact (Reachable.load hshallow rfl hm).run 10

/-- What is seen in front of the call. -/
theorem deepest_begins :
    deepest.frames = [⟨0, 2, 3⟩, ⟨0, 3, 1⟩, ⟨1, 5, 0⟩] ∧
      deepest.fetch? ⟨0, 2, 3⟩ = some (.call 1) ∧ deepest.stack.size = 7 ∧
      deepest.stack[deepest.stack.size - 1 - 1]? = some (.function 0) ∧
      (deepest.heap.function 0).arity = 1 ∧
      deepest.limits.frames <= deepest.frames.length := by
  decide +kernel

/-- The call throws, and the three calls and the values below the fourth one stay. -/
theorem deepest_keeps_to_limits :
    deepest.Reachable ∧ deepest.Calls ⟨0, 2, 3⟩ 1 ∧ Exec.Full deepest ∧
      deepest.raised? = some (.fault .stackOverflow) ∧
      exists m1 : Machine, m1.frames = [⟨0, 3, 3⟩, ⟨0, 3, 1⟩, ⟨1, 5, 0⟩] ∧
        (forall j, j < 5 -> m1.stack[j]? = deepest.stack[j]?) ∧
        deepest.tick = m1.unwind (.text "Stack overflow.") := by
  rcases deepest_begins with ⟨hframes, hi, hsize, hid, harity, hlimit⟩
  have hcalls : deepest.Calls ⟨0, 2, 3⟩ 1 := .call hi (by lia) hid harity
  have hfull : Exec.Full deepest := Or.inl hlimit
  rcases calls_keep_to_limits deepest_reachable with ⟨-, -, -, -, -, -, hturns⟩
  rcases (hturns _ _ hframes).2 1 hcalls hfull with ⟨hraised, m1, hasks, htick⟩
  refine ⟨deepest_reachable, hcalls, hfull, hraised, m1, ?_, ?_, htick⟩
  · rw [hasks.frames, advance_apply hframes]
  · intro j hj
    have hkept := hasks.stack j
    rw [advance_stack] at hkept
    exact hkept (by lia)

end Machine
end StackScript
