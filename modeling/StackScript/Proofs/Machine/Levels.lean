import StackScript.Proofs.Machine.Returning
import StackScript.Proofs.Machine.Tidy
import StackScript.Proofs.Machine.Pieces

/-!
# How high a call stands

A function that keeps to heights is followed through its own code: in front of each instruction its
call has as many values on the stack as the heights say, and it goes on to one of the successors of
the instruction.  What lies below the operands stays, but for the slots that the instruction writes;
while calls above it are in progress, everything below them stays.
-/

namespace StackScript

/-- A turn leaves the functions on the heap as they are. -/
theorem Machine.Sound.extends {m m' : Machine} (hm : m.Sound) (htick : m.tick = (.running, m')) :
    m.heap.Extends m'.heap := by
  rcases m.exists_tick_kept with ⟨i, -, hkept⟩
  rw [htick] at hkept
  exact hkept.extends_ hm.lawful.steady

theorem Machine.Sound.next {m m' : Machine} (hm : m.Sound) (htick : m.tick = (.running, m')) :
    m'.Sound := by
  have hsound := Machine.sound_tick hm
  rw [htick] at hsound
  exact hsound

/-! ## One turn of a call -/

namespace Seat

/-- The call over `outer` is the innermost one, in front of an instruction. -/
structure Top (S : Seat) (height : Nat -> Nat) (outer : List Frame) (ip : Nat) (m : Machine) :
    Prop where
  frames : m.frames = S.frame ip :: outer
  size : m.stack.size = S.base + height ip

/-- The call over `outer` waits for another one, in front of the instruction behind the one that
opened it. -/
def Below (S : Seat) (height : Nat -> Nat) (outer : List Frame) (ip : Nat) (m : Machine) : Prop :=
  exists base, base + 1 = S.base + height ip ∧ Machine.Over (S.frame ip :: outer) base m.frames

/-- The call over `outer` stands at an index, with or without calls above it. -/
def Active (S : Seat) (height : Nat -> Nat) (outer : List Frame) (ip : Nat) (m : Machine) : Prop :=
  S.Top height outer ip m ∨ S.Below height outer ip m

/-- What a turn does that leaves the call over `outer` in progress, and where that call stands
then. -/
inductive Passes (S : Seat) (height : Nat -> Nat) (outer : List Frame) (m m' : Machine) :
    Nat -> Nat -> Prop where
  /-- A call above goes on. -/
  | above {ip : Nat} : S.Below height outer ip m -> S.Below height outer ip m' ->
      (forall j, j + 1 < S.base + height ip -> m'.stack[j]? = m.stack[j]?) ->
      Passes S height outer m m' ip ip
  /-- The call that it waited for returns. -/
  | back {ip : Nat} : S.Below height outer ip m -> S.Top height outer ip m' ->
      (forall j, j + 1 < S.base + height ip -> m'.stack[j]? = m.stack[j]?) ->
      Passes S height outer m m' ip ip
  /-- It carries out an instruction. -/
  | goes {ip t : Nat} {i : Instr} : S.function.code.instrs[ip]? = some i ->
      S.Top height outer ip m -> m.raised? = none -> S.Top height outer t m' ->
      t ∈ i.successors ip ->
      (forall j, j + i.taken < m.stack.size -> (forall s, s ∈ i.writes -> j ≠ S.base + s) ->
        m'.stack[j]? = m.stack[j]?) ->
      Passes S height outer m m' ip t
  /-- It opens a call. -/
  | opens {ip : Nat} {i : Instr} : S.function.code.instrs[ip]? = some i -> i.opens = true ->
      S.Top height outer ip m -> S.Below height outer (ip + 1) m' ->
      (forall j, j + i.taken < m.stack.size -> m'.stack[j]? = m.stack[j]?) ->
      Passes S height outer m m' ip (ip + 1)
  /-- It catches what it raised itself, or what was raised above it. -/
  | catches {ip from_ : Nat} {r : TryRange} : m.raised? ≠ none -> r ∈ S.function.ranges ->
      r.covers from_ = true -> (S.Top height outer ip m ∧ from_ = ip ∨
        S.Below height outer ip m ∧ ip = from_ + 1) ->
      S.Top height outer r.stop m' ->
      (forall j, j < S.base + r.depth -> m'.stack[j]? = m.stack[j]?) ->
      Passes S height outer m m' ip r.stop

section Turns

variable {S : Seat} {height : Nat -> Nat} {outer : List Frame} {m m' : Machine} {ip : Nat}

theorem Top.stepping (h : S.Top height outer ip m) (hm : m.Sound) (hon : S.On m.heap)
    (hk : S.function.Keeps height) :
    exists i, S.function.code.instrs[ip]? = some i ∧ m.fetch? (S.frame ip) = some i ∧
      Stepping (contextOf m.heap (S.frame ip) outer height i) (S.frame ip) outer height i ∧
      m.advance.At (contextOf m.heap (S.frame ip) outer height i) m.heap (S.base + height ip) := by
  rcases hm.safe.stepping h.frames with ⟨height', i, hi, hs, hat⟩
  have hfetch : (m.heap.function S.id).code.instrs[ip]? = some i := hi
  rw [hon.function] at hfetch
  have hkeeps : (m.heap.function S.id).Keeps height := by
    rw [hon.function]
    exact hk
  refine ⟨i, hfetch, hi, ?_, ?_⟩
  · refine ⟨hkeeps, hs.instr, rfl, hs.good, hs.waiting, fun hq => ?_⟩
    simp only [contextOf, hq, Bool.false_eq_true, if_false]
  · refine ⟨hat.clean, hat.heap, hat.extends_, hat.frames, ?_⟩
    rw [Machine.advance_stack]
    exact h.size

/-- A return gives the call up. -/
theorem Top.frames_of_ret (h : S.Top height outer ip m)
    (hok : Exec.step .ret m.advance = .ok () m') : m'.frames = outer := by
  have hf : m.advance.frames = S.frame (ip + 1) :: outer := Machine.advance_apply h.frames ▸ rfl
  have hmoved := (Exec.of_step_ok hf hok).2.1
  generalize m'.frames = frames at hmoved
  cases hmoved with
  | stays ht => cases ht.successor ip rfl
  | opens hopens => cases hopens
  | returns => rfl

/-- An instruction of the innermost call that is completed and does not give the call up. -/
theorem Top.passes_of_ok {i : Instr} (h : S.Top height outer ip m)
    (hk : S.function.Keeps height) (hi : S.function.code.instrs[ip]? = some i)
    (hnone : m.raised? = none) (hret : i ≠ .ret) (hok : Exec.step i m.advance = .ok () m') :
    exists t, S.Passes height outer m m' ip t := by
  have hfits := hk.instrs ip i hi
  have hf : m.advance.frames = S.frame (ip + 1) :: outer := Machine.advance_apply h.frames ▸ rfl
  have hsize := h.size
  have hoperands : i.reach < height ip := hfits.operands
  have htaken := i.taken_le_reach
  cases (Exec.of_step_ok hf hok).2.2 hfits.loopVars with
  | stays hstays =>
      rcases hstays.frames with ⟨t, ht, hframes⟩
      have hcount := hstays.size
      have hstack := hstays.stack
      rw [Machine.advance_stack] at hcount hstack
      have hmem : t ∈ i.successors ip := ht.successor ip rfl
      have hheight : height t = height ip - i.taken + i.given := hfits.flow t hmem
      exact ⟨t, .goes hi h hnone ⟨hframes, by lia⟩ hmem hstack⟩
  | opens hopens hopened =>
      have hsucc : ip + 1 ∈ i.successors ip := Instr.successors_of_opens hopens
      have hheight : height (ip + 1) = height ip - i.taken + i.given := hfits.flow _ hsucc
      rw [Instr.given_of_opens hopens] at hheight
      have hstack := hopened.stack
      rcases hopened.frames with ⟨id, hframes⟩
      rw [Machine.advance_stack] at hstack hframes
      rw [hf] at hframes
      refine ⟨ip + 1, .opens hi hopens h ⟨_, ?_, [], _, hframes, rfl⟩ hstack⟩
      show m.stack.size - i.taken + 1 = _
      lia
  | returns h => exact absurd h hret

/-- The handler that a call finds when an instruction has failed is one of its function. -/
theorem On.mem_of_findRange? {m1 : Machine} {i : Instr} {q : Nat} {r : TryRange}
    (hon : S.On m.heap) (hm : m.Sound) (hspares : m.advance.Spares i m1)
    (hr : (m1.heap.function S.id).findRange? q = some r) :
    r ∈ S.function.ranges ∧ r.covers q = true := by
  have hext := hspares.extends_ hm.lawful.steady.advance
  rw [Machine.advance_heap] at hext
  rw [(hon.extends hext).function] at hr
  exact Function.mem_of_findRange? hr

/-- A call that catches what an instruction at index `q` raised, in itself or above it: it is the
innermost one then, and has what lay below the height of its handler. -/
theorem top_of_catchIn {m1 : Machine} {q : Nat} {v : Value} {r : TryRange} {i i' : Instr}
    (hk : S.function.Keeps height) (hspares : m.advance.Spares i' m1)
    (hmem : r ∈ S.function.ranges) (hcovers : r.covers q = true)
    (hi : S.function.code.instrs[q]? = some i) (hquiet : i.quiet = false)
    (hdeep : S.base + height q - i.taken + i'.taken <= m.stack.size)
    (htaken : i.taken <= height q) :
    S.Top height outer r.stop (m1.catchIn v (S.frame ip) r outer) ∧
      forall j, j < S.base + r.depth ->
        (m1.catchIn v (S.frame ip) r outer).stack[j]? = m.stack[j]? := by
  have hrange := hk.ranges r hmem
  have hkept := hrange.kept q i hcovers hi hquiet
  have hleft := hspares.size
  have hstack := hspares.stack
  rw [Machine.advance_stack] at hleft hstack
  refine ⟨⟨rfl, ?_⟩, fun j hj => ?_⟩
  · have hbelow : (S.frame ip).base + r.depth <= m1.stack.size := by
      show S.base + r.depth <= _
      lia
    rw [Machine.size_catchIn hbelow, hrange.handler]
    rfl
  · rw [Machine.getElem?_catchIn hj (by lia), hstack j (by lia)]

/-- An instruction of the innermost call that fails where a handler is found. -/
theorem Top.passes_of_error {i : Instr} {e : Raised} {m1 : Machine}
    (h : S.Top height outer ip m) (hm : m.Sound) (hon : S.On m.heap)
    (hk : S.function.Keeps height) (hi : S.function.code.instrs[ip]? = some i)
    (hraised : m.raised? = some e) (hquiet : i.quiet = false) (hspares : m.advance.Spares i m1)
    (htick : m1.unwind e.toValue = (.running, m')) (hlength : outer.length < m'.frames.length) :
    exists t, S.Passes height outer m m' ip t := by
  have hoperands : i.reach < height ip := (hk.instrs ip i hi).operands
  have htaken := i.taken_le_reach
  have hsize := h.size
  have hf : m.advance.frames = S.frame (ip + 1) :: outer := Machine.advance_apply h.frames ▸ rfl
  rw [Machine.unwind, hspares.frames, hf] at htick
  split at htick
  · rename_i g r out hh
    cases htick
    rcases Machine.of_handler?_some hh with ⟨above, hsplit, -, hfound⟩
    have hempty : above = [] := by
      have hframes := congrArg List.length hsplit
      simp only [Machine.catchIn, List.length_cons, List.length_append] at hframes hlength
      exact List.eq_nil_of_length_eq_zero (by lia)
    rw [hempty] at hsplit
    cases hsplit
    have hfound' : (m1.heap.function S.id).findRange? ip = some r := hfound
    rcases hon.mem_of_findRange? hm hspares hfound' with ⟨hmem, hcovers⟩
    have hne : m.raised? ≠ none := by
      rw [hraised]
      exact Option.some_ne_none e
    rcases top_of_catchIn hk hspares hmem hcovers hi hquiet (by lia) (by lia) with
      ⟨htop, hstack⟩
    exact ⟨r.stop, .catches hne hmem hcovers (Or.inl ⟨h, rfl⟩) htop hstack⟩
  · cases htick

/-- A turn of the innermost call. -/
theorem Top.passes (h : S.Top height outer ip m) (hm : m.Sound) (hon : S.On m.heap)
    (hk : S.function.Keeps height) (htick : m.tick = (.running, m'))
    (hlength : outer.length < m'.frames.length) :
    exists t, S.Passes height outer m m' ip t := by
  rcases h.stepping hm hon hk with ⟨i, hi, hfetch, hs, hat⟩
  have hstep := hs.step hat
  cases hr : Exec.step i m.advance with
  | ok u m1 =>
      rw [Machine.tick_of_ok h.frames hfetch hr] at htick
      cases htick
      by_cases hret : i = .ret
      · subst hret
        rw [h.frames_of_ret hr] at hlength
        exact absurd hlength (Nat.lt_irrefl _)
      · exact h.passes_of_ok hk hi (Machine.raised?_of_ok h.frames hfetch hr) hret hr
  | error e m1 =>
      have hf : m.advance.frames = S.frame (ip + 1) :: outer := Machine.advance_apply h.frames ▸ rfl
      have hspares := (Exec.of_step_error hf hr).2.2 (hs.seats hat.size)
      rw [hr] at hstep
      rcases hstep with ⟨-, n, -, ⟨floor, hfloor, -⟩, -⟩
      have hquiet : i.quiet = false := by
        by_contra hq
        simp [contextOf, hq] at hfloor
      rw [Machine.tick_of_error h.frames hfetch hr] at htick
      exact h.passes_of_error hm hon hk hi (Machine.raised?_of_error h.frames hfetch hr) hquiet
        hspares htick hlength

/-- A call that waits stands behind the instruction that opened the call above it. -/
theorem On.opened {g : Frame} {rest : List Frame} (hon : S.On m.heap)
    (hwaiting : Waiting m.heap g.base rest) (hin : S.frame ip ∈ rest) :
    0 < ip ∧ exists i, S.function.code.instrs[ip - 1]? = some i ∧ i.opens = true := by
  rcases hwaiting.opened hin with ⟨hpos, hopened⟩
  refine ⟨hpos, ?_⟩
  rw [show m.heap.function (S.frame ip).function = S.function from hon.function] at hopened
  rcases hopened with hi | ⟨n, hi⟩
  · exact ⟨_, hi, rfl⟩
  · exact ⟨_, hi, rfl⟩

/-- The call catches what was raised above it. -/
theorem Below.passes_of_error {f : Frame} {rest : List Frame} {i' : Instr} {e : Raised}
    {m1 : Machine} {r : TryRange} (h : S.Below height outer ip m) (hm : m.Sound)
    (hon : S.On m.heap) (hk : S.function.Keeps height) (hwaiting : Waiting m.heap f.base rest)
    (hin : S.frame ip ∈ rest) (hbase : S.base + height ip <= f.base + 1)
    (hsize : f.base + i'.taken <= m.stack.size) (hraised : m.raised? = some e)
    (hspares : m.advance.Spares i' m1)
    (hfound : (m1.heap.function S.id).findRange? (ip - 1) = some r) :
    exists t, S.Passes height outer m (m1.catchIn e.toValue (S.frame ip) r outer) ip t := by
  rcases hon.opened hwaiting hin with ⟨hpos, i, hi, hopens⟩
  rcases hon.mem_of_findRange? hm hspares hfound with ⟨hmem, hcovers⟩
  have hfits := hk.instrs _ i hi
  have hoperands : i.reach < height (ip - 1) := hfits.operands
  have htaken := i.taken_le_reach
  have hflow := hfits.flow _ (Instr.successors_of_opens hopens)
  rw [Instr.heightAfter, Instr.given_of_opens hopens, Nat.sub_add_cancel hpos] at hflow
  have hne : m.raised? ≠ none := by
    rw [hraised]
    exact Option.some_ne_none e
  rcases top_of_catchIn hk hspares hmem hcovers hi (Instr.quiet_of_opens hopens) (by lia)
    (by lia) with ⟨htop, hstack⟩
  exact ⟨r.stop, .catches hne hmem hcovers (Or.inr ⟨h, (Nat.sub_add_cancel hpos).symm⟩) htop
    hstack⟩

/-- A turn above the call. -/
theorem Below.passes (h : S.Below height outer ip m) (hm : m.Sound) (hon : S.On m.heap)
    (hk : S.function.Keeps height) (htick : m.tick = (.running, m'))
    (hlength : outer.length < m'.frames.length) :
    exists t, S.Passes height outer m m' ip t := by
  have hbelow := h
  rcases h with ⟨base, hbase, hover⟩
  have hshields : m.Shields (S.frame ip :: outer) base m.stack := ⟨hover, fun _ _ => rfl⟩
  by_cases hmore : (S.frame ip :: outer).length < m'.frames.length
  · have hshields' := hshields.tick hm htick hmore
    exact ⟨ip, .above hbelow ⟨base, hbase, hshields'.frames⟩ fun j hj =>
      hshields'.stack j (by lia)⟩
  -- The call has become the innermost one: the call above it has returned or was cut off.
  have hnotmore : m'.frames.length = outer.length + 1 := by
    rw [List.length_cons] at hmore
    lia
  have hstands := hm.safe.stands
  cases hf : m.frames with
  | nil =>
      rw [hf] at hover
      exact absurd hover Machine.not_over_nil
  | cons f rest =>
      rw [Machine.Stands, hf] at hstands
      rw [hf] at hover
      have hle := hover.base_le hstands
      have hsuffix := hover.below_suffix
      have hdeep := hsuffix.length_le
      rw [List.length_cons] at hdeep
      rcases hm.safe.turn hf with ⟨i, -, hsize, hturn⟩
      rw [htick] at hturn
      cases hturn with
      | stays hstays =>
          rcases hstays.goes with ⟨ip', -, hframes⟩
          rw [hframes, List.length_cons] at hnotmore
          lia
      | opens _ hopens =>
          rcases hopens.frames with ⟨id, hframes⟩
          rw [hframes, Machine.advance_apply hf] at hnotmore
          simp only [List.length_cons] at hnotmore
          lia
      | ends => simp at hlength
      | returns hi hrest htop =>
          rename_i v
          rcases hover.innermost hnotmore with ⟨hlast, hlastBase⟩
          refine ⟨ip, .back hbelow ⟨hlast, ?_⟩ fun j hj => ?_⟩
          · show ((m.stack.take f.base).push v).size = _
            simp only [Array.size_push, Array.take_eq_extract, Array.size_extract]
            lia
          · show ((m.stack.take f.base).push v)[j]? = _
            rw [Machine.getElem?_take_push (by lia) (by lia)]
      | catches hraised hspares hh =>
          rename_i e m1 g r out
          rcases Machine.of_handler?_some hh with ⟨above, hsplit, -, hfound⟩
          rw [Machine.advance_apply hf] at hsplit
          have hgiven : S.frame ip :: outer = g :: out := by
            have hout : (g :: out).length = (S.frame ip :: outer).length := hnotmore
            have hlater : g :: out <:+ rest := by
              cases above with
              | nil =>
                  cases hsplit
                  rw [List.length_cons, List.length_cons] at hout
                  lia
              | cons a above =>
                  cases hsplit
                  exact ⟨above, rfl⟩
            exact (List.suffix_of_suffix_length_le hsuffix hlater hout.ge).eq_of_length hout.symm
          cases hgiven
          exact hbelow.passes_of_error hm hon hk hstands.2 (hsuffix.subset List.mem_cons_self)
            (by lia) (by lia) hraised hspares hfound

/-- A turn after which the call is still in progress. -/
theorem Active.passes (h : S.Active height outer ip m) (hm : m.Sound) (hon : S.On m.heap)
    (hk : S.function.Keeps height) (htick : m.tick = (.running, m'))
    (hlength : outer.length < m'.frames.length) :
    exists t, S.Passes height outer m m' ip t := by
  rcases h with htop | hbelow
  · exact htop.passes hm hon hk htick hlength
  · exact hbelow.passes hm hon hk htick hlength

theorem Passes.active {t : Nat} (h : S.Passes height outer m m' ip t) :
    S.Active height outer t m' := by
  cases h with
  | above _ hbelow => exact Or.inr hbelow
  | back _ htop => exact Or.inl htop
  | goes _ _ _ htop => exact Or.inl htop
  | opens _ _ _ hbelow => exact Or.inr hbelow
  | catches _ _ _ _ htop => exact Or.inl htop

end Turns

end Seat
end StackScript
