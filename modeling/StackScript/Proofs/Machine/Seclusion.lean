import StackScript.Proofs.Machine.Reserve

/-!
# Hidden arrays in runs

In a reachable machine all arrays that are named were made.  A turn of a machine that hides an array
leaves it hidden as long as no instruction looks at the place that names it.
-/

namespace StackScript

/-! ## Turns -/

namespace Machine

section Turns

variable {m : Machine} {r : Reserve} {f : Frame} {rest : List Frame} {i : Instr} {thrown : Value}

theorem Reserves.unwind (h : m.Reserves r) (hthrown : thrown.Among (m.heap.Known r.id)) :
    (m.unwind thrown).2.Reserves r := by
  unfold Machine.unwind
  split
  · rename_i g range outer _
    refine { h with stack := ?_ }
    intro j v hj hv
    change ((m.stack.take (g.base + range.depth)).push thrown)[j]? = some v at hv
    rw [Array.getElem?_push] at hv
    split at hv
    · cases hv
      exact hthrown
    · rw [Array.take_eq_extract, Array.getElem?_extract, Nat.zero_add] at hv
      split at hv
      · exact h.stack j v hj hv
      · cases hv
  · refine { h with stack := ?_ }
    intro j v _ hv
    simp [Machine.reset] at hv

/-- A turn that does not look at the place leaves the array where it is. -/
theorem Reserves.tick (h : m.Reserves r) (hf : m.frames = f :: rest) (hi : m.fetch? f = some i)
    (hroom : r.above + i.reach <= m.stack.size)
    (hslot : forall s, i = .getLocal s -> f.base + s + 1 ≠ r.above) : m.tick.2.Reserves r := by
  have hcovers :
      (r.account m.natives m.files ({ f with ip := f.ip + 1 } :: rest)).Covers i i.reach :=
    Reserve.covers hslot
  have hstep := hcovers.step (h := m.heap) (Nat.le_refl _)
  have hcourse : r.During m.natives m.files ({ f with ip := f.ip + 1 } :: rest)
      ⟨m.heap, i.reach, false⟩ m.advance := by
    rw [advance_apply hf]
    exact ⟨{ h with }, rfl, rfl, rfl, rfl, hroom⟩
  cases hr : Exec.step i m.advance with
  | ok u m' =>
      rw [tick_of_ok hf hi hr]
      exact hstep.of_ok ⟨rfl, hcourse⟩ hr
  | error e m' =>
      have hfails := hstep.of_error ⟨rfl, hcourse⟩ hr
      rw [tick_of_error hf hi hr]
      exact hfails.1.unwind hfails.2

end Turns

end Machine

/-! ## Reachable machines -/

def Reserve.nothing : Reserve :=
  ⟨0, none, #[]⟩

namespace Machine

section Reachable

variable {m m' : Machine} {r : Reserve}

theorem natives_tick (m : Machine) : m.tick.2.natives = m.natives := by
  rcases m.exists_tick_kept with ⟨i, -, hkept⟩
  exact hkept.natives

theorem Reserves.push (h : m.Reserves r) {v : Value} (hv : v.Among (m.heap.Known r.id))
    {frames : List Frame} {output : String} :
    Machine.Reserves { m with stack := m.stack.push v, frames := frames, output := output } r := by
  refine { h with stack := ?_ }
  intro j w hj hw
  rw [Array.getElem?_push] at hw
  split at hw
  · cases hw
    exact hv
  · exact h.stack j w hj hw

theorem reserves_new (limits : Limits) (files : Files) :
    (Interpreter.new limits files).machine.Reserves .nothing := by
  have hempty : Heap.empty.Hides none :=
    ⟨by simp, by simp [Heap.empty], by simp [Heap.empty]⟩
  have htemplates : forall v, v ∈ (Import.defaultTemplates.map Value.text).toArray ->
      v.Among (Heap.empty.Known none) := by
    intro v hv
    rcases List.mem_map.mp (List.mem_toArray.mp hv) with ⟨text, -, rfl⟩
    simp [Value.Among]
  have hpaths := (hempty.newArray htemplates).2.hides
  have himports := @Heap.Hides.newArray _ _ hpaths #[] (by simp)
  constructor
  · exact himports.2.hides
  · simp [Reserve.nothing]
  · refine Table.Among.insert (Table.among_empty.insert _ ?_) _ himports.1
    intro i hi
    cases hi
    exact ⟨by simp [Interpreter.new, Heap.newArray, Heap.empty], by simp [Reserve.nothing]⟩
  · intro j v _ hv
    simp [Interpreter.new] at hv
  · exact (sound_new limits files).compiled
  · exact (sound_new limits files).lawful
  · intro native hnative
    simp [Interpreter.new] at hnative

theorem reserves_load {script : Option String} {source : String} {listing : Bool}
    (h : m.Reserves r) (hload : Interpreter.load m script source listing = .ok m') :
    m'.Reserves r := by
  rcases Interpreter.load_ok hload with ⟨id, h', output, hc, rfl⟩
  have hsecludes := Heap.secludes_of_compile h.heap hc
  have hkept := h.withHeap hsecludes.1 ⟨_, Heap.grown_of_compile hc⟩
  exact hkept.push (v := .function id) (by simp [Value.Among])

/-- In a reachable machine only arrays that were made are named. -/
theorem Reachable.reserves (hm : m.Reachable) (hhost : m.Contained) : m.Reserves .nothing := by
  induction hm with
  | new limits files => exact reserves_new limits files
  | @addNative i native name hi hnative ih =>
      have hold : i.machine.Contained :=
        fun other hother => hhost other (Array.mem_push_of_mem native hother)
      have h := ih hold
      refine { h with globals := ?_, lawful := ?_, contained := hhost }
      · exact h.globals.insert name (by simp [Value.Among])
      · exact (hi.addNative name hnative).sound.lawful
  | files files _ ih => exact { ih hhost with }
  | load _ _ hload ih =>
      apply reserves_load _ hload
      rcases Interpreter.load_ok hload with ⟨id, h, output, -, rfl⟩
      exact ih hhost
  | @tick m hm ih =>
      have hsound := hm.sound
      have hold : m.Contained := by
        unfold Machine.Contained
        rw [← natives_tick]
        exact hhost
      cases hf : m.frames with
      | nil =>
          rw [tick_idle hf]
          exact ih hold
      | cons f rest =>
          rcases hsound.safe.stepping hf with ⟨height, i, hi, hs, hat⟩
          have hsize := hat.size
          have hoperands : i.reach < height f.ip := hs.fits.operands
          rw [advance_stack] at hsize
          apply (ih hold).tick hf hi
          · show 0 + i.reach <= m.stack.size
            lia
          · exact fun s _ => Nat.succ_ne_zero _

end Reachable
end Machine
end StackScript
