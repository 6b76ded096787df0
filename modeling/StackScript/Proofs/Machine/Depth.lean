import StackScript.Proofs.Machine.Levels

/-!
# One height for each instruction

A function may keep to several assignments of heights, which then differ only where control never
comes.  The calls of a reachable machine stand as high as any of them says.
-/

namespace StackScript

def Machine.seat (m : Machine) (f : Frame) : Seat :=
  ⟨f.function, f.base, m.heap.function f.function⟩

/-- Every call stands as high as all heights say that its function keeps to. -/
def Machine.Levelled (m : Machine) : Prop :=
  forall above f outer height, m.frames = above ++ f :: outer ->
    (m.heap.function f.function).Keeps height -> (m.seat f).Active height outer f.ip m

section Levelled

variable {m m' : Machine} {s : Status} {f : Frame} {above outer : List Frame} {height : Nat -> Nat}

theorem Seat.Active.frames {S : Seat} {ip : Nat} (h : S.Active height outer ip m) :
    exists above, m.frames = above ++ S.frame ip :: outer := by
  rcases h with htop | ⟨base, -, above, c, hframes, -⟩
  · exact ⟨[], htop.frames⟩
  · exact ⟨above ++ [c], by rw [hframes, List.append_assoc]; rfl⟩

theorem Seat.Active.ip_eq {S : Seat} {ip : Nat} (h : S.Active height outer ip m)
    (hf : m.frames = above ++ f :: outer) : f = S.frame ip := by
  rcases h.frames with ⟨above', hframes⟩
  rw [hf] at hframes
  have hlength := congrArg List.length hframes
  simp only [List.length_append, List.length_cons] at hlength
  exact (List.cons.inj (List.append_inj hframes (by lia)).2).1

namespace Machine

theorem Sound.on_seat (hm : m.Sound) (hf : f ∈ m.frames) : (m.seat f).On m.heap :=
  ⟨Heap.lt_of_checked (hm.safe.frames f hf).checked, rfl⟩

/-- A call after a turn was there before, or has just been opened. -/
theorem Sound.frames_of_tick (hm : m.Sound) (htick : m.tick = (s, m'))
    (hf : m'.frames = above ++ f :: outer) :
    s = .running ∧ ((exists above' ip, m.frames = above' ++ { f with ip := ip } :: outer) ∨
      m'.frames = f :: outer ∧ f.ip = 0) := by
  -- What a turn does to the innermost call and what it leaves out keeps the calls further out.
  have hmoved {above rest : List Frame} {c : Frame} {ip : Nat} (hm : m.frames = c :: rest)
      (hf : { c with ip := ip } :: rest = above ++ f :: outer) :
      exists above' ip, m.frames = above' ++ { f with ip := ip } :: outer := by
    cases above with
    | nil =>
        cases hf
        exact ⟨[], c.ip, hm⟩
    | cons a above =>
        cases hf
        exact ⟨c :: above, f.ip, hm⟩
  cases hframes : m.frames with
  | nil =>
      rw [tick_idle hframes] at htick
      cases htick
      rw [hframes] at hf
      simp at hf
  | cons c rest =>
      rcases hm.safe.turn hframes with ⟨i, -, -, hturn⟩
      rw [← hframes]
      rw [htick] at hturn
      cases hturn with
      | stays hstays =>
          rcases hstays.goes with ⟨ip, -, hstays⟩
          exact ⟨rfl, Or.inl (hmoved hframes (hstays.symm.trans hf))⟩
      | opens _ hopens =>
          rcases hopens.frames with ⟨id, hopens⟩
          rw [advance_apply hframes] at hopens
          rw [hopens] at hf
          refine ⟨rfl, ?_⟩
          cases above with
          | nil =>
              cases hf
              exact Or.inr ⟨hopens, rfl⟩
          | cons a above => exact Or.inl (hmoved hframes (List.cons.inj hf).2)
      | returns =>
          refine ⟨rfl, Or.inl ⟨c :: above, f.ip, ?_⟩⟩
          rw [hframes]
          exact congrArg (c :: ·) hf
      | ends => simp at hf
      | catches hraised hspares hh =>
          rename_i e m1 g r out
          rcases of_handler?_some hh with ⟨above', hsplit, -, -⟩
          rw [advance_apply hframes] at hsplit
          refine ⟨rfl, Or.inl ?_⟩
          have hcaught : { g with ip := r.stop } :: out = above ++ f :: outer := hf
          cases above' with
          | nil =>
              cases hsplit
              exact hmoved hframes hcaught
          | cons a above' =>
              cases hsplit
              cases above with
              | nil =>
                  cases hcaught
                  exact ⟨c :: above', g.ip, hframes⟩
              | cons b above =>
                  cases hcaught
                  exact ⟨c :: above' ++ g :: above, f.ip, by simp [hframes]⟩
      | fails => simp [Machine.reset] at hf

/-- A call that has just been opened is as high as its arguments are many. -/
theorem Sound.top_of_entry (hm : m.Sound) (hf : m.frames = f :: outer) (hip : f.ip = 0)
    (hk : (m.heap.function f.function).Keeps height) : (m.seat f).Top height outer f.ip m := by
  have hstands := hm.safe.stands
  rw [Machine.Stands, hf] at hstands
  rcases hstands.1 with ⟨height', hk', -, hsize⟩
  refine ⟨hf, ?_⟩
  rw [hip, hk'.entry] at hsize
  rw [hip, hk.entry]
  exact hsize.symm

theorem Levelled.of_eq (h : m.Levelled) (hframes : m'.frames = m.frames)
    (hstack : m'.stack = m.stack) (hheap : m'.heap = m.heap) : m'.Levelled := by
  intro above f outer height hf hk
  rw [hheap] at hk
  rw [hframes] at hf
  rw [Machine.seat, hheap]
  rcases h above f outer height hf hk with htop | ⟨base, hbase, hover⟩
  · left
    exact ⟨hframes.trans htop.frames, (congrArg Array.size hstack).trans htop.size⟩
  · right
    rw [← hframes] at hover
    exact ⟨base, hbase, hover⟩

/-- A call that is there after a turn has just been opened, or has passed from the instruction
that it was at to the one that it is at. -/
theorem Levelled.passes (h : m.Levelled) (hm : m.Sound) (htick : m.tick = (s, m'))
    (hf : m'.frames = above ++ f :: outer) :
    (m'.frames = f :: outer ∧ f.ip = 0) ∨
      exists above' ip, m.frames = above' ++ { f with ip := ip } :: outer ∧
        m'.seat f = m.seat f ∧ forall height, (m.heap.function f.function).Keeps height ->
          (m.seat f).Passes height outer m m' ip f.ip := by
  rcases hm.frames_of_tick htick hf with ⟨rfl, ⟨above', ip, hold⟩ | hnew⟩
  · have hmem : { f with ip := ip } ∈ m.frames := by simp [hold]
    have hon := hm.on_seat hmem
    have hlength : outer.length < m'.frames.length := by
      rw [hf, List.length_append, List.length_cons]
      lia
    have hsame : m'.heap.function f.function = m.heap.function f.function :=
      (hm.extends htick).function _ hon.known
    have hseat : m'.seat f = m.seat f := by
      rw [Machine.seat, hsame]
      rfl
    refine Or.inr ⟨above', ip, hold, hseat, fun height hk => ?_⟩
    rcases (h _ _ _ _ hold hk).passes hm hon hk htick hlength with ⟨t, hpasses⟩
    have hip : f.ip = t := congrArg Frame.ip (hpasses.active.ip_eq hf)
    rw [hip]
    exact hpasses
  · exact Or.inl hnew

theorem Levelled.tick (h : m.Levelled) (hm : m.Sound) : m.tick.2.Levelled := by
  intro above f outer height hf hk
  rcases htick : m.tick with ⟨s, m'⟩
  rw [htick] at hf hk
  show (m'.seat f).Active height outer f.ip m'
  rcases h.passes hm htick hf with ⟨hnew, hip⟩ | ⟨above', ip, -, hseat, hpasses⟩
  · have hsound := sound_tick hm
    rw [htick] at hsound
    exact Or.inl (hsound.top_of_entry hnew hip hk)
  · have hsame : m'.heap.function f.function = m.heap.function f.function :=
      congrArg Seat.function hseat
    rw [hsame] at hk
    rw [hseat]
    exact (hpasses height hk).active

/-- A script that is loaded into a machine at rest has the only call. -/
theorem frames_of_load {script : Option String} {source : String} {listing : Bool}
    (hrest : m.frames = []) (hload : Interpreter.load m script source listing = .ok m')
    (hf : m'.frames = above ++ f :: outer) : m'.frames = f :: outer ∧ f.ip = 0 := by
  rcases Interpreter.load_ok hload with ⟨id, h, output, -, hloaded⟩
  have hbegun : m'.frames = [⟨id, 0, m.stack.size⟩] := by
    rw [hloaded, hrest]
  have hlength := congrArg List.length (hf.symm.trans hbegun)
  simp only [List.length_append, List.length_cons, List.length_nil] at hlength
  have habove : above = [] := List.eq_nil_of_length_eq_zero (by lia)
  rw [habove, List.nil_append] at hf
  exact ⟨hf, congrArg Frame.ip (List.cons.inj (hf.symm.trans hbegun)).1⟩

theorem Reachable.levelled (hm : m.Reachable) : m.Levelled := by
  have hempty {m : Machine} (hf : m.frames = []) : m.Levelled := by
    intro above f outer height hframes
    rw [hf] at hframes
    simp at hframes
  induction hm with
  | new limits files => exact hempty rfl
  | addNative name _ _ ih => exact ih.of_eq rfl rfl rfl
  | files files _ ih => exact ih.of_eq rfl rfl rfl
  | @load m m' script source listing hm hf hload =>
      have hsound := sound_load hm.sound hf hload
      intro above f outer height hframes hk
      rcases frames_of_load hf hload hframes with ⟨hbegun, hip⟩
      exact Or.inl (hsound.top_of_entry hbegun hip hk)
  | tick hm ih => exact ih.tick hm.sound

end Machine
end Levelled
end StackScript
