import StackScript.Proofs.Machine.Reachable

/-!
# The scripts that a machine has loaded

Scripts come to a machine when it loads them, when an instruction imports them and when a function
of the host compiles them.  If the host brings in no code of its own, each function on the heap is
one of a script that came in one of these ways.  Whatever the host does, a call of a function that
passes the static stack check stands at one of its instructions.
-/

namespace StackScript

/-! ## Functions of scripts -/

/-- A function with this number is a function of the script, its body or one that it defines. -/
def Load.Made (l : Load) (functions : Array Function) (id : Nat) : Prop :=
  exists p j f, compile l.base l.script l.source = .ok p ∧ p.all[j]? = some f ∧
    id = l.base + j ∧ functions[id]? = some f

section Grown

variable {functions more : Array Function} {log : List Load} {l : Load} {id : Nat}

theorem Grown.getElem? (h : Grown functions log more) (hid : id < functions.size) :
    more[id]? = functions[id]? := by
  induction h with
  | refl => rfl
  | script hmore _ ih =>
      have hlt := (Array.getElem?_eq_some_iff.mp (ih.trans (Array.getElem?_eq_getElem hid))).1
      rw [Array.getElem?_append_left hlt, ih]

theorem Load.Made.grown (hl : l.Made functions id) (h : Grown functions log more) :
    l.Made more id := by
  rcases hl with ⟨p, j, f, hp, hj, hid, hf⟩
  have hlt := (Array.getElem?_eq_some_iff.mp hf).1
  exact ⟨p, j, f, hp, hj, hid, (h.getElem? hlt).trans hf⟩

/-- Each function that was added is one of a script that was compiled. -/
theorem Grown.made (h : Grown functions log more) (hlo : functions.size <= id)
    (hhi : id < more.size) : exists l, l ∈ log ∧ l.Made more id := by
  induction h with
  | refl => exact absurd hhi (Nat.not_lt.mpr hlo)
  | @script log more name source p hmore hp ih =>
      have hnext := Grown.refl.script hp
      by_cases hold : id < more.size
      · rcases ih hold with ⟨l, hl, hmade⟩
        exact ⟨l, List.mem_append_left _ hl, hmade.grown hnext⟩
      · rcases Nat.exists_eq_add_of_le (Nat.le_of_not_lt hold) with ⟨j, rfl⟩
        rw [Array.size_append] at hhi
        have hj : p.all[j]? = some p.all[j] := Array.getElem?_eq_getElem (by lia)
        refine ⟨_, List.mem_append_right _ (List.mem_singleton_self _), p, j, _, hp, hj, rfl, ?_⟩
        rw [Array.getElem?_append_right (Nat.le_add_right _ _), Nat.add_sub_cancel_left]
        exact hj

end Grown

theorem Load.Made.checked {l : Load} {h : Heap} {id : Nat} (hl : l.Made h.functions id) :
    (h.function id).Checked := by
  rcases hl with ⟨p, j, f, hp, hj, -, hf⟩
  rw [Heap.function, Array.getD_eq_getD_getElem?, hf]
  exact (compile_sound hp f (Array.mem_of_getElem? hj)).1

/-! ## Calls of checked functions -/

/-- If the call is one of a checked function, it stands at one of its instructions, also when
functions are added to the heap. -/
def Frame.Placed (f : Frame) (h : Heap) : Prop :=
  forall h' : Heap, h.Extends h' -> (h'.function f.function).Checked ->
    f.ip < (h'.function f.function).code.size

section Placed

variable {f : Frame} {h h' : Heap} {i : Instr} {r : TryRange} {ip t : Nat}

theorem Frame.Placed.extends (hf : f.Placed h) (hext : h.Extends h') : f.Placed h' :=
  fun h'' hext' => hf h'' (hext.trans hext')

theorem Frame.placed_start (id base : Nat) : (⟨id, 0, base⟩ : Frame).Placed h := by
  rintro h' - ⟨height, hkeeps⟩
  exact hkeeps.nonempty

/-- A call goes on at an instruction. -/
theorem Frame.placed_successor (hi : (h.function f.function).code.instrs[ip]? = some i)
    (ht : t ∈ i.successors ip) : ({ f with ip := t } : Frame).Placed h := by
  rintro h' hext ⟨height, hkeeps⟩
  have hlt : f.function < h.functions.size := by
    refine Heap.lt_of_function_ne fun hnone => ?_
    rw [hnone] at hi
    simp at hi
  have hsame : h'.function f.function = h.function f.function := hext.function _ hlt
  have hfits := hkeeps.instrs ip i (by rw [hsame]; exact hi)
  exact hfits.inside t ht

/-- A handler is an instruction. -/
theorem Frame.placed_handler (hr : r ∈ (h.function f.function).ranges) :
    ({ f with ip := r.stop } : Frame).Placed h := by
  rintro h' hext ⟨height, hkeeps⟩
  have hlt : f.function < h.functions.size := by
    refine Heap.lt_of_function_ne fun hnone => ?_
    rw [hnone] at hr
    simp at hr
  have hsame : h'.function f.function = h.function f.function := hext.function _ hlt
  exact (hkeeps.ranges r (by rw [hsame]; exact hr)).inside

end Placed

namespace Machine

def Placed (m : Machine) : Prop :=
  forall f, f ∈ m.frames -> f.Placed m.heap

section Turns

variable {m : Machine} {f : Frame} {rest : List Frame}

theorem placed_unwind {thrown : Value} (hm : forall k, k ∈ m.frames.tail -> k.Placed m.heap) :
    (m.unwind thrown).2.Placed := by
  unfold Machine.unwind
  split
  · rename_i g r outer hhandler
    rcases of_handler?_some hhandler with ⟨above, hframes, -, hrange⟩
    have hmem (k : Frame) (hk : k ∈ outer) : k ∈ m.frames.tail := by
      rw [hframes]
      cases above with
      | nil => exact hk
      | cons a above => exact List.mem_append_right above (List.mem_cons_of_mem _ hk)
    intro k hk
    rcases List.mem_cons.mp hk with rfl | hk
    · exact Frame.placed_handler (Function.mem_of_findRange? hrange).1
    · exact hm k (hmem k hk)
  · exact nofun

/-- No turn leads a call of a checked function out of its code. -/
theorem Placed.tick (hm : m.Placed) (hs : m.Steady) : m.tick.2.Placed := by
  cases hf : m.frames with
  | nil =>
      rw [tick_idle hf]
      exact hm
  | cons f rest =>
      have hrest {h : Heap} (hext : m.heap.Extends h) (k : Frame) (hk : k ∈ rest) : k.Placed h :=
        (hm k (hf ▸ List.mem_cons_of_mem f hk)).extends hext
      have hticks := ticks hf
      generalize m.tick = result at hticks
      cases hticks with
      | @completed i m' hi hkept hmoved =>
          have hext := hkept.extends_ hs
          have hgoes {t : Nat} (ht : t ∈ i.successors f.ip) :
              ({ f with ip := t } : Frame).Placed m'.heap :=
            (Frame.placed_successor hi ht).extends hext
          show forall k, k ∈ m'.frames -> _
          generalize m'.frames = frames at hmoved
          intro k hk
          cases hmoved with
          | stays ht =>
              rcases List.mem_cons.mp hk with rfl | hk
              · exact hgoes (ht.successor f.ip rfl)
              · exact hrest hext k hk
          | opens hopens =>
              rcases List.mem_cons.mp hk with rfl | hk
              · exact Frame.placed_start _ _
              · rcases List.mem_cons.mp hk with rfl | hk
                · exact hgoes (Instr.successors_of_opens hopens)
                · exact hrest hext k hk
          | returns => exact hrest hext k hk
      | raised thrown hi hkept hframes =>
          refine placed_unwind fun k hk => ?_
          rw [hframes] at hk
          exact hrest (hkept.extends_ hs) k hk

/-- A run that fails has come to a turn that fails. -/
theorem exists_failed_tick {P : Machine -> Prop} {m m' : Machine} {e : RuntimeError} {n : Nat}
    (hP : forall m, P m -> P m.tick.2) (hm : P m) (h : m.run n = (.failed e, m')) :
    exists m0, P m0 ∧ m0.tick = (.failed e, m') := by
  induction n generalizing m with
  | zero => cases h
  | succ n ih =>
      have hnext := hP m hm
      rw [Machine.run] at h
      split at h
      case h_1 m1 hm1 =>
        rw [hm1] at hnext
        exact ih hnext h
      case h_2 => exact ⟨m, hm, h⟩

/-- What a failed run reports was found in calls that stand at instructions, or right behind the
one that has failed. -/
theorem Placed.report {m' : Machine} {e : RuntimeError} (hm : m.Placed) (hs : m.Steady)
    (h : m.tick = (.failed e, m')) :
    exists (m1 : Machine) (thrown : Value), m' = m1.reset ∧ e = m1.report thrown ∧
      m1.frames ≠ [] ∧ m.heap.Extends m1.heap ∧
      forall f, f ∈ m1.frames -> (exists g, g ∈ m.frames ∧ g.function = f.function) ∧
        ((m1.heap.function f.function).Checked ->
          f.ip - 1 < (m1.heap.function f.function).code.size) := by
  cases hf : m.frames with
  | nil =>
      rw [tick_idle hf] at h
      cases h
  | cons f rest =>
      have hticks := ticks hf
      rw [h] at hticks
      generalize hresult : (Status.failed e, m') = result at hticks
      cases hticks with
      | completed => cases hresult
      | @raised i m1 thrown hi hkept hframes =>
          have hext := hkept.extends_ hs
          unfold Machine.unwind at hresult
          split at hresult
          · cases hresult
          · cases hresult
            refine ⟨m1, thrown, rfl, rfl, by simp [hframes], hext, fun k hk => ?_⟩
            rw [hframes] at hk
            rcases List.mem_cons.mp hk with rfl | hk
            · exact ⟨⟨f, List.mem_cons_self, rfl⟩, hm f (hf ▸ List.mem_cons_self) m1.heap hext⟩
            · have hmem : k ∈ f :: rest := List.mem_cons_of_mem f hk
              refine ⟨⟨k, hmem, rfl⟩, fun hchecked => ?_⟩
              have hplaced := hm k (hf ▸ hmem) m1.heap hext hchecked
              exact Nat.lt_of_le_of_lt (Nat.sub_le _ _) hplaced

end Turns

/-! ## Machines and their hosts -/

/-- The machines that come up while an interpreter runs scripts, whatever values its host makes and
keeps.  No host alters a function that is there. -/
inductive Hosted : Machine -> Prop where
  | new (limits : Limits) (files : Files) : Hosted (Interpreter.new limits files).machine
  | addNative {i : Interpreter} {native : Native} (name : String) :
      Hosted i.machine -> native.Steady -> Hosted (i.addNative name native).machine
  | files {m : Machine} (files : Files) : Hosted m -> Hosted { m with files := files }
  | load {m m' : Machine} {script : Option String} {source : String} {listing : Bool} :
      Hosted m -> Interpreter.load m script source listing = .ok m' -> Hosted m'
  | tick {m : Machine} : Hosted m -> Hosted m.tick.2

/-- The instruction that comes next compiles the script. -/
def Carries (m : Machine) (l : Load) : Prop :=
  exists i, m.frames.head?.bind m.fetch? = some i ∧ m.Brings i l

/-- The machines that come up while an interpreter with a lawful host runs scripts, with the scripts
that were compiled so far: those that were loaded, imported or compiled by the host. -/
inductive Loads : List Load -> Machine -> Prop where
  | new (limits : Limits) (files : Files) : Loads [] (Interpreter.new limits files).machine
  | addNative {log : List Load} {i : Interpreter} {native : Native} (name : String) :
      Loads log i.machine -> native.Lawful -> Loads log (i.addNative name native).machine
  | files {log : List Load} {m : Machine} (files : Files) :
      Loads log m -> Loads log { m with files := files }
  | load {log : List Load} {m m' : Machine} {script : Option String} {source : String}
      {listing : Bool} : Loads log m -> m.frames = [] ->
        Interpreter.load m script source listing = .ok m' ->
        Loads (log ++ [⟨m.heap.functions.size, script, source⟩]) m'
  | tick {log more : List Load} {m : Machine} : Loads log m ->
      Grown m.heap.functions more m.tick.2.heap.functions -> (forall l, l ∈ more -> m.Carries l) ->
        Loads (log ++ more) m.tick.2

section Hosted

variable {m m' : Machine} {log : List Load}

theorem Hosted.steady (hm : m.Hosted) : m.Steady := by
  induction hm with
  | new => exact fun native hnative => by simp [Interpreter.new] at hnative
  | addNative name _ hn ih =>
      intro native hnative
      rcases Array.mem_push.mp hnative with hold | rfl
      · exact ih native hold
      · exact hn
  | files _ _ ih => exact ih
  | load _ hload ih =>
      rcases Interpreter.load_ok hload with ⟨id, h, output, -, rfl⟩
      exact ih
  | @tick m _ ih =>
      rcases m.exists_tick_kept with ⟨i, -, hkept⟩
      unfold Machine.Steady
      rw [hkept.natives]
      exact ih

theorem Hosted.placed (hm : m.Hosted) : m.Placed := by
  induction hm with
  | new => exact nofun
  | addNative _ _ _ ih => exact ih
  | files _ _ ih => exact ih
  | load _ hload ih =>
      rcases Interpreter.load_ok hload with ⟨id, h, output, hc, rfl⟩
      have hext := Heap.Compiles.extends ⟨_, Heap.grown_of_compile hc⟩
      intro f hf
      rcases List.mem_cons.mp hf with rfl | hf
      · exact Frame.placed_start _ _
      · exact (ih f hf).extends hext
  | tick hm ih => exact ih.tick hm.steady

theorem Reachable.hosted (hm : m.Reachable) : m.Hosted := by
  induction hm with
  | new limits files => exact .new limits files
  | addNative name _ hn ih => exact .addNative name ih hn.steady
  | files files _ ih => exact .files files ih
  | load _ _ hload ih => exact .load ih hload
  | tick _ ih => exact .tick ih

/-- A turn compiles what its instruction brings. -/
theorem exists_carried (hm : m.Lawful) : exists more,
    Grown m.heap.functions more m.tick.2.heap.functions ∧ forall l, l ∈ more -> m.Carries l := by
  rcases m.exists_tick_kept with ⟨i, hi, hkept⟩
  rcases hkept.brings hm with ⟨more, hmore, hbrings⟩
  refine ⟨more, hmore, fun l hl => ?_⟩
  rcases hi with hi | rfl
  · exact ⟨i, hi, hbrings l hl⟩
  · cases hbrings l hl

theorem Loads.reachable (hm : m.Loads log) : m.Reachable := by
  induction hm with
  | new limits files => exact .new limits files
  | addNative name _ hn ih => exact .addNative name ih hn
  | files files _ ih => exact .files files ih
  | load _ hf hload ih => exact .load ih hf hload
  | tick _ _ _ ih => exact .tick ih

theorem Loads.exists_tick (hm : m.Loads log) : exists more, m.tick.2.Loads (log ++ more) := by
  rcases exists_carried hm.reachable.sound.lawful with ⟨more, hmore, hcarries⟩
  exact ⟨more, hm.tick hmore hcarries⟩

/-- Each reachable machine has loaded some scripts. -/
theorem Reachable.exists_loads (hm : m.Reachable) : exists log, m.Loads log := by
  induction hm with
  | new limits files => exact ⟨[], .new limits files⟩
  | addNative name _ hn ih =>
      rcases ih with ⟨log, h⟩
      exact ⟨log, .addNative name h hn⟩
  | files files _ ih =>
      rcases ih with ⟨log, h⟩
      exact ⟨log, .files files h⟩
  | load _ hf hload ih =>
      rcases ih with ⟨log, h⟩
      exact ⟨_, .load h hf hload⟩
  | tick _ ih =>
      rcases ih with ⟨log, h⟩
      exact ⟨_, h.exists_tick.choose_spec⟩

/-- Each function on the heap is one of a script that the machine has loaded. -/
theorem Loads.made (hm : m.Loads log) {id : Nat} (hid : id < m.heap.functions.size) :
    exists l, l ∈ log ∧ l.Made m.heap.functions id := by
  have hgrown {functions more : Array Function} {log log' : List Load}
      (h : Grown functions log' more) (hid : id < more.size)
      (hold : id < functions.size -> exists l, l ∈ log ∧ l.Made functions id) :
      exists l, l ∈ log ++ log' ∧ l.Made more id := by
    by_cases hlt : id < functions.size
    · rcases hold hlt with ⟨l, hl, hmade⟩
      exact ⟨l, List.mem_append_left _ hl, hmade.grown h⟩
    · rcases h.made (Nat.le_of_not_lt hlt) hid with ⟨l, hl, hmade⟩
      exact ⟨l, List.mem_append_right _ hl, hmade⟩
  induction hm with
  | new => simp [Interpreter.new, Heap.newArray, Heap.empty] at hid
  | addNative _ _ _ ih => exact ih hid
  | files _ _ ih => exact ih hid
  | load _ _ hload ih =>
      rcases Interpreter.load_ok hload with ⟨_, h, output, hc, rfl⟩
      exact hgrown (Heap.grown_of_compile hc) hid ih
  | tick _ hmore _ ih => exact hgrown hmore hid ih

end Hosted
end Machine

theorem Interpreter.loads_begun {source : String}
    (h : (load (new {} Files.empty).machine none source false).isOk = true) :
    (begun source).Loads [⟨0, none, source⟩] :=
  .load (.new {} Files.empty) rfl (load_begun h)

end StackScript
