import StackScript.Proofs.Machine.Depth
import StackScript.Proofs.Machine.FailedImports

/-!
# Calls and the room for them

Two limits hold calls back, one on the calls in progress and one on the values on the stack, and
only the opening of a call looks at them.  No instruction changes them.  An instruction that has
found a function to call, with as many arguments as it takes, or a script to import that is
there, is new and compiles, opens a call if there is room and throws otherwise; nothing else
opens a call.
-/

namespace StackScript

/-! ## Calls that are ready to be opened -/

/-- The next instruction of the call `f` is about to open a call with `count` arguments: a
function lies below as many arguments as it takes, or a path leads to a script that has not been
imported and compiles. -/
inductive Machine.Calls (m : Machine) (f : Frame) : Nat -> Prop where
  | call {count id : Nat} : m.fetch? f = some (.call count) -> count < m.stack.size ->
      m.stack[m.stack.size - 1 - count]? = some (.function id) ->
      (m.heap.function id).arity = count -> Calls m f count
  | use {path source : String} {p : Program} : m.fetch? f = some .use ->
      m.located? = some path -> ¬ m.Lists path -> m.files.read path = .ok source ->
      compile m.heap.functions.size (some path) source = .ok p -> Calls m f 0

/-- A machine that asks for room for a call with `count` arguments.  What an import does before
shows neither in the calls nor on the stack below the called value. -/
structure Machine.Asks (count : Nat) (m m' : Machine) : Prop where
  limits : m'.limits = m.limits
  frames : m'.frames = m.frames
  size : m'.stack.size = m.stack.size
  stack : forall j, j < m.stack.size - count - 1 -> m'.stack[j]? = m.stack[j]?

theorem Machine.Asks.refl (count : Nat) (m : Machine) : m.Asks count m :=
  ⟨rfl, rfl, rfl, fun _ _ => rfl⟩

namespace Exec

section Entering

variable {m m' : Machine} {s : Array Value} {count : Nat} {target path source : String}

theorem full_of_asks (h : m.Asks count m') : Full m' ↔ Full m := by
  unfold Full
  rw [h.limits, h.frames, h.size]

theorem full_advance (m : Machine) : Full m.advance ↔ Full m := by
  unfold Full
  rw [Machine.advance_limits, Machine.length_advance, Machine.advance_stack]

theorem call_function {id : Nat} (hcount : count < m.stack.size)
    (hid : m.stack[m.stack.size - 1 - count]? = some (.function id)) :
    call count m = enter id count m := by
  unfold call
  rw [bind_ok (peek_apply hcount), Array.getD_eq_getD_getElem?, hid]
  rfl

theorem frames_of_callNative {native : Native} (hok : callNative native count m = .ok () m') :
    m'.frames = m.frames := by
  rcases of_bind_ok hok with ⟨args, m1, hargs, hok⟩
  rcases of_bind_ok hok with ⟨callee, m2, hcallee, hok⟩
  have hframes1 : m1.frames = m.frames := by
    by_cases hcount : count <= m.stack.size
    · rw [popMany_apply hcount] at hargs
      cases hargs
      rfl
    · rw [popMany, bind_ok get_apply, if_neg hcount] at hargs
      cases hargs
  rcases of_pop_ok hcallee with ⟨s, -, rfl⟩
  rw [bind_ok get_apply] at hok
  revert hok
  rcases native m1.heap args with ⟨v | v, h⟩
  · exact fun hok => nomatch hok
  · intro hok
    cases hok
    exact hframes1

/-- A completed call of a function of the host opens no call. -/
theorem of_call_opens (hok : call count m = .ok () m')
    (hlonger : m.frames.length < m'.frames.length) :
    exists id, count < m.stack.size ∧
      m.stack[m.stack.size - 1 - count]? = some (.function id) ∧
      (m.heap.function id).arity = count := by
  rcases call_cases hok with ⟨id, hcount, hid, henter⟩ | ⟨native, -, hcall⟩
  · exact ⟨id, hcount, hid, enter_arity henter⟩
  · rw [frames_of_callNative hcall] at hlonger
    exact absurd hlonger (Nat.lt_irrefl _)

theorem runScript_apply {p : Program} (hread : m.files.read path = .ok source)
    (hp : compile m.heap.functions.size (some path) source = .ok p) :
    exists id h, (h.function id).arity = 0 ∧
      runScript path m = enter id 0 { m with heap := h, stack := m.stack.push (.function id) } := by
  have hc := Heap.compile_apply hp
  refine ⟨_, _, Heap.arity_of_compile hc, ?_⟩
  unfold runScript
  rw [bind_ok (readScript_apply hread)]
  exact (bind_ok (compileScript_apply hc)).trans (bind_ok push_apply)

theorem of_runScript_ok (hok : runScript path m = .ok () m') :
    exists source p, m.files.read path = .ok source ∧
      compile m.heap.functions.size (some path) source = .ok p := by
  rcases of_bind_ok hok with ⟨source, m1, hread, hok1⟩
  rcases of_bind_ok hok1 with ⟨id, m2, hcompile, -⟩
  rcases of_readScript_ok hread with ⟨hsource, rfl⟩
  rcases of_compileScript_ok hcompile with ⟨h, hc, -⟩
  rcases Heap.compile_eq_ok hc with ⟨p, hp, -, -⟩
  exact ⟨source, p, hsource, hp⟩

/-- An import puts a new path in the list and runs the script. -/
theorem use_new (hs : m.stack = s.push (.text target))
    (hpath : Import.resolve m.files (m.candidates target) = .ok path) (hnew : ¬ m.Lists path) :
    exists m1 : Machine, use m = runScript path m1 ∧ m1.limits = m.limits ∧
      m1.files = m.files ∧ m1.frames = m.frames ∧ m1.stack = s ∧
      m1.heap.functions = m.heap.functions := by
  rcases importList_ok { m with stack := s } with ⟨id, m2, himports, hid, -⟩
  have hunlisted : ¬ Import.isListed m2.heap (.array id) path = true := by
    intro hlisted
    have hmem := Machine.lists_iff.mp ((Machine.isListed_iff hid).mp hlisted)
    rw [importList_imported himports] at hmem
    exact hnew (Machine.lists_iff.mpr hmem)
  have hkept : m2.limits = m.limits ∧ m2.files = m.files ∧ m2.frames = m.frames ∧
      m2.stack = s ∧ m2.heap.functions = m.heap.functions := by
    rcases importList_leaves himports with rfl | rfl <;> exact ⟨rfl, rfl, rfl, rfl, rfl⟩
  refine ⟨{ m2 with heap := m2.heap.setItems id ((m2.heap.items id).push (.text path)) }, ?_,
    hkept⟩
  rw [use_apply hs hpath himports]
  unfold importFrom
  rw [bind_ok get_apply, if_neg hunlisted]
  exact bind_ok (perform_ok rfl)

/-- Whatever an import opens a call with is new and compiles. -/
theorem of_use_opens (hok : use m = .ok () m') (hlonger : m.frames.length < m'.frames.length) :
    exists path source p, m.located? = some path ∧ ¬ m.Lists path ∧
      m.files.read path = .ok source ∧
      compile m.heap.functions.size (some path) source = .ok p := by
  rcases of_use_ok hok with ⟨s, target, path, hs, hpath⟩
  have hnew : ¬ m.Lists path := by
    intro hlists
    rw [use_listed hs hpath hlists] at hok
    cases hok
    exact absurd hlonger (Nat.lt_irrefl _)
  rcases use_new hs hpath hnew with ⟨m1, huse, -, hfiles, -, -, hheap⟩
  rw [huse] at hok
  rcases of_runScript_ok hok with ⟨source, p, hread, hp⟩
  rw [hfiles] at hread
  rw [hheap] at hp
  refine ⟨path, source, p, ?_, hnew, hread, hp⟩
  rw [Machine.located?_push hs, hpath]
  rfl

end Entering
end Exec

namespace Machine

section Room

variable {m m' : Machine} {f : Frame} {rest : List Frame} {count : Nat}

/-- Whatever is called, the instruction ends with the opening of a call. -/
theorem Calls.enters (h : m.Calls f count) :
    exists i id m1, m.fetch? f = some i ∧ m.advance.Asks count m1 ∧
      (m1.heap.function id).arity = count ∧
      Exec.step i m.advance = Exec.enter id count m1 := by
  cases h with
  | call hi hcount hid harity =>
      rename_i id
      rw [← advance_stack] at hcount hid
      rw [← advance_heap] at harity
      exact ⟨_, id, m.advance, hi, .refl _ _, harity, Exec.call_function hcount hid⟩
  | use hi hpath hnew hread hp =>
      rename_i path source p
      rw [← located?_advance] at hpath
      rw [← lists_advance] at hnew
      rcases of_located? hpath with ⟨s, target, hs, hfound⟩
      rcases Exec.use_new hs hfound hnew with ⟨m1, huse, hlimits, hfiles, hframes, hstack, hheap⟩
      rw [← advance_files, ← hfiles] at hread
      rw [← advance_heap, ← hheap] at hp
      rcases Exec.runScript_apply hread hp with ⟨id, h, harity, hrun⟩
      refine ⟨_, id, { m1 with heap := h, stack := m1.stack.push (.function id) }, hi,
        ⟨hlimits, hframes, ?_, ?_⟩, harity, huse.trans hrun⟩
      · show (m1.stack.push _).size = m.advance.stack.size
        rw [hstack, hs, Array.size_push, Array.size_push]
      · intro j hj
        rw [hs, Array.size_push] at hj
        show (m1.stack.push _)[j]? = m.advance.stack[j]?
        rw [hstack, hs, Array.getElem?_push_lt (by lia), Array.getElem?_push_lt (by lia)]

/-- A turn that opens no call moves none: it leaves out some of the innermost ones at most. -/
theorem Turn.bases {i : Instr} {s : Status} (ht : m.Turn f rest i (s, m'))
    (hf : m.frames = f :: rest) :
    m'.frames.map Frame.base <:+ m.frames.map Frame.base ∨
      i.opens = true ∧ m.advance.Opens i m' := by
  cases ht with
  | stays hstays =>
      rcases hstays.goes with ⟨ip, -, hframes⟩
      left
      rw [hframes, hf]
      exact List.suffix_refl _
  | opens hi hopens => exact Or.inr ⟨hi, hopens⟩
  | returns =>
      left
      rw [hf]
      exact List.suffix_cons _ _
  | ends => exact Or.inl List.nil_suffix
  | catches hraised hspares hh =>
      rename_i e m1 g r outer
      rcases of_handler?_some hh with ⟨above, hsplit, -, -⟩
      have hbases : m.frames.map Frame.base = (above ++ g :: outer).map Frame.base := by
        rw [← hsplit, advance_apply hf, hf]
        rfl
      left
      rw [hbases, List.map_append]
      exact List.suffix_append _ _
  | fails => exact Or.inl List.nil_suffix

/-- Where there is a call more after a turn, its instruction was completed. -/
theorem completed_of_longer {i : Instr} (hf : m.frames = f :: rest) (hi : m.fetch? f = some i)
    (hlonger : m.frames.length < m.tick.2.frames.length) :
    exists m1, Exec.step i m.advance = .ok () m1 ∧
      m.advance.frames.length < m1.frames.length := by
  rw [← length_advance] at hlonger
  cases hstep : Exec.step i m.advance with
  | ok u m1 =>
      rw [tick_of_ok hf hi hstep] at hlonger
      exact ⟨m1, rfl, hlonger⟩
  | error e m1 =>
      rw [tick_of_error hf hi hstep, ← frames_of_failed hf hstep] at hlonger
      exact absurd hlonger (Nat.not_lt.mpr (length_unwind m1 _))

/-- Nothing else opens a call. -/
theorem Sound.calls_of_longer (hm : m.Sound) (hf : m.frames = f :: rest)
    (hlonger : m.frames.length < m.tick.2.frames.length) : exists count, m.Calls f count := by
  rcases hm.safe.turn hf with ⟨i, hi, -, hturn⟩
  have hopens : i.opens = true := by
    rcases hturn.bases hf with hsuffix | ⟨hopens, -⟩
    · have hle := hsuffix.length_le
      rw [List.length_map, List.length_map] at hle
      exact absurd hlonger (Nat.not_lt.mpr hle)
    · exact hopens
  cases i with
  | call count =>
      rcases completed_of_longer hf hi hlonger with ⟨m1, hstep, hmore⟩
      rcases Exec.of_call_opens hstep hmore with ⟨id, hcount, hid, harity⟩
      rw [advance_stack] at hcount hid
      rw [advance_heap] at harity
      exact ⟨count, .call hi hcount hid harity⟩
  | use =>
      rcases completed_of_longer hf hi hlonger with ⟨m1, hstep, hmore⟩
      rcases Exec.of_use_opens hstep hmore with ⟨path, source, p, hpath, hnew, hread, hp⟩
      rw [located?_advance] at hpath
      rw [lists_advance] at hnew
      rw [advance_files] at hread
      rw [advance_heap] at hp
      exact ⟨0, .use hi hpath hnew hread hp⟩
  | _ => cases hopens

/-- A call for which there is no room throws, with all calls and all values below it in place. -/
theorem Calls.refused (h : m.Calls f count) (hf : m.frames = f :: rest)
    (hfull : Exec.Full m) :
    m.raised? = some (.fault .stackOverflow) ∧
      exists m1, m.advance.Asks count m1 ∧ m.tick = m1.unwind (.text "Stack overflow.") := by
  rcases h.enters with ⟨i, id, m1, hi, hasks, harity, hstep⟩
  have hfull1 := (Exec.full_of_asks hasks).mpr ((Exec.full_advance m).mpr hfull)
  rw [Exec.enter_full harity hfull1] at hstep
  exact ⟨raised?_of_error hf hi hstep, m1, hasks, tick_of_error hf hi hstep⟩

/-- A call for which there is room is opened. -/
theorem Calls.opened (h : m.Calls f count) (hf : m.frames = f :: rest)
    (hroom : ¬ Exec.Full m) :
    exists id m1, m.advance.Asks count m1 ∧
      m.tick = (.running, { m1 with
        frames := ⟨id, 0, m.stack.size - count - 1⟩ :: m.advance.frames }) := by
  rcases h.enters with ⟨i, id, m1, hi, hasks, harity, hstep⟩
  have hroom1 : ¬ Exec.Full m1 := by
    rwa [Exec.full_of_asks hasks, Exec.full_advance]
  rw [Exec.enter_apply harity hroom1] at hstep
  refine ⟨id, m1, hasks, ?_⟩
  rw [tick_of_ok hf hi hstep, hasks.size, hasks.frames, advance_stack]

/-- A turn opens a call where there is one to open and room for it. -/
theorem Sound.opens_iff (hm : m.Sound) (hf : m.frames = f :: rest) :
    m.frames.length < m.tick.2.frames.length ↔
      (exists count, m.Calls f count) ∧ ¬ Exec.Full m := by
  constructor
  · intro hlonger
    rcases hm.calls_of_longer hf hlonger with ⟨count, hcalls⟩
    refine ⟨⟨count, hcalls⟩, fun hfull => ?_⟩
    rcases (hcalls.refused hf hfull).2 with ⟨m1, hasks, htick⟩
    rw [htick, ← length_advance, ← hasks.frames] at hlonger
    exact absurd hlonger (Nat.not_lt.mpr (length_unwind m1 _))
  · rintro ⟨⟨count, hcalls⟩, hroom⟩
    rcases hcalls.opened hf hroom with ⟨id, m1, -, htick⟩
    rw [htick]
    show m.frames.length < (_ :: m.advance.frames).length
    rw [List.length_cons, length_advance]
    exact Nat.lt_succ_self _

end Room
end Machine
end StackScript
