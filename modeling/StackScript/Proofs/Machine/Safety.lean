import StackScript.Proofs.Machine.Account

/-!
# Checked code never breaks the machine

A machine whose functions all pass the static stack check, and whose calls stand where
the check says, goes on like that with every instruction: ordinary ones, calls and
returns, imports, calls of the host, and thrown values that are caught or not.  So it
never comes to raise a fault that only broken code raises.
-/

namespace StackScript

/-- What stays fixed while an instruction is carried out. -/
structure Context where
  /-- The heap at the beginning. -/
  heap : Heap
  frames : List Frame
  /-- How many values stay when the instruction fails, if it may fail. -/
  floor : Option Nat

def Context.Fails (c : Context) (n : Nat) : Prop :=
  exists k, c.floor = some k ∧ k <= n

structure Machine.At (m : Machine) (c : Context) (h : Heap) (n : Nat) : Prop where
  clean : m.Clean
  heap : m.heap = h
  extends_ : c.heap.Extends h
  frames : m.frames = c.frames
  size : m.stack.size = n

/-- Something raised that a script may see. -/
def Raised.Harmless (h : Heap) : Raised -> Prop
  | .fault f => f.internal = false
  | .value v => v.Clean h

/-- A call that carries out an instruction. -/
structure Stepping (c : Context) (f : Frame) (rest : List Frame) (height : Nat -> Nat)
    (i : Instr) : Prop where
  keeps : (c.heap.function f.function).Keeps height
  instr : (c.heap.function f.function).code.instrs[f.ip]? = some i
  frames : c.frames = { f with ip := f.ip + 1 } :: rest
  good : forall g, g ∈ f :: rest -> c.heap.Good g.function
  waiting : Waiting c.heap f.base rest
  floor : i.quiet = false -> c.floor = some (f.base + height f.ip - i.taken)

/-- A machine that only has good values at hand, with as many on the stack as the check says, and
that is safe again when the instruction is completed. -/
def Context.account (c : Context) (natives : Array Native) (files : Files) : Account where
  natives := natives
  files := files
  Good := fun h v => v.Clean h
  At := fun p m m' =>
    m = m' ∧ (m.natives = natives ∧ m.files = files) ∧ m.At c p.heap p.height
  Ends := fun m _ => m.Safe
  Fails := fun e m _ => exists h n, m.At c h n ∧ c.Fails n ∧ e.Harmless h

/-! ## Machines in the course of an instruction -/

namespace Machine.At

variable {c : Context} {h h' : Heap} {m : Machine} {n : Nat} {s : Array Value}

theorem heap_clean (hm : m.At c h n) : h.Clean := by
  rw [← hm.heap]
  exact hm.clean.heap

theorem stack_clean (hm : m.At c h n) : forall v, v ∈ m.stack -> v.Clean h := by
  rw [← hm.heap]
  exact hm.clean.stack

theorem globals_clean (hm : m.At c h n) : Table.Clean h m.globals := by
  rw [← hm.heap]
  exact hm.clean.globals

theorem extends_heap (hm : m.At c h n) : c.heap.Extends m.heap := by
  rw [hm.heap]
  exact hm.extends_

theorem withStack (hm : m.At c h n) (hs : forall v, v ∈ s -> v.Clean h) :
    { m with stack := s }.At c h s.size where
  clean :=
    { hm.clean with
      stack := by
        show forall v, v ∈ s -> v.Clean m.heap
        rw [hm.heap]
        exact hs }
  heap := hm.heap
  extends_ := hm.extends_
  frames := hm.frames
  size := rfl

theorem withHeap (hm : m.At c h n) (hext : h.Extends h') (hclean : h'.Clean) :
    { m with heap := h' }.At c h' n where
  clean :=
    { heap := hclean
      stack := fun v hv => (hm.stack_clean v hv).extends hext
      globals := hm.globals_clean.extends hext
      natives := hm.clean.natives }
  heap := rfl
  extends_ := hm.extends_.trans hext
  frames := hm.frames
  size := hm.size

theorem getD_clean (hm : m.At c h n) (j : Nat) : (m.stack.getD j .none).Clean h := by
  rw [Array.getD_eq_getD_getElem?]
  cases hv : m.stack[j]? with
  | none => trivial
  | some v => exact hm.stack_clean v (Array.mem_of_getElem? hv)

end Machine.At

namespace Stepping

open Exec Account

variable {c : Context} {f : Frame} {rest : List Frame} {height : Nat -> Nat} {i : Instr}
variable {h : Heap} {n : Nat} {m m' : Machine} {natives : Array Native} {files : Files} {p : Stage}

theorem fits (hs : Stepping c f rest height i) :
    i.Fits (c.heap.function f.function) height f.ip :=
  hs.keeps.instrs f.ip i hs.instr

theorem fails (hs : Stepping c f rest height i) (hq : i.quiet = false)
    (hn : f.base + height f.ip <= n + i.taken) : c.Fails n :=
  ⟨_, hs.floor hq, by lia⟩

theorem good_self (hs : Stepping c f rest height i) (hext : c.heap.Extends h) :
    h.Good f.function :=
  (hs.good f (by simp)).extends hext

theorem good_frames (hs : Stepping c f rest height i) (hext : c.heap.Extends h) :
    forall g, g ∈ c.frames -> h.Good g.function := by
  intro g hg
  rw [hs.frames] at hg
  rcases List.mem_cons.mp hg with rfl | hg
  · exact hs.good_self hext
  · exact (hs.good g (by simp [hg])).extends hext

/-- The function of the call is the one it was at the beginning. -/
theorem function_eq (hs : Stepping c f rest height i) (hext : c.heap.Extends h) :
    h.function f.function = c.heap.function f.function :=
  hext.function_of_good (hs.good f (by simp))

/-- A machine is safe once the instruction has gone on to one of its successors. -/
theorem safe_at {ip : Nat} (hs : Stepping c f rest height i) (hclean : m.Clean)
    (hext : c.heap.Extends m.heap) (hframes : m.frames = { f with ip := ip } :: rest)
    (hip : ip ∈ i.successors f.ip)
    (hn : m.stack.size + i.taken = f.base + height f.ip + i.given) : m.Safe where
  clean := hclean
  frames := by
    intro g hg
    rw [hframes] at hg
    rcases List.mem_cons.mp hg with rfl | hg
    · exact hs.good_self hext
    · exact (hs.good g (by simp [hg])).extends hext
  stands := by
    have hreach : i.reach < height f.ip := hs.fits.operands
    have htaken := i.taken_le_reach
    rw [Machine.Stands, hframes]
    refine ⟨⟨height, ?_, ?_, ?_⟩, ?_⟩
    · show (m.heap.function f.function).Keeps height
      rw [hs.function_eq hext]
      exact hs.keeps
    · show ip < (m.heap.function f.function).code.size
      rw [hs.function_eq hext]
      exact hs.fits.inside ip hip
    · show f.base + height ip = _
      rw [hs.fits.flow ip hip, Instr.heightAfter]
      lia
    · exact hs.waiting.extends (fun g hg => hs.good g (by simp [hg])) hext

/-- A jump to one of the successors completes the instruction. -/
theorem completes_goTo (ip : Nat) {x : Exec Unit} (hs : Stepping c f rest height i)
    (hx : forall m, m.frames = c.frames ->
      x m = .ok () { m with frames := { f with ip := ip } :: rest })
    (hip : ip ∈ i.successors f.ip) (hend : p.height + i.taken = f.base + height f.ip + i.given) :
    (c.account natives files).Completes p x := by
  rintro m _ ⟨rfl, -, hm⟩
  rw [hx m hm.frames]
  refine .ok (hs.safe_at { hm.clean with } hm.extends_heap rfl hip ?_)
  show m.stack.size + i.taken = _
  rw [hm.size, hend]

/-- A call of a good function stands, and the call that opened it waits. -/
theorem completes_enter {id count : Nat} (hs : Stepping c f rest height i)
    (hopens : i.opens = true) (htaken : i.taken = count + 1)
    (hheight : p.height = f.base + height f.ip) (hgood : p.heap.Good id) :
    (c.account natives files).Completes p (enter id count) := by
  have hfails : c.Fails p.height := hs.fails (Instr.quiet_of_opens hopens) (by lia)
  rintro m _ ⟨rfl, -, hm⟩
  have hgood' : m.heap.Good id := by
    rw [hm.heap]
    exact hgood
  have hext := hm.extends_heap
  by_cases harity : (m.heap.function id).arity = count
  · by_cases hfull : Full m
    · rw [enter_full harity hfull]
      exact .error ⟨p.heap, p.height, hm, hfails, rfl⟩
    · rw [enter_apply harity hfull]
      rcases hgood'.checked with ⟨height', hkeeps'⟩
      have hreach : i.reach < height f.ip := hs.fits.operands
      have hle := i.taken_le_reach
      have hsize := hm.size
      refine .ok ⟨{ hm.clean with }, ?_, ?_, ?_⟩
      · intro g hg
        rcases List.mem_cons.mp hg with rfl | hg
        · exact hgood'
        · rw [hm.frames] at hg
          exact hs.good_frames hext g hg
      · refine ⟨height', hkeeps', hkeeps'.nonempty, ?_⟩
        show m.stack.size - count - 1 + height' 0 = m.stack.size
        rw [hkeeps'.entry, harity]
        lia
      · rw [hm.frames, hs.frames]
        have hflow := hs.fits.flow _ (Instr.successors_of_opens hopens)
        rw [Instr.heightAfter, Instr.given_of_opens hopens] at hflow
        have hwaits : Frame.Waits c.heap (m.stack.size - count - 1) { f with ip := f.ip + 1 } := by
          refine ⟨height, i, hs.keeps, Nat.succ_pos _, hs.instr, hopens, ?_⟩
          show f.base + height (f.ip + 1) = _
          lia
        exact ⟨hwaits.extends (hs.good f (by simp)) hext,
          hs.waiting.extends (fun g hg => hs.good g (by simp [hg])) hext⟩
  · rw [enter_wrongArity harity]
    exact .error ⟨p.heap, p.height, hm, hfails, rfl⟩

/-- The call below waits for what is returned. -/
theorem completes_leave (hs : Stepping c f rest height i) (hpos : 0 < height f.ip)
    (hheight : p.height = f.base + height f.ip) : (c.account natives files).Completes p leave := by
  rintro m _ ⟨rfl, -, hm⟩
  have hsize := hm.size
  have hpush : 0 < m.stack.size := by lia
  rcases Array.exists_push_of_size_pos hpush with ⟨s, v, hstack⟩
  rw [hstack, Array.size_push] at hsize
  have hframes := hm.frames.trans hs.frames
  have hclean := hm.clean.stack
  rw [hstack] at hclean
  have hext := hm.extends_heap
  have hkeep (w : Value) (hw : w ∈ s.take f.base) : w.Clean m.heap :=
    hclean w (Array.mem_push.mpr (Or.inl (mem_of_mem_extract hw)))
  cases hrest : rest with
  | nil =>
      rw [hrest] at hframes
      rw [leave_last hstack hframes]
      exact .ok ⟨{ hm.clean with stack := hkeep }, by simp, trivial⟩
  | cons g outer =>
      rw [hrest] at hframes
      rw [leave_apply hstack hframes]
      have hwaiting := hs.waiting.extends (fun g hg => hs.good g (by simp [hg])) hext
      rw [hrest] at hwaiting
      refine .ok ⟨{ hm.clean with stack := ?_ }, ?_, ?_⟩
      · intro w hw
        rcases Array.mem_push.mp hw with hw | rfl
        · exact hkeep w hw
        · exact hclean w Array.mem_push_self
      · intro g' hg'
        exact (hs.good g' (by rw [hrest]; exact List.mem_cons_of_mem _ hg')).extends hext
      · have htake : ((s.take f.base).push v).size = f.base + 1 := by
          simp only [Array.size_push, Array.take_eq_extract, Array.size_extract]
          lia
        show Standing m.heap ((s.take f.base).push v).size (g :: outer)
        rw [htake]
        exact ⟨hwaiting.1.runs, hwaiting.2⟩

theorem gives_getLocal {slot : Nat} (hs : Stepping c f rest height i) (hslot : slot ∈ i.slots)
    (hheight : f.base + height f.ip <= p.height) :
    (c.account natives files).Gives p (fun v q => q = p ∧ (i = .getLocal slot -> v.Clean p.heap))
      (getLocal slot) := by
  rintro m _ ⟨rfl, hhost, hm⟩
  have hbound := hs.fits.slots slot hslot
  have hsize := hm.size
  have hlt : f.base + slot < m.stack.size := by lia
  rw [getLocal_apply (hm.frames.trans hs.frames) (Array.getElem?_eq_getElem hlt)]
  have hv := hm.stack_clean _ (Array.getElem_mem hlt)
  exact .ok ⟨p, ⟨rfl, fun _ => hv⟩, rfl, hhost, hm⟩

theorem gives_setLocal {slot : Nat} {v : Value} (hs : Stepping c f rest height i)
    (hslot : slot ∈ i.writes) (hheight : f.base + height f.ip <= p.height)
    (hv : v.Clean p.heap) :
    (c.account natives files).Gives p (fun _ q => q = { p with wrote := true })
      (setLocal slot v) := by
  rintro m _ ⟨rfl, hhost, hm⟩
  have hbound := hs.fits.slots slot (Instr.slots_of_writes hslot)
  have hsize := hm.size
  rw [setLocal_apply (f := { f with ip := f.ip + 1 }) (hm.frames.trans hs.frames)
    (show f.base + slot < m.stack.size by lia)]
  have hwritten := hm.withStack (s := m.stack.setIfInBounds (f.base + slot) v) ?_
  · rw [Array.size_setIfInBounds, hsize] at hwritten
    exact .ok ⟨_, rfl, rfl, hhost, hwritten⟩
  · intro w hw
    rcases Array.mem_or_eq_of_mem_setIfInBounds hw with hold | rfl
    · exact hm.stack_clean w hold
    · exact hv

theorem gives_constant {k : Nat} (hs : Stepping c f rest height i) (hi : i = .constant k) :
    (c.account natives files).Gives p (fun v q => q = p ∧ v.Clean p.heap) (constant k) := by
  rintro m _ ⟨rfl, hhost, hm⟩
  have hgood := hs.good_self hm.extends_heap
  have hk := hs.fits.constants k (by rw [hi]; rfl)
  rw [← hs.function_eq hm.extends_heap] at hk
  obtain ⟨v, hv⟩ : exists v, (m.heap.function f.function).code.constants[k]? = some v :=
    ⟨_, Array.getElem?_eq_getElem hk⟩
  rw [constant_apply (hm.frames.trans hs.frames) hv]
  have hclean : v.Clean m.heap := by
    refine Value.clean_of_function ?_
    rintro id rfl
    exact hgood.constant (Array.mem_of_getElem? hv)
  rw [hm.heap] at hclean
  exact .ok ⟨p, ⟨rfl, hclean⟩, rfl, hhost, hm⟩

theorem gives_name {k : Nat} (hs : Stepping c f rest height i) (hi : i.name? = some k) :
    (c.account natives files).Gives p (fun _ q => q = p) (name k) := by
  rintro m _ ⟨rfl, hhost, hm⟩
  rcases hs.fits.names k hi with ⟨x, hx⟩
  rw [← hs.function_eq hm.extends_heap] at hx
  rw [name_apply (hm.frames.trans hs.frames) hx]
  exact .ok ⟨p, rfl, rfl, hhost, hm⟩

/-! ## Any instruction -/

/-- Whatever the instruction consists of finds what it needs and leaves a machine that is safe. -/
theorem covers (hs : Stepping c f rest height i) (natives : Array Native) (files : Files) :
    (c.account natives files).Covers i (f.base + height f.ip) where
  heap := by
    rintro p m _ ⟨rfl, -, hm⟩
    exact ⟨hm.heap, hm.heap⟩
  stack := by
    rintro p m _ ⟨rfl, -, -⟩
    rfl
  globals := by
    rintro p m _ ⟨rfl, -, -⟩
    exact fun _ => rfl
  natives := by
    rintro p m _ ⟨rfl, hhost, -⟩
    exact ⟨hhost.1, hhost.1⟩
  files := by
    rintro p m _ ⟨rfl, hhost, -⟩
    exact ⟨hhost.2, hhost.2⟩
  candidates := by
    rintro p m _ target ⟨rfl, -, -⟩
    rfl
  plain := fun _ _ hv => hv.clean
  operand := by
    rintro p m _ d ⟨rfl, -, hm⟩ - - -
    exact hm.getD_clean _
  global := by
    rintro p m _ x v ⟨rfl, -, hm⟩ hv
    exact hm.globals_clean x v hv
  item := by
    rintro p m _ object keys key value index ⟨rfl, -, hm⟩ hitem
    have hsupplied := Heap.supplied_iteration hitem
    exact ⟨hsupplied.1.clean hm.heap_clean (by simp),
      hsupplied.2.clean hm.heap_clean (by simp)⟩
  fault := by
    rintro p m _ fault ⟨rfl, -, hm⟩ - hheight hquiet hinternal
    exact ⟨p.heap, p.height, hm, hs.fails hquiet hheight, hinternal⟩
  thrown := by
    rintro p m _ v ⟨rfl, -, hm⟩ - hheight hquiet hv
    exact ⟨p.heap, p.height, hm, hs.fails hquiet hheight, hv⟩
  short := by
    rintro p m _ ⟨rfl, -, hm⟩ - - hlt
    exact absurd hm.size (Nat.ne_of_lt hlt)
  pushes := by
    rintro p m _ v ⟨rfl, hhost, hm⟩ hv
    have hpushed := hm.withStack (s := m.stack.push v) ?_
    · rw [Array.size_push, hm.size] at hpushed
      exact ⟨rfl, hhost, hpushed⟩
    · intro w hw
      rcases Array.mem_push.mp hw with hold | rfl
      · exact hm.stack_clean w hold
      · exact hv
  takes := by
    rintro p m _ n k ⟨rfl, hhost, hm⟩ hheight - - hk
    have htaken := hm.withStack (s := m.stack.take (m.stack.size - k)) fun w hw =>
      hm.stack_clean w (mem_of_mem_extract hw)
    have hsize : (m.stack.take (m.stack.size - k)).size = n := by
      have hsize := hm.size
      simp only [Array.take_eq_extract, Array.size_extract]
      lia
    rw [hsize] at htaken
    exact ⟨rfl, hhost, htaken⟩
  reads := fun hslot _ hheight => hs.gives_getLocal hslot hheight
  writes := fun hslot hheight hv => hs.gives_setLocal (hslot hs.fits.loopVars) hheight hv
  constants := fun hi _ _ => hs.gives_constant hi
  names := fun hi _ _ => hs.gives_name hi
  defines := by
    rintro p m _ x v ⟨rfl, hhost, hm⟩ hv
    refine ⟨rfl, hhost, { hm with clean := { hm.clean with globals := ?_ } }⟩
    refine hm.clean.globals.insert x ?_
    rw [hm.heap]
    exact hv
  outputs := by
    rintro p m _ s ⟨rfl, hhost, hm⟩
    exact ⟨rfl, hhost, { hm with clean := { hm.clean with } }⟩
  acts := by
    rintro p m _ writes args v h' ⟨rfl, hhost, hm⟩ hacts hargs
    rcases hacts.answers hm.heap_clean hargs with ⟨hext, hclean, hv⟩
    exact ⟨hv, rfl, hhost, hm.withHeap hext hclean⟩
  host := by
    rintro p m _ count native args ⟨rfl, hhost, hm⟩ - hnative hargs
    have htame := hm.clean.natives native (hhost.1 ▸ hnative)
    rcases htame.keeps p.heap args hm.heap_clean hargs with ⟨hext, hclean⟩
    exact ⟨fun v hv => htame.answers p.heap args v hm.heap_clean hargs hv, rfl, hhost,
      hm.withHeap hext hclean⟩
  compiled := by
    rintro p m _ path source id h' ⟨rfl, hhost, hm⟩ - - hc
    rcases Heap.compile_answers hm.heap_clean hc with ⟨hext, hclean, hgood⟩
    exact ⟨hgood, rfl, hhost, hm.withHeap hext hclean⟩
  next := by
    rintro p m _ ⟨rfl, -, hm⟩ hi hend
    refine hs.safe_at hm.clean hm.extends_heap (hm.frames.trans hs.frames)
      (Instr.mem_successors_of_continues hi) ?_
    rw [hm.size, hend hs.fits.loopVars]
  forward := fun {p offset} hi _ hend => by
    refine hs.completes_goTo (f.ip + 1 + offset) (fun m hm => ?_) ?_ hend
    · exact jumpForward_apply (hm.trans hs.frames)
    · exact Instr.mem_successors_of_jumpTarget? (hi f.ip)
  back := fun {p offset} hi hend => by
    have hle := hs.fits.back offset hi
    refine hs.completes_goTo (f.ip + 1 - offset) (fun m hm => ?_) ?_ hend
    · exact jumpBack_apply (hm.trans hs.frames) hle
    · exact Instr.mem_successors_of_backOffset? hi hle
  enters := fun hopens htaken _ hheight hgood =>
    hs.completes_enter hopens htaken hheight hgood
  leaves := fun _ _ hheight =>
    hs.completes_leave (Nat.lt_of_le_of_lt (Nat.zero_le _) hs.fits.operands) hheight

/-- An instruction of checked code leaves a machine that is safe, or it fails with enough values
left for every handler and has raised nothing that only broken code raises. -/
theorem step (hs : Stepping c f rest height i) (hm : m.At c c.heap (f.base + height f.ip)) :
    match Exec.step i m with
    | .ok _ m' => m'.Safe
    | .error e m' => exists h n, m'.At c h n ∧ c.Fails n ∧ e.Harmless h := by
  have hreach : i.reach <= f.base + height f.ip :=
    Nat.le_trans (Nat.le_of_lt hs.fits.operands) (Nat.le_add_left _ _)
  have hcompletes := (hs.covers m.natives m.files).step (h := c.heap) hreach
  cases hr : Exec.step i m with
  | ok u m' => exact hcompletes.of_ok ⟨rfl, ⟨rfl, rfl⟩, hm⟩ hr
  | error e m' => exact hcompletes.of_error ⟨rfl, ⟨rfl, rfl⟩, hm⟩ hr

end Stepping

end StackScript
