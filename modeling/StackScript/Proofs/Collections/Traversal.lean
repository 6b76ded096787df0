import StackScript.Proofs.Collections.Code
import StackScript.Proofs.Collections.Items
import StackScript.Proofs.Machine.Depth

/-!
# Turns in a loop over a collection

A loop over a collection enters its body once for each item, in order, until control leaves it: by a
jump behind the loop, by a return, by something raised that no `try` in the body catches, or because
there are no more items.  Whatever the body does in between, it leaves the hidden slots alone, and
behind the loop its locals are forgotten.  Here is what one turn in the body does.
-/

namespace StackScript

/-- A loop over a collection in a call that is in progress. -/
structure Traversal where
  seat : Seat
  /-- The calls further out. -/
  outer : List Frame
  /-- Where the loop begins. -/
  first : Nat
  slot : Nat
  vars : Nat
  offset : Nat

section Instructions

variable {o : Instr}

theorem Instr.reach_le_taken (o : Instr) : o.reach <= o.taken + 2 := by
  cases o <;> simp

theorem Instr.reach_of_quiet (ho : o.quiet = true) : o.reach <= 1 := by
  cases o with
  | pop | jump | loop => simp
  | _ => cases ho

theorem Instr.mem_slots_of_writes {s : Nat} (hs : s ∈ o.writes) : s ∈ o.slots := by
  cases o with
  | setLocal | increment => exact hs
  | forNext =>
      rw [Instr.writes, List.mem_range'_1] at hs
      rw [Instr.slots, List.mem_range'_1]
      lia
  | _ => cases hs

end Instructions

namespace Traversal

/-! ## What a loop does -/

def body (L : Traversal) : Nat :=
  L.first + 1

def next (L : Traversal) : Nat :=
  L.first + L.offset

def behind (L : Traversal) : Nat :=
  L.first + L.offset + 1

/-- The place of a local of the loop on the stack: the collection, its keys, the index and the
variables. -/
def place (L : Traversal) (d : Nat) : Nat :=
  L.seat.base + L.slot + d

def At (L : Traversal) (ip : Nat) (m : Machine) : Prop :=
  m.frames = L.seat.frame ip :: L.outer

/-- The call is in the loop, with or without calls above it. -/
def In (L : Traversal) (m : Machine) : Prop :=
  exists above ip, m.frames = above ++ L.seat.frame ip :: L.outer ∧ L.body <= ip ∧ ip <= L.next

/-- The machine is about to begin the loop over a value. -/
structure Begins (L : Traversal) (object : Value) (m : Machine) : Prop where
  at_first : L.At L.first m
  function : m.heap.function L.seat.id = L.seat.function
  instr : L.seat.function.code.instrs[L.first]? = some (.forBegin L.slot L.vars L.offset)
  collection : m.stack[L.place 0]? = some object
  iterable : object.iterable = true

/-- The loop that began in the machine `m` has entered its body in the listed machines, and has come
to a machine in which it is still in progress. -/
inductive Rounds (L : Traversal) (m : Machine) : List Machine -> Machine -> Prop where
  | begins {m1 : Machine} : m.tick = (.running, m1) -> L.At L.body m1 -> Rounds L m [m1] m1
  | inside {entered : List Machine} {m1 m2 : Machine} : Rounds L m entered m1 ->
      ¬ L.At L.next m1 -> m1.tick = (.running, m2) -> L.In m2 -> Rounds L m entered m2
  | again {entered : List Machine} {m1 m2 : Machine} : Rounds L m entered m1 ->
      L.At L.next m1 -> m1.tick = (.running, m2) -> L.At L.body m2 ->
      Rounds L m (entered ++ [m2]) m2

/-- The hidden slots in the round with index `i` of a loop that began on the heap `start`. -/
structure Hidden (L : Traversal) (start : Heap) (object : Value) (i : Nat) (m : Machine) :
    Prop where
  collection : m.stack[L.place 0]? = some object
  keys : m.stack[L.place 1]? = some (start.keep object).1
  index : m.stack[L.place 2]? = some (.integer (Int64.ofNat i))

/-- The body is entered with index `i`, and its variables are those of the item.  An index is a
machine word. -/
structure Enters (L : Traversal) (start : Heap) (object : Value) (i : Nat) (m : Machine) :
    Prop where
  at_body : L.At L.body m
  size : m.stack.size = L.place (3 + L.vars)
  hidden : L.Hidden start object i m
  item : exists key value, start.itemAt m.heap object (i % 2 ^ 64) = some (key, value) ∧
    forall d v, (loopVariables object L.vars key value)[d]? = some v ->
      m.stack[L.place (3 + d)]? = some v

/-- The loop has been left for the instructions behind it, which forget its locals and do nothing
else. -/
structure Forgets (L : Traversal) (m : Machine) : Prop where
  at_behind : L.At L.behind m
  size : m.stack.size = L.place (3 + L.vars)
  pops : exists m', m.run (3 + L.vars) = (.running, m') ∧ L.At (L.behind + (3 + L.vars)) m' ∧
    m'.stack = m.stack.take (L.place 0)

/-- How a turn in the body leaves the loop. -/
inductive Leaves (L : Traversal) (m : Machine) : Status × Machine -> Prop where
  | breaks {ip offset : Nat} {m' : Machine} : L.At ip m ->
      L.seat.function.code.instrs[ip]? = some (.jump offset) -> L.Forgets m' ->
      Leaves L m (.running, m')
  | returns {ip : Nat} {m' : Machine} : L.At ip m ->
      L.seat.function.code.instrs[ip]? = some .ret -> m'.frames = L.outer ->
      Leaves L m (.running, m')
  | throws {s : Status} {m' : Machine} : m.raised? ≠ none -> ¬ L.In m' -> Leaves L m (s, m')

/-- What a turn in the loop does. -/
inductive Turn (L : Traversal) (object : Value) (m : Machine) (entered : List Machine)
    (m1 : Machine) : Status × Machine -> Prop where
  | inside {m2 : Machine} : L.Rounds m entered m2 -> Turn L object m entered m1 (.running, m2)
  | again {m2 : Machine} : L.At L.next m1 -> L.Rounds m (entered ++ [m2]) m2 ->
      Turn L object m entered m1 (.running, m2)
  | exhausted {m2 : Machine} : L.At L.next m1 ->
      m.heap.itemAt m2.heap object (entered.length % 2 ^ 64) = none ->
      m.heap.Spent m2.heap entered.length object -> L.Forgets m2 ->
      Turn L object m entered m1 (.running, m2)
  | leaves {result : Status × Machine} : ¬ L.At L.next m1 -> L.Leaves m1 result ->
      Turn L object m entered m1 result

/-- How a loop begins: with its first round, or with none if there are no items. -/
inductive Opens (L : Traversal) (object : Value) (m : Machine) : Status × Machine -> Prop where
  | enters {m1 : Machine} : L.Rounds m [m1] m1 -> Opens L object m (.running, m1)
  | skips {m1 : Machine} : m.heap.itemAt m1.heap object 0 = none ->
      m.heap.Spent m1.heap 0 object -> L.Forgets m1 -> Opens L object m (.running, m1)

/-- A loop over a collection takes its items in order. -/
structure Ordered (L : Traversal) (object : Value) (m : Machine) : Prop where
  /-- When the loop begins the collection is the topmost value. -/
  height : m.stack.size = L.place 0 + 1
  opens : L.Opens object m m.tick
  enters : forall entered m1, L.Rounds m entered m1 ->
    forall i e, entered[i]? = some e -> L.Enters m.heap object i e
  hidden : forall entered m1, L.Rounds m entered m1 ->
    exists i, entered.length = i + 1 ∧ L.Hidden m.heap object i m1
  turns : forall entered m1, L.Rounds m entered m1 -> L.Turn object m entered m1 m1.tick
  /-- The instructions of the body have other slots. -/
  spares : forall ip i, L.body <= ip -> ip < L.next ->
    L.seat.function.code.instrs[ip]? = some i ->
    forall s, s ∈ i.slots -> s < L.slot ∨ L.slot + 3 <= s
  /-- The items of a table are in the order of its keys. -/
  sorted : forall id, object = .table id -> (m.heap.entries id).KeysInOrder

/-! ## The state of a loop -/

section Places

variable {L : Traversal} {m m' : Machine} {ip ip' : Nat}

theorem place_lt {d e : Nat} (h : d < e) : L.place d < L.place e :=
  Nat.add_lt_add_left h _

theorem not_in_of_length (h : m.frames.length <= L.outer.length) : ¬ L.In m := by
  rintro ⟨above, ip, hframes, -⟩
  rw [hframes, List.length_append, List.length_cons] at h
  lia

theorem At.ip_eq (h : L.At ip m) (h' : L.At ip' m) : ip = ip' := by
  have hframes := h.symm.trans h'
  exact congrArg Frame.ip (List.cons.inj hframes).1

theorem At.not_in (h : L.At ip m) (hout : ip < L.body ∨ L.next < ip) : ¬ L.In m := by
  rintro ⟨above, ip', hframes, hlo, hhi⟩
  have hempty : above = [] := by
    have hlength := congrArg List.length (hframes.symm.trans h)
    simp only [List.length_append, List.length_cons] at hlength
    exact List.eq_nil_of_length_eq_zero (by lia)
  rw [hempty] at hframes
  have hip := h.ip_eq hframes
  lia

end Places

/-- What holds of a machine in which the loop is in progress: its call stands at an index of the
loop, the hidden slots are those of a round, and nothing else names the keys. -/
structure Holds (L : Traversal) (height : Nat -> Nat) (start : Heap) (object : Value) (i ip : Nat)
    (m : Machine) : Prop where
  sound : m.Sound
  on : L.seat.On m.heap
  active : L.seat.Active height L.outer ip m
  lo : L.body <= ip
  hi : ip <= L.next
  hidden : L.Hidden start object i m
  reserves : m.Reserves (.keys (L.place 2) start object)

section Holds

variable {L : Traversal} {height : Nat -> Nat} {start : Heap} {object : Value} {i ip t : Nat}
variable {m m' : Machine}

theorem Holds.isIn (h : L.Holds height start object i ip m) : L.In m := by
  rcases h.active.frames with ⟨above, hframes⟩
  exact ⟨above, ip, hframes, h.lo, h.hi⟩

def Coded (L : Traversal) (height : Nat -> Nat) : Prop :=
  L.seat.function.Iterates height L.first L.slot L.vars L.offset

theorem Coded.floor (hL : L.Coded height) (hlo : L.body <= ip) (hhi : ip <= L.next) :
    L.slot + 3 + L.vars <= height ip ∧ 0 < L.vars := by
  have hfloor := Function.Iterates.floor hL ip hlo hhi
  rcases Function.Iterates.count hL with hvars | hvars
  · lia
  · lia

/-- The body may be empty. -/
theorem Coded.body_le_next (hL : L.Coded height) : L.body <= L.next :=
  Nat.add_le_add_left (Function.Iterates.pos hL) _

theorem Coded.body_ne_behind (hL : L.Coded height) : L.body ≠ L.behind :=
  Nat.ne_of_lt (Nat.lt_succ_of_le hL.body_le_next)

end Holds

/-! ## What a turn leaves alone -/

section Turns

variable {L : Traversal} {height : Nat -> Nat} {start : Heap} {object : Value} {i ip t : Nat}
variable {m m' : Machine} {o : Instr}

/-- An instruction of the body reaches only what lies above the hidden slots. -/
theorem Coded.reach_le (hL : L.Coded height) (hlo : L.body <= ip) (hhi : ip < L.next)
    (ho : L.seat.function.code.instrs[ip]? = some o) : L.slot + 2 + o.reach <= height ip ∧
      L.slot + 3 + o.taken <= height ip := by
  have hfloor := hL.floor hlo (Nat.le_of_lt hhi)
  have htaken := o.taken_le_reach
  rcases Function.Iterates.kept hL ip o hlo hhi ho with hquiet | hkept
  · have hreach := Instr.reach_of_quiet hquiet
    lia
  · have hreach := o.reach_le_taken
    lia

/-- A turn that stays in the loop, other than the one with which it goes on, leaves the hidden slots
as they are. -/
theorem Coded.passes (hL : L.Coded height)
    (hpass : L.seat.Passes height L.outer m m' ip t) (hlo : L.body <= ip) (hhi : ip <= L.next)
    (hnot : ¬ L.At L.next m) {d : Nat} (hd : d < 3) :
    m'.stack[L.place d]? = m.stack[L.place d]? ∨ L.next + 1 < t := by
  have hfloor := hL.floor hlo hhi
  have hlt (htop : L.seat.Top height L.outer ip m) : ip < L.next := by
    apply Nat.lt_of_le_of_ne hhi
    rintro rfl
    exact hnot htop.frames
  have hplace : L.place d = L.seat.base + L.slot + d := rfl
  cases hpass with
  | above _ _ hstack => exact Or.inl (hstack _ (by lia))
  | back _ _ hstack => exact Or.inl (hstack _ (by lia))
  | goes ho htop _ _ _ hstack =>
      have hreach := hL.reach_le hlo (hlt htop) ho
      have hsize := htop.size
      left
      apply hstack
      · lia
      · intro s hs
        have hspares := Function.Iterates.spares hL ip _ hlo (hlt htop) ho s
          (Instr.mem_slots_of_writes hs)
        lia
  | opens ho _ htop _ hstack =>
      have hreach := hL.reach_le hlo (hlt htop) ho
      have hsize := htop.size
      exact Or.inl (hstack _ (by lia))
  | catches hne hr hcovers hfrom htop hstack =>
      rename_i from_ r
      have hin : L.first <= from_ ∧ from_ <= L.next := by
        have hbody : L.body = L.first + 1 := rfl
        rcases hfrom with ⟨-, hfrom⟩ | ⟨-, hfrom⟩
        · lia
        · lia
      rcases Function.Iterates.ranges hL r hr from_ hcovers hin.1 hin.2 with hinside | houtside
      · exact Or.inl (hstack _ (by lia))
      · exact Or.inr houtside

/-- A turn in the loop leaves the array of the keys where it is. -/
theorem Holds.reserves_tick (h : L.Holds height start object i ip m) (hL : L.Coded height)
    (hk : L.seat.function.Keeps height) :
    m.tick.2.Reserves (.keys (L.place 2) start object) := by
  have hfloor := hL.floor h.lo h.hi
  have habove : (Reserve.keys (L.place 2) start object).above = L.place 2 ∨
      (Reserve.keys (L.place 2) start object).above = 0 := by
    cases object with
    | table | text => exact Or.inl rfl
    | _ => exact Or.inr rfl
  have hplace : L.place 2 = L.seat.base + L.slot + 2 := rfl
  generalize hr : Reserve.keys (L.place 2) start object = r at habove
  have hreserves := h.reserves
  rw [hr] at hreserves
  rcases h.active with htop | hbelow
  · rcases htop.stepping h.sound h.on hk with ⟨o, ho, hfetch, -, -⟩
    have hsize := htop.size
    rcases Nat.lt_or_ge ip L.next with hlt | hge
    · have hreach := hL.reach_le h.lo hlt ho
      apply hreserves.tick htop.frames hfetch
      · lia
      · rintro s rfl
        have hspares := Function.Iterates.spares hL ip _ h.lo hlt ho s (List.mem_singleton_self s)
        have hbase : (L.seat.frame ip).base = L.seat.base := rfl
        lia
    · have hip : ip = L.first + L.offset := Nat.le_antisymm h.hi hge
      rw [hip, Function.Iterates.next hL] at ho
      cases ho
      apply hreserves.tick htop.frames hfetch
      · simp only [Instr.reach, Instr.taken]
        lia
      · simp
  · rcases hbelow with ⟨base, hbase, hover⟩
    cases hf : m.frames with
    | nil =>
        rw [hf] at hover
        rcases hover with ⟨above, c, hframes, -⟩
        simp at hframes
    | cons f rest =>
        have hstands := h.sound.safe.stands
        rw [Machine.Stands, hf] at hstands
        rw [hf] at hover
        have hle := hover.base_le hstands
        rcases h.sound.safe.stepping hf with ⟨height', o, hfetch, hs, hat⟩
        have hsize := hat.size
        have hoperands : o.reach < height' f.ip := hs.fits.operands
        rw [Machine.advance_stack] at hsize
        apply hreserves.tick hf hfetch
        · lia
        · intro s _
          lia

end Turns

/-! ## Behind the loop -/

section Behind

variable {L : Traversal} {height : Nat -> Nat} {m m' : Machine} {n ip : Nat}

theorem tick_pop {S : Seat} {outer : List Frame} (hf : m.frames = S.frame ip :: outer)
    (hfunction : m.heap.function S.id = S.function)
    (hpop : S.function.code.instrs[ip]? = some .pop) (hpos : 0 < m.stack.size) :
    m.tick = (.running, { m with stack := m.stack.pop, frames := S.frame (ip + 1) :: outer }) := by
  have hfetch : m.fetch? (S.frame ip) = some .pop := by
    show (m.heap.function S.id).code.instrs[ip]? = _
    rw [hfunction, hpop]
  rcases Array.exists_push_of_size_pos hpos with ⟨s, v, hs⟩
  have hstep : Exec.step .pop m.advance =
      .ok () { m with stack := s, frames := S.frame (ip + 1) :: outer } := by
    have hadvance : m.advance.stack = s.push v := by rw [Machine.advance_stack, hs]
    show (Exec.pop >>= fun _ => pure ()) m.advance = _
    rw [Exec.bind_ok (Exec.pop_apply hadvance), Machine.advance_apply hf]
    rfl
  rw [Machine.tick_of_ok hf hfetch hstep, hs, Array.pop_push]

/-- Pops one after the other. -/
theorem run_pops {S : Seat} {outer : List Frame} (hf : m.frames = S.frame ip :: outer)
    (hfunction : m.heap.function S.id = S.function)
    (hpops : forall d, d < n -> S.function.code.instrs[ip + d]? = some .pop)
    (hn : n <= m.stack.size) :
    exists m', m.run n = (.running, m') ∧ m'.frames = S.frame (ip + n) :: outer ∧
      m'.stack = m.stack.take (m.stack.size - n) := by
  induction n generalizing m ip with
  | zero => exact ⟨m, rfl, hf, by simp⟩
  | succ n ih =>
      have htick := tick_pop hf hfunction (hpops 0 (Nat.succ_pos n)) (by lia)
      have hnext : forall d, d < n -> S.function.code.instrs[ip + 1 + d]? = some .pop := by
        intro d hd
        rw [Nat.add_assoc, Nat.add_comm 1]
        exact hpops (d + 1) (Nat.succ_lt_succ hd)
      have hrest := ih (m := { m with stack := m.stack.pop, frames := S.frame (ip + 1) :: outer })
        rfl hfunction hnext (by simp; lia)
      rcases hrest with ⟨m', hrun, hframes, hstack⟩
      refine ⟨m', ?_, ?_, ?_⟩
      · rw [Machine.run, htick]
        exact hrun
      · rw [hframes, Nat.add_assoc, Nat.add_comm 1]
      · have hsize : m.stack.pop.size - n = m.stack.size - (n + 1) := by
          rw [Array.size_pop]
          lia
        rw [hstack]
        show m.stack.pop.take (m.stack.pop.size - n) = _
        rw [hsize]
        apply take_eq_take
        intro j hj
        rw [Array.getElem?_pop, if_pos (by lia)]

theorem Coded.height_around (hL : L.Coded height) (hk : L.seat.function.Keeps height) :
    height L.next = L.slot + 3 + L.vars ∧ height L.body = L.slot + 3 + L.vars ∧
      height L.behind = L.slot + 3 + L.vars := by
  have hlevel := Function.Iterates.level hL
  have hfits := hk.instrs _ _ (Function.Iterates.next hL)
  have hback := hfits.back L.offset rfl
  have hbody : L.body ∈ (Instr.forNext L.slot L.vars L.offset).successors (L.first + L.offset) := by
    have htarget : L.first + L.offset + 1 - L.offset = L.body := by
      unfold body
      lia
    simp [Instr.successors, Instr.jumpTarget?, hback, htarget]
  have hbehind : L.behind ∈
      (Instr.forNext L.slot L.vars L.offset).successors (L.first + L.offset) := by
    simp [Instr.successors, Instr.continues, behind]
  have h1 := hfits.flow _ hbody
  have h2 := hfits.flow _ hbehind
  simp only [Instr.heightAfter, Instr.taken, Instr.given] at h1 h2
  exact ⟨hlevel, by lia, by lia⟩

/-- Behind the loop its locals are forgotten. -/
theorem Coded.forgets (hL : L.Coded height) (hk : L.seat.function.Keeps height)
    (hon : L.seat.On m.heap) (htop : L.seat.Top height L.outer L.behind m) : L.Forgets m := by
  have hsize : m.stack.size = L.place (3 + L.vars) := by
    rw [htop.size, (hL.height_around hk).2.2]
    unfold place
    lia
  have hpops : forall d, d < 3 + L.vars ->
      L.seat.function.code.instrs[L.behind + d]? = some .pop :=
    fun d hd => Function.Iterates.pops hL d (by lia)
  have hle : 3 + L.vars <= m.stack.size := by
    rw [hsize, place]
    lia
  rcases run_pops htop.frames hon.function hpops hle with ⟨m', hrun, hframes, hstack⟩
  refine ⟨htop.frames, hsize, m', hrun, hframes, ?_⟩
  rw [hstack, hsize]
  congr 1
  unfold place
  lia

end Behind

/-! ## Turns in the body -/

section Body

variable {L : Traversal} {height : Nat -> Nat} {start : Heap} {object : Value} {i ip t : Nat}
variable {m m' : Machine} {s : Status}

theorem Leaves.not_in {result : Status × Machine} (h : L.Leaves m result) : ¬ L.In result.2 := by
  cases h with
  | breaks _ _ hforgets => exact hforgets.at_behind.not_in (Or.inr (Nat.lt_succ_self _))
  | returns _ _ hframes => exact not_in_of_length (Nat.le_of_eq (congrArg List.length hframes))
  | throws _ hnot => exact hnot

/-- What a turn keeps of the state of the loop if it stays in it. -/
theorem Holds.keeps (h : L.Holds height start object i ip m) (hL : L.Coded height)
    (hk : L.seat.function.Keeps height) (hnot : ¬ L.At L.next m) (htick : m.tick = (.running, m'))
    (hpass : L.seat.Passes height L.outer m m' ip t) (hlo : L.body <= t) (hhi : t <= L.next) :
    L.Holds height start object i t m' := by
  have hsame {d : Nat} (hd : d < 3) : m'.stack[L.place d]? = m.stack[L.place d]? := by
    rcases hL.passes hpass h.lo h.hi hnot hd with hsame | hout
    · exact hsame
    · lia
  have hreserves := h.reserves_tick hL hk
  rw [htick] at hreserves
  exact
    { sound := h.sound.next htick
      on := h.on.extends (h.sound.extends htick)
      active := hpass.active
      lo := hlo
      hi := hhi
      hidden :=
        { collection := (hsame (by decide)).trans h.hidden.collection
          keys := (hsame (by decide)).trans h.hidden.keys
          index := (hsame (by decide)).trans h.hidden.index }
      reserves := hreserves }

/-- A turn after which the call stands outside the loop has left it by a jump, or because something
was raised. -/
theorem Holds.leaves_of_passes (h : L.Holds height start object i ip m) (hL : L.Coded height)
    (hk : L.seat.function.Keeps height) (hnot : ¬ L.At L.next m) (htick : m.tick = (.running, m'))
    (hpass : L.seat.Passes height L.outer m m' ip t) (hout : t < L.body ∨ L.next < t) :
    L.Leaves m (.running, m') := by
  have hlo := h.lo
  have hhi := h.hi
  have hlt (htop : L.seat.Top height L.outer ip m) : ip < L.next := by
    apply Nat.lt_of_le_of_ne hhi
    rintro rfl
    exact hnot htop.frames
  cases hpass with
  | above | back => lia
  | goes ho htop _ htop' ht _ =>
      rcases Function.Iterates.inside hL ip _ hlo (hlt htop) ho t ht with hin | ⟨rfl, o, rfl⟩
      · have hbody : L.body = L.first + 1 := rfl
        have hnext : L.next = L.first + L.offset := rfl
        lia
      · have hon := h.on.extends (h.sound.extends htick)
        exact .breaks htop.frames ho (hL.forgets hk hon htop')
  | opens _ _ htop _ _ =>
      have hless := hlt htop
      lia
  | catches hraised _ _ _ htop _ => exact .throws hraised (At.not_in htop.frames hout)

/-- A turn after which the call is no longer in progress has left the loop by a return, or because
something was raised. -/
theorem Holds.leaves_of_ended (h : L.Holds height start object i ip m) {s : Status}
    (htick : m.tick = (s, m')) (hended : ¬ (s = .running ∧ L.outer.length < m'.frames.length)) :
    L.Leaves m (s, m') := by
  rcases h.active.frames with ⟨above, hframes⟩
  cases hf : m.frames with
  | nil =>
      rw [hf] at hframes
      simp at hframes
  | cons f rest =>
      rcases h.sound.safe.turn hf with ⟨o, ho, -, hturn⟩
      rw [htick] at hturn
      rw [hf] at hframes
      have hdeep : L.outer.length <= rest.length := by
        have hlength := congrArg List.length hframes
        simp only [List.length_cons, List.length_append] at hlength
        lia
      -- The call itself has returned if none is left above the outer ones.
      have hlast (hrest : rest.length <= L.outer.length) :
          rest = L.outer ∧ f = L.seat.frame ip := by
        have hempty : above = [] := by
          have hlength := congrArg List.length hframes
          simp only [List.length_cons, List.length_append] at hlength
          exact List.eq_nil_of_length_eq_zero (by lia)
        rw [hempty] at hframes
        cases hframes
        exact ⟨rfl, rfl⟩
      have hreturn (hret : o = .ret) (hrest : rest.length <= L.outer.length)
          (hm' : m'.frames = rest) : L.Leaves m (.running, m') := by
        rcases hlast hrest with ⟨rfl, rfl⟩
        apply Leaves.returns (show L.At ip m from hf)
        · rw [← hret, ← ho, ← h.on.function]
          rfl
        · exact hm'
      cases hturn with
      | stays hstays =>
          rcases hstays.goes with ⟨ip', -, hframes'⟩
          refine absurd ⟨rfl, ?_⟩ hended
          rw [hframes', List.length_cons]
          lia
      | opens _ hopens =>
          rcases hopens.frames with ⟨id, hframes'⟩
          refine absurd ⟨rfl, ?_⟩ hended
          rw [hframes', Machine.advance_apply hf]
          simp only [List.length_cons]
          lia
      | returns hret _ _ =>
          apply hreturn hret _ rfl
          by_contra hmore
          exact hended ⟨rfl, Nat.lt_of_not_le hmore⟩
      | ends hret hrest => exact hreturn hret (by simp [hrest]) hrest.symm
      | catches hraised _ _ =>
          apply Leaves.throws
          · rw [hraised]
            exact Option.some_ne_none _
          · apply not_in_of_length
            by_contra hmore
            exact hended ⟨rfl, Nat.lt_of_not_le hmore⟩
      | fails hraised _ _ =>
          apply Leaves.throws
          · rw [hraised]
            exact Option.some_ne_none _
          · exact not_in_of_length (Nat.zero_le _)

/-- A turn in the body stays in the loop or leaves it. -/
theorem Holds.turn (h : L.Holds height start object i ip m) (hL : L.Coded height)
    (hk : L.seat.function.Keeps height) (hnot : ¬ L.At L.next m) :
    (exists t m', m.tick = (.running, m') ∧ L.Holds height start object i t m') ∨
      L.Leaves m m.tick := by
  rcases htick : m.tick with ⟨s, m'⟩
  by_cases hstill : s = .running ∧ L.outer.length < m'.frames.length
  · rcases hstill with ⟨rfl, hlength⟩
    rcases h.active.passes h.sound h.on hk htick hlength with ⟨t, hpass⟩
    by_cases hin : L.body <= t ∧ t <= L.next
    · exact Or.inl ⟨t, m', rfl, h.keeps hL hk hnot htick hpass hin.1 hin.2⟩
    · right
      apply h.leaves_of_passes hL hk hnot htick hpass
      lia
  · exact Or.inr (h.leaves_of_ended htick hstill)

end Body

end Traversal
end StackScript
