import StackScript.Proofs.Collections.Traversal

/-!
# The rounds of a loop over a collection

The turns with which the loop begins and goes on enter the body with the next item, or find that
there is none.  From what each turn does follows what a whole run of the loop does.
-/

namespace StackScript
namespace Traversal

/-! ## The turn with which the loop goes on -/

section Next

variable {L : Traversal} {height : Nat -> Nat} {start : Heap} {object : Value} {i ip : Nat}
variable {m : Machine}

/-- The index behind an index is that of the next round, as a machine word. -/
theorem word_succ (i : Nat) : ((Int64.ofNat i).toUInt64 + 1).toNat = (i + 1) % 2 ^ 64 := by
  simp [UInt64.toNat_add]

theorem word_mod (i : Nat) : Int64.ofNat (i % 2 ^ 64) = Int64.ofNat i := by
  apply Int64.toBitVec_inj.mp
  apply BitVec.eq_of_toNat_eq
  simp

theorem Holds.top_of_at (h : L.Holds height start object i ip m) (hat : L.At L.next m) :
    L.seat.Top height L.outer L.next m := by
  rcases h.active with htop | ⟨base, -, above, c, hframes, -⟩
  · have hip : ip = L.next := At.ip_eq htop.frames hat
    rwa [hip] at htop
  · have hlength := congrArg List.length (hframes.symm.trans hat)
    simp only [List.length_append, List.length_cons] at hlength
    lia

theorem Holds.at_next (h : L.Holds height start object i ip m) (hL : L.Coded height)
    (hk : L.seat.function.Keeps height) (hat : L.At L.next m) :
    m.fetch? (L.seat.frame L.next) = some (.forNext L.slot L.vars L.offset) ∧
      m.stack.size = L.place (3 + L.vars) := by
  have htop := h.top_of_at hat
  rcases htop.stepping h.sound h.on hk with ⟨o, ho, hfetch, -, -⟩
  constructor
  · rw [hfetch, ← ho]
    exact Function.Iterates.next hL
  · have hplace : L.place (3 + L.vars) = L.seat.base + L.slot + (3 + L.vars) := rfl
    rw [htop.size, (hL.height_around hk).1, hplace]
    lia

/-- The instruction with which the loop goes on finds the hidden slots. -/
theorem Holds.iterating (h : L.Holds height start object i ip m) :
    Exec.Iterating (L.seat.frame (L.next + 1)) L.slot object (start.keep object).1 (Int64.ofNat i)
      m.advance := by
  constructor
  · rw [Machine.advance_stack]
    exact h.hidden.collection
  · rw [Machine.advance_stack]
    exact h.hidden.keys
  · rw [Machine.advance_stack]
    exact h.hidden.index

/-- With no item left the turn leaves the loop. -/
theorem Holds.exhausts (h : L.Holds height start object i ip m) (hL : L.Coded height)
    (hk : L.seat.function.Keeps height) (hiterable : object.iterable = true)
    (hat : L.At L.next m)
    (hitem : m.heap.iteration object (start.keep object).1 ((i + 1) % 2 ^ 64) = none) :
    exists m', m.tick = (.running, m') ∧
      start.itemAt m'.heap object ((i + 1) % 2 ^ 64) = none ∧ L.Forgets m' := by
  rcases h.at_next hL hk hat with ⟨hfetch, hsize⟩
  have hframes : m.advance.frames = L.seat.frame L.behind :: L.outer :=
    congrArg Machine.frames (Machine.advance_apply hat)
  have hspent := h.reserves.iteration hiterable ((i + 1) % 2 ^ 64)
  rw [hitem] at hspent
  rw [← word_succ, ← Machine.advance_heap] at hitem
  rcases Exec.continueIteration_none L.vars L.offset hframes h.iterating hitem with
    ⟨s, hstep, hs⟩
  have htick := Machine.tick_of_ok hat hfetch hstep
  refine ⟨_, htick, ?_, ?_⟩
  · show start.itemAt m.advance.heap object _ = none
    rw [Machine.advance_heap]
    exact hspent.symm
  · apply hL.forgets hk (h.on.extends (h.sound.extends htick))
    constructor
    · exact hframes
    · show s.size = L.seat.base + height L.behind
      have hplace : L.place (3 + L.vars) = L.seat.base + L.slot + (3 + L.vars) := rfl
      rw [hs, Machine.advance_stack, hsize, (hL.height_around hk).2.2, hplace]
      lia

/-- With an item left the turn enters the body. -/
theorem Holds.goes_on (h : L.Holds height start object i ip m) (hL : L.Coded height)
    (hk : L.seat.function.Keeps height) (hiterable : object.iterable = true)
    (hat : L.At L.next m) {item : Value × Value}
    (hitem : m.heap.iteration object (start.keep object).1 ((i + 1) % 2 ^ 64) = some item) :
    exists m', m.tick = (.running, m') ∧ L.At L.body m' ∧ L.Enters start object (i + 1) m' ∧
      L.Holds height start object (i + 1) L.body m' := by
  rcases h.at_next hL hk hat with ⟨hfetch, hsize⟩
  have hplace (d : Nat) : L.place d = L.seat.base + L.slot + d := rfl
  have hframes : m.advance.frames = L.seat.frame (L.next + 1) :: L.outer :=
    congrArg Machine.frames (Machine.advance_apply hat)
  have hfound := h.reserves.iteration hiterable ((i + 1) % 2 ^ 64)
  rw [hitem] at hfound
  rw [← word_succ, ← Machine.advance_heap] at hitem
  have hroom : L.seat.base + L.slot + 3 + L.vars <= m.advance.stack.size := by
    rw [Machine.advance_stack, hsize, hplace]
    lia
  have hback : L.offset <= L.next + 1 := by
    unfold next
    lia
  rcases Exec.continueIteration_some hframes h.iterating (Function.Iterates.count hL) hroom hback
    hitem with ⟨s, hstep, hs, hvalues, hindex, hbelow⟩
  have hreserves := h.reserves_tick hL hk
  have htick := Machine.tick_of_ok hat hfetch hstep
  rw [htick] at hreserves
  have hip : L.next + 1 - L.offset = L.body := by
    unfold next body
    lia
  have hat' : L.seat.frame (L.next + 1 - L.offset) :: L.outer = L.seat.frame L.body :: L.outer := by
    rw [hip]
  have hsize' : s.size = L.place (3 + L.vars) := by
    rw [hs, Machine.advance_stack, hsize]
  have hkept (j : Nat) (hj : j < L.place 2) : s[j]? = m.stack[j]? := by
    rw [hbelow j hj, Machine.advance_stack]
  have hhidden : L.Hidden start object (i + 1)
      { m.advance with
        stack := s
        frames := L.seat.frame (L.next + 1 - L.offset) :: L.outer } := by
    constructor
    · exact (hkept _ (place_lt (by decide))).trans h.hidden.collection
    · exact (hkept _ (place_lt (by decide))).trans h.hidden.keys
    · rw [word_succ, word_mod] at hindex
      exact hindex
  refine ⟨_, htick, hat', ⟨hat', hsize', hhidden, item.1, item.2, ?_, ?_⟩, ?_⟩
  · show start.itemAt m.advance.heap object _ = some item
    rw [Machine.advance_heap]
    exact hfound.symm
  · intro d v hd
    rw [hplace, ← Nat.add_assoc]
    exact hvalues d v hd
  · have hon := h.on.extends (h.sound.extends htick)
    refine ⟨h.sound.next htick, hon, Or.inl ⟨hat', ?_⟩, Nat.le_refl _, hL.body_le_next,
      hhidden, hreserves⟩
    show s.size = L.seat.base + height L.body
    rw [hsize', hplace, (hL.height_around hk).2.1]
    lia

/-- The turn with which the loop goes on enters the body with the next item, or leaves the loop if
there is none. -/
theorem Holds.turn_next (h : L.Holds height start object i ip m) (hL : L.Coded height)
    (hk : L.seat.function.Keeps height) (hiterable : object.iterable = true)
    (hat : L.At L.next m) :
    (exists m', m.tick = (.running, m') ∧ L.At L.body m' ∧ L.Enters start object (i + 1) m' ∧
      L.Holds height start object (i + 1) L.body m') ∨
    exists m', m.tick = (.running, m') ∧
      start.itemAt m'.heap object ((i + 1) % 2 ^ 64) = none ∧ L.Forgets m' := by
  cases hitem : m.heap.iteration object (start.keep object).1 ((i + 1) % 2 ^ 64) with
  | none => exact Or.inr (h.exhausts hL hk hiterable hat hitem)
  | some item => exact Or.inl (h.goes_on hL hk hiterable hat hitem)

end Next

/-! ## The turn with which the loop begins -/

section Begin

variable {L : Traversal} {height : Nat -> Nat} {object : Value} {m : Machine} {vs : List Value}

theorem Begins.fetch (h : L.Begins object m) :
    m.fetch? (L.seat.frame L.first) = some (.forBegin L.slot L.vars L.offset) := by
  show (m.heap.function L.seat.id).code.instrs[L.first]? = _
  rw [h.function, h.instr]

theorem Begins.advance (h : L.Begins object m) :
    m.advance = { m with frames := L.seat.frame L.body :: L.outer } :=
  Machine.advance_apply h.at_first

/-- What holds of a machine that is about to begin the loop: the loop is one of the code, the
collection is the topmost value, and no array is hidden yet. -/
structure Ready (L : Traversal) (height : Nat -> Nat) (object : Value) (m : Machine) : Prop where
  begins : L.Begins object m
  sound : m.Sound
  reserves : m.Reserves .nothing
  coded : L.Coded height
  keeps : L.seat.function.Keeps height
  on : L.seat.On m.heap
  size : m.stack.size = L.place 1

theorem Begins.ready (h : L.Begins object m) (hm : m.Reachable) (hhost : m.Contained) :
    exists height, L.Ready height object m := by
  have hmem : L.seat.frame L.first ∈ m.frames := by
    rw [show m.frames = _ from h.at_first]
    exact List.mem_cons_self
  have hon : L.seat.On m.heap := ⟨(hm.sound.on_seat hmem).known, h.function⟩
  have hcompiled : L.seat.function.Compiled := by
    apply hm.sound.compiled
    rw [← h.function, Heap.function, Array.getD_eq_getD_getElem?,
      Array.getElem?_eq_getElem hon.known]
    exact Array.getElem_mem hon.known
  rcases hcompiled.iterates h.instr with ⟨height, hk, hL⟩
  refine ⟨height, h, hm.sound, hm.reserves hhost, hL, hk, hon, ?_⟩
  rcases hm.levelled [] _ _ height h.at_first (h.function ▸ hk) with htop | ⟨base, -, hover⟩
  · rw [htop.size]
    show L.seat.base + height L.first = _
    rw [hL.start]
    rfl
  · rcases hover with ⟨above, c, hframes, -⟩
    have hlength := congrArg List.length (hframes.symm.trans h.at_first)
    simp only [List.length_append, List.length_cons] at hlength
    lia

/-- The machine with the given values behind the hidden slots of a loop that it has just begun. -/
def begun (L : Traversal) (object : Value) (m : Machine) (vs : List Value) (ip : Nat) : Machine :=
  { m with
    heap := (m.heap.keep object).2
    stack := Exec.begun m object ++ vs.toArray
    frames := L.seat.frame ip :: L.outer }

theorem Ready.size_begun (h : L.Ready height object m) (hlength : vs.length = L.vars) (ip : Nat) :
    (L.begun object m vs ip).stack.size = L.place (3 + L.vars) := by
  have hplace (d : Nat) : L.place d = L.seat.base + L.slot + d := rfl
  simp only [begun, Exec.begun, Array.size_append, Array.size_push, List.size_toArray, hlength,
    h.size, hplace]
  lia

theorem Ready.size_succ (h : L.Ready height object m) : m.stack.size + 1 = L.place 2 := by
  rw [h.size]
  rfl

theorem Ready.reserves_begun (h : L.Ready height object m)
    (hvs : forall v, v ∈ vs -> v.Among
      ((m.heap.keep object).2.Known (Reserve.keys (m.stack.size + 1) m.heap object).id))
    (ip : Nat) : (L.begun object m vs ip).Reserves (.keys (L.place 2) m.heap object) := by
  rw [← h.size_succ]
  exact h.reserves.keep hvs

theorem Ready.hidden_begun (h : L.Ready height object m) (vs : List Value) (ip : Nat) :
    L.Hidden m.heap object 0 (L.begun object m vs ip) := by
  rcases Exec.getElem?_begun m object vs with ⟨hbelow, hkeys, hindex, -⟩
  constructor
  · exact (hbelow _ (h.size ▸ place_lt (by decide))).trans h.begins.collection
  · rw [← h.size]
    exact hkeys
  · rw [← h.size_succ]
    exact hindex

/-- With no item at all the turn passes the loop over. -/
theorem Ready.skips (h : L.Ready height object m)
    (hitem : (m.heap.keep object).2.iteration object (m.heap.keep object).1 0 = none) :
    exists m', m.tick = (.running, m') ∧ m.heap.itemAt m'.heap object 0 = none ∧ L.Forgets m' := by
  have hip : L.body + L.offset = L.behind := by
    unfold body behind
    lia
  have hstep : Exec.step (.forBegin L.slot L.vars L.offset) m.advance =
      .ok () (L.begun object m (List.replicate L.vars Value.none) L.behind) := by
    rw [h.begins.advance, ← hip]
    exact Exec.beginIteration_none (f := L.seat.frame L.body) rfl h.begins.collection
      h.begins.iterable hitem
  have htick := Machine.tick_of_ok h.begins.at_first h.begins.fetch hstep
  have hnone : forall v, v ∈ List.replicate L.vars Value.none -> v.Among
      ((m.heap.keep object).2.Known (Reserve.keys (m.stack.size + 1) m.heap object).id) := by
    intro v hv
    rw [List.eq_of_mem_replicate hv]
    simp [Value.Among]
  refine ⟨_, htick, ?_, ?_⟩
  · rw [← (h.reserves_begun hnone L.behind).iteration h.begins.iterable]
    exact hitem
  · apply h.coded.forgets h.keeps (h.on.extends (h.sound.extends htick))
    constructor
    · rfl
    · have hplace : L.place (3 + L.vars) = L.seat.base + L.slot + (3 + L.vars) := rfl
      rw [h.size_begun List.length_replicate, (h.coded.height_around h.keeps).2.2, hplace]
      lia

/-- With a first item the turn enters the body. -/
theorem Ready.enters (h : L.Ready height object m) {item : Value × Value}
    (hitem : (m.heap.keep object).2.iteration object (m.heap.keep object).1 0 = some item) :
    exists m', m.tick = (.running, m') ∧ L.At L.body m' ∧ L.Enters m.heap object 0 m' ∧
      L.Holds height m.heap object 0 L.body m' := by
  have hplace (d : Nat) : L.place d = L.seat.base + L.slot + d := rfl
  generalize hvs : loopVariables object L.vars item.1 item.2 = vs
  have hstep : Exec.step (.forBegin L.slot L.vars L.offset) m.advance =
      .ok () (L.begun object m vs L.body) := by
    rw [h.begins.advance, ← hvs]
    exact Exec.beginIteration_some (f := L.seat.frame L.body) rfl h.begins.collection
      h.begins.iterable hitem
  have htick := Machine.tick_of_ok h.begins.at_first h.begins.fetch hstep
  have hlength : vs.length = L.vars := by
    rw [← hvs]
    exact length_loopVariables (Function.Iterates.count h.coded)
  have hamong := ((h.reserves.heap.keep object (m.stack.size + 1)).1).iteration hitem
  have hreserves := h.reserves_begun (hvs ▸ forall_mem_loopVariables hamong.1 hamong.2) L.body
  have hsize := h.size_begun hlength L.body
  have hhidden := h.hidden_begun vs L.body
  refine ⟨_, htick, rfl, ⟨rfl, hsize, hhidden, item.1, item.2, ?_, ?_⟩, ?_⟩
  · rw [Nat.zero_mod, ← hreserves.iteration h.begins.iterable]
    exact hitem
  · intro d v hd
    rw [show L.place (3 + d) = m.stack.size + 2 + d by rw [h.size, hplace, hplace]; lia]
    exact ((Exec.getElem?_begun m object vs).2.2.2 d).trans (hvs ▸ hd)
  · refine ⟨h.sound.next htick, h.on.extends (h.sound.extends htick), Or.inl ⟨rfl, ?_⟩,
      Nat.le_refl _, h.coded.body_le_next, hhidden, hreserves⟩
    rw [hsize, hplace, (h.coded.height_around h.keeps).2.1]
    lia

/-- The first turn enters the body with the first item, or leaves the loop if there is none. -/
theorem Ready.tick (h : L.Ready height object m) :
    (exists m', m.tick = (.running, m') ∧ L.At L.body m' ∧ L.Enters m.heap object 0 m' ∧
      L.Holds height m.heap object 0 L.body m') ∨
    exists m', m.tick = (.running, m') ∧ m.heap.itemAt m'.heap object 0 = none ∧ L.Forgets m' := by
  cases hitem : (m.heap.keep object).2.iteration object (m.heap.keep object).1 0 with
  | none => exact Or.inr (h.skips hitem)
  | some item => exact Or.inl (h.enters hitem)

end Begin

/-! ## Rounds -/

section Rounds

variable {L : Traversal} {height : Nat -> Nat} {object : Value} {m m1 : Machine}
variable {entered : List Machine}

/-- The listed machines are those in which the body was entered. -/
theorem Rounds.holds (h : L.Rounds m entered m1) (hready : L.Ready height object m) :
    exists i ip, entered.length = i + 1 ∧ L.Holds height m.heap object i ip m1 ∧
      forall j e, entered[j]? = some e -> L.Enters m.heap object j e := by
  have hL := hready.coded
  have hk := hready.keeps
  induction h with
  | @begins m1 htick hat =>
      rcases hready.tick with ⟨m', htick', -, henters, hholds⟩ | ⟨m', htick', -, hforgets⟩
      · rw [htick] at htick'
        cases htick'
        refine ⟨0, L.body, rfl, hholds, ?_⟩
        intro j e he
        cases j with
        | zero =>
            cases he
            exact henters
        | succ j => simp at he
      · rw [htick] at htick'
        cases htick'
        exact absurd (hat.ip_eq hforgets.at_behind) hL.body_ne_behind
  | @inside entered m1 m2 _ hnot htick hin ih =>
      rcases ih with ⟨i, ip, hlength, hholds, henters⟩
      rcases hholds.turn hL hk hnot with ⟨t, m', htick', hholds'⟩ | hleaves
      · rw [htick] at htick'
        cases htick'
        exact ⟨i, t, hlength, hholds', henters⟩
      · rw [htick] at hleaves
        exact absurd hin hleaves.not_in
  | @again entered m1 m2 _ hat htick hbody ih =>
      rcases ih with ⟨i, ip, hlength, hholds, henters⟩
      rcases hholds.turn_next hL hk hready.begins.iterable hat with
        ⟨m', htick', -, henters', hholds'⟩ | ⟨m', htick', -, hforgets⟩
      · rw [htick] at htick'
        cases htick'
        refine ⟨i + 1, L.body, by simp [hlength], hholds', ?_⟩
        intro j e he
        rw [List.getElem?_append] at he
        split at he
        · exact henters j e he
        · have hj : j = i + 1 := by
            have hlt := (List.getElem?_eq_some_iff.mp he).1
            simp only [List.length_singleton] at hlt
            lia
          rw [hj, hlength, Nat.sub_self] at he
          cases he
          rw [hj]
          exact henters'
      · rw [htick] at htick'
        cases htick'
        exact absurd (hbody.ip_eq hforgets.at_behind) hL.body_ne_behind

/-- A turn of a loop in progress stays in the body, enters the next round or leaves the loop. -/
theorem Rounds.turn (h : L.Rounds m entered m1) (hready : L.Ready height object m) :
    L.Turn object m entered m1 m1.tick := by
  have hL := hready.coded
  have hk := hready.keeps
  have hiterable := hready.begins.iterable
  rcases h.holds hready with ⟨i, ip, hlength, hholds, henters⟩
  by_cases hat : L.At L.next m1
  · rcases hholds.turn_next hL hk hiterable hat with
      ⟨m', htick, hbody, -, -⟩ | ⟨m', htick, hnone, hforgets⟩
    · rw [htick]
      exact .again hat (h.again hat htick hbody)
    · rw [← hlength] at hnone
      rw [htick]
      refine .exhausted hat hnone (Heap.spent_of_itemAt hiterable ?_ hnone) hforgets
      intro j hj
      rcases (henters j _ (List.getElem?_eq_getElem hj)).item with ⟨key, value, hitem, -⟩
      refine ⟨(entered[j]).heap, ?_⟩
      rw [hitem]
      exact Option.some_ne_none _
  · rcases hholds.turn hL hk hat with ⟨t, m', htick, hholds'⟩ | hleaves
    · rw [htick]
      exact .inside (h.inside hat htick hholds'.isIn)
    · exact .leaves hat hleaves

theorem Ready.opens (h : L.Ready height object m) : L.Opens object m m.tick := by
  rcases h.tick with ⟨m', htick, hbody, -, -⟩ | ⟨m', htick, hnone, hforgets⟩
  · rw [htick]
    exact .enters (.begins htick hbody)
  · rw [htick]
    exact .skips hnone (Heap.spent_of_itemAt h.begins.iterable (by simp) hnone) hforgets

end Rounds

end Traversal

/-- A loop over a collection in a reachable machine takes the items of the collection in order, one
in each round, until its body leaves it or no item is left. -/
theorem Machine.collection_is_taken_in_order {L : Traversal} {object : Value} {m : Machine}
    (hm : m.Reachable) (hhost : m.Contained) (hbegins : L.Begins object m) :
    L.Ordered object m := by
  rcases hbegins.ready hm hhost with ⟨height, hready⟩
  constructor
  · exact hready.size
  · exact hready.opens
  · intro entered m1 h
    rcases h.holds hready with ⟨i, ip, -, -, henters⟩
    exact henters
  · intro entered m1 h
    rcases h.holds hready with ⟨i, ip, hlength, hholds, -⟩
    exact ⟨i, hlength, hholds.hidden⟩
  · exact fun entered m1 h => h.turn hready
  · exact fun ip i hlo hhi hi => hready.coded.spares ip i hlo hhi hi
  · exact fun id _ => Table.keysInOrder _

/-! ## A loop that changes its table -/

def changing : String :=
  "let t = \x7bb: 1, a: 2\x7d; for k, v in t \x7b t.c = v; delete(t, \"b\") \x7d"

def changed : Machine :=
  ((Interpreter.begun changing).run 7).2

def changingLoop : Traversal where
  seat := changed.seat ⟨0, 7, 0⟩
  outer := []
  first := 7
  slot := 1
  vars := 2
  offset := 9

theorem changed_table_is_taken_in_order :
    changed.Reachable ∧ changed.Contained ∧ changingLoop.Begins (.table 0) changed ∧
      changingLoop.Ordered (.table 0) changed := by
  have hreachable : changed.Reachable := (Interpreter.reachable_begun (by decide +kernel)).run 7
  have hfacts : changed.natives.size = 0 ∧ changed.frames = [⟨0, 7, 0⟩] ∧
      changed.fetch? ⟨0, 7, 0⟩ = some (.forBegin 1 2 9) ∧
      changed.stack[1]? = some (.table 0) := by
    decide +kernel
  rcases hfacts with ⟨hnatives, hframes, hinstr, hcollection⟩
  have hhost : changed.Contained := by
    intro native hnative
    rw [Array.eq_empty_of_size_eq_zero hnatives] at hnative
    simp at hnative
  have hbegins : changingLoop.Begins (.table 0) changed :=
    ⟨hframes, rfl, hinstr, hcollection, rfl⟩
  exact ⟨hreachable, hhost, hbegins,
    Machine.collection_is_taken_in_order hreachable hhost hbegins⟩

/-! ## A host that brings in code of its own -/

/-- Takes the variable and the index of the loop that it is called in, and puts the index one and
another variable in their place. -/
def indexMover : Function where
  code :=
    { instrs :=
        #[.pop, .pop, .pop, .literal (.int 1), .literal .none, .literal .none, .literal .none,
          .ret] }

def skipping : String :=
  "let f = host() for v in [10, 20, 30] \x7b f() \x7d"

def skipped : Machine :=
  let host := (Interpreter.new {} Files.empty).addNative "host" (Native.giving indexMover)
  (((Interpreter.load host.machine none skipping false).toOption.getD default).run 7).2

def skippingLoop : Traversal where
  seat := skipped.seat ⟨0, 7, 0⟩
  outer := []
  first := 7
  slot := 1
  vars := 1
  offset := 4

namespace Traversal

/-- Turns that stay in the body enter no round. -/
theorem Rounds.stay {L : Traversal} {m m1 m2 : Machine} {entered : List Machine} {n : Nat}
    (h : L.Rounds m entered m1) (hrun : m1.run n = (.running, m2))
    (hin : forall j, j < n -> ¬ L.At L.next (m1.run j).2 ∧ L.In (m1.run (j + 1)).2) :
    L.Rounds m entered m2 := by
  induction n generalizing m1 with
  | zero =>
      cases hrun
      exact h
  | succ n ih =>
      rcases htick : m1.tick with ⟨status, m'⟩
      cases status with
      | running =>
          rw [Machine.run_succ_of_tick htick] at hrun
          have hfirst := hin 0 (Nat.succ_pos n)
          rw [Machine.run_succ_of_tick htick] at hfirst
          refine ih (h.inside hfirst.1 htick hfirst.2) hrun fun j hj => ?_
          rw [← Machine.run_succ_of_tick htick, ← Machine.run_succ_of_tick htick]
          exact hin (j + 1) (Nat.succ_lt_succ hj)
      | _ =>
          rw [Machine.run, htick] at hrun
          cases hrun

end Traversal

namespace Skipping

def first : Machine :=
  skipped.tick.2

def second : Machine :=
  (first.run 11).2.tick.2

def inLoop (m : Machine) : Bool :=
  match m.frames.getLast? with
  | some f => f.function == 0 && f.base == 0 && 8 <= f.ip && f.ip <= 11
  | none => false

theorem facts :
    skipped.frames = [⟨0, 7, 0⟩] ∧ skipped.fetch? ⟨0, 7, 0⟩ = some (.forBegin 1 1 4) ∧
      skipped.stack[1]? = some (.array 2) ∧ skipped.tick.1 = .running ∧
      first.frames = [⟨0, 8, 0⟩] ∧ (first.run 11).1 = .running ∧
      (first.run 11).2.frames = [⟨0, 11, 0⟩] ∧ (first.run 11).2.tick.1 = .running ∧
      second.frames = [⟨0, 8, 0⟩] ∧ second.stack[3]? = some (.integer 2) ∧
      forall j, j < 11 -> (first.run j).2.frames ≠ [⟨0, 11, 0⟩] ∧
        inLoop (first.run (j + 1)).2 = true := by
  decide +kernel

theorem in_of_inLoop {m : Machine} (h : inLoop m = true) : skippingLoop.In m := by
  unfold inLoop at h
  split at h
  · rename_i f hlast
    simp only [Bool.and_eq_true, beq_iff_eq, decide_eq_true_eq] at h
    rcases h with ⟨⟨⟨hfunction, hbase⟩, hlo⟩, hhi⟩
    refine ⟨m.frames.dropLast, f.ip, ?_, hlo, hhi⟩
    have hf : skippingLoop.seat.frame f.ip = f := by
      rcases f with ⟨function, ip, base⟩
      cases hfunction
      cases hbase
      rfl
    rw [hf]
    exact (List.dropLast_append_getLast? _ hlast).symm
  · cases h

theorem rounds : skippingLoop.Rounds skipped [first, second] second := by
  rcases facts with ⟨-, -, -, hbegins, hfirst, hrun, hnext, hagain, hsecond, -, hin⟩
  have hbegun : skippingLoop.Rounds skipped [first] first :=
    .begins (Prod.ext hbegins rfl) hfirst
  have hstays : skippingLoop.Rounds skipped [first] (first.run 11).2 := by
    refine hbegun.stay (Prod.ext hrun rfl) fun j hj => ?_
    exact ⟨(hin j hj).1, in_of_inLoop (hin j hj).2⟩
  exact hstays.again hnext (Prod.ext hagain rfl) hsecond

end Skipping

/-- A function that no compiler has made can reach the hidden slots of the loop that it is called
in: the second round has the third item. -/
theorem moved_index_skips_item :
    (exists p, compile 0 none skipping = .ok p ∧ skipped.heap.function 0 = p.main) ∧
    skippingLoop.Begins (.array 2) skipped ∧ ¬ skippingLoop.Ordered (.array 2) skipped := by
  rcases Skipping.facts with ⟨hframes, hinstr, hcollection, -, -, -, -, -, -, hindex, -⟩
  have hcompiles : (compile 0 none skipping).toOption.map
      (fun p => decide (skipped.heap.function 0 = p.main)) = some true := by
    decide +kernel
  refine ⟨?_, ⟨hframes, rfl, hinstr, hcollection, rfl⟩, fun hordered => ?_⟩
  · rcases exists_of_toOption_map hcompiles with ⟨p, hp, hmain⟩
    exact ⟨p, hp, of_decide_eq_true hmain⟩
  · have henters := hordered.enters _ _ Skipping.rounds 1 Skipping.second rfl
    have hone : Skipping.second.stack[3]? = some (.integer 1) := henters.hidden.index
    rw [hindex] at hone
    cases hone

end StackScript
