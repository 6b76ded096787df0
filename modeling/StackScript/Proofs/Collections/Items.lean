import StackScript.Proofs.Machine.Seclusion

/-!
# The items of an iteration

An iteration over a table or a text begins with a new array of keys or characters, which nothing but
a hidden slot names.  As long as that array is hidden the items are those of the collection: the
elements that an array has now, the keys that a table had at the beginning with the values that it
has now, and the characters of a text.
-/

namespace StackScript

/-! ## Items -/

/-- The list of keys is in order and has each key of the table once. -/
structure Table.KeysInOrder (t : Table) : Prop where
  increasing : t.orderedKeys.Pairwise fun a b => compare a b = .lt
  complete : forall k, k ∈ t.orderedKeys ↔ t.contains k = true

/-- Whether there is an iteration over a value. -/
def Value.iterable : Value -> Bool
  | .array _ | .table _ | .text _ => true
  | _ => false

namespace Heap

/-- The key and the value at an index of an iteration that began on the heap `start` and has come to
the heap `now`. -/
def itemAt (start now : Heap) : Value -> Nat -> Option (Value × Value)
  | .array id, i => (now.items id)[i]?.map fun v => (.integer (Int64.ofNat i), v)
  | .table id, i =>
    (start.entries id).orderedKeys[i]?.map fun k => (.text k, (now.entries id)[k]?.getD .none)
  | .text s, i => s.toList[i]?.map fun c => (.integer (Int64.ofNat i), .text (String.ofList [c]))
  | _, _ => none

/-- An iteration that has come to the heap `now` can be over after so many rounds. -/
def Spent (start now : Heap) (count : Nat) : Value -> Prop
  | .array id => (now.items id).size <= count
  | .table id => count = (start.entries id).size
  | .text s => count = s.length
  | _ => False

/-- The keys to keep for an iteration over a value, and the heap with them. -/
def keep (h : Heap) : Value -> Value × Heap
  | .table id => h.newArray (sortedKeys (h.entries id))
  | .text s => h.newArray (characters s)
  | _ => (.none, h)

end Heap

/-- What is hidden during an iteration that began on a heap. -/
def Reserve.keys (above : Nat) (start : Heap) : Value -> Reserve
  | .table id => ⟨above, some start.arrays.size, Heap.sortedKeys (start.entries id)⟩
  | .text s => ⟨above, some start.arrays.size, characters s⟩
  | _ => .nothing

section Items

variable {start now h : Heap} {object key value : Value} {above i n : Nat} {m : Machine}

theorem Table.keysInOrder (t : Table) : t.KeysInOrder := by
  refine ⟨t.orderedKeys_increasing, fun k => ?_⟩
  rw [mem_orderedKeys_iff, contains_eq_isSome, Option.isSome_iff_exists]

/-- An iteration whose keys are hidden has the items of the collection. -/
theorem Machine.Reserves.iteration (hm : m.Reserves (.keys above start object))
    (hobject : object.iterable = true) (i : Nat) :
    m.heap.iteration object (start.keep object).1 i = start.itemAt m.heap object i := by
  have hitems := hm.items start.arrays.size
  cases object with
  | array id => rfl
  | table id =>
      have hkeys : m.heap.items start.arrays.size = Heap.sortedKeys (start.entries id) :=
        hitems rfl
      show (m.heap.items start.arrays.size)[i]?.map _ = _
      rw [hkeys, Heap.sortedKeys, Heap.itemAt]
      simp only [List.getElem?_toArray, List.getElem?_map, Option.map_map]
      rfl
  | text s =>
      have hkeys : m.heap.items start.arrays.size = characters s := hitems rfl
      show (m.heap.items start.arrays.size)[i]?.map _ = _
      rw [hkeys, characters, Heap.itemAt]
      simp only [List.getElem?_toArray, List.getElem?_map, Option.map_map]
      rfl
  | _ => cases hobject

/-- An iteration that has had an item for each number below `n` and has none at `n` is over. -/
theorem Heap.spent_of_itemAt (hobject : object.iterable = true)
    (hbelow : forall j, j < n -> exists h, start.itemAt h object (j % 2 ^ 64) ≠ none)
    (hnone : start.itemAt now object (n % 2 ^ 64) = none) : start.Spent now n object := by
  -- A collection that is spent is no larger than a word can count.
  have hfixed {size : Nat} (hlt : forall j, j < n -> j % 2 ^ 64 < size)
      (hle : size <= n % 2 ^ 64) : n = size := by
    have hmod := Nat.mod_lt n (show 0 < 2 ^ 64 by decide)
    rcases Nat.lt_or_ge size n with hover | hunder
    · have hsize := hlt size hover
      rw [Nat.mod_eq_of_lt (by lia)] at hsize
      lia
    · have hmod' := Nat.mod_le n (2 ^ 64)
      lia
  cases object with
  | array id =>
      have hsize : (now.items id).size <= n % 2 ^ 64 := by simpa [Heap.itemAt] using hnone
      exact Nat.le_trans hsize (Nat.mod_le n _)
  | table id =>
      rw [Heap.Spent, ← Table.length_orderedKeys]
      apply hfixed
      · simpa [Heap.itemAt] using hnone
      · intro j hj
        rcases hbelow j hj with ⟨h, hne⟩
        simpa [Heap.itemAt] using hne
  | text s =>
      rw [Heap.Spent, ← String.length_toList]
      apply hfixed
      · simpa [Heap.itemAt] using hnone
      · intro j hj
        rcases hbelow j hj with ⟨h, hne⟩
        simpa [Heap.itemAt] using hne
  | _ => cases hobject

/-! ## Hiding the keys -/

/-- A new array is hidden as long as nothing names it. -/
theorem Heap.Hides.newArray_hidden (hh : h.Hides none) {items : Array Value}
    (hitems : forall v, v ∈ items -> v.Among (h.Known none)) :
    (h.newArray items).2.Hides (some h.arrays.size) ∧
      (h.newArray items).2.items h.arrays.size = items ∧
      forall i, h.Known none i -> (h.newArray items).2.Known (some h.arrays.size) i := by
  have hknown : forall i, h.Known none i -> (h.newArray items).2.Known (some h.arrays.size) i := by
    intro i hi
    have hlt := hi.1
    constructor
    · simp only [Heap.newArray, Array.size_push]
      lia
    · intro heq
      have hsame := Option.some.inj heq
      lia
  constructor
  · constructor
    · intro id hid
      cases hid
      simp [Heap.newArray]
    · intro items' hitems' v hv
      rcases Array.mem_push.mp hitems' with hold | rfl
      · exact (hh.arrays items' hold v hv).mono hknown
      · exact (hitems v hv).mono hknown
    · intro t ht
      exact (hh.tables t ht).mono hknown
  · constructor
    · simp [Heap.items, Heap.newArray, Array.getD_eq_getD_getElem?]
    · exact hknown

theorem Heap.Hides.keep (hh : h.Hides none) (object : Value) (above : Nat) :
    (h.keep object).2.Hides (Reserve.keys above h object).id ∧
      (forall id, (Reserve.keys above h object).id = some id ->
        (h.keep object).2.items id = (Reserve.keys above h object).items) ∧
      forall i, h.Known none i -> (h.keep object).2.Known (Reserve.keys above h object).id i := by
  have hnew {items : Array Value} (hitems : forall v, v ∈ items -> v.Among (h.Known none)) :
      (h.newArray items).2.Hides (some h.arrays.size) ∧
        (forall id, some h.arrays.size = some id -> (h.newArray items).2.items id = items) ∧
        forall i, h.Known none i -> (h.newArray items).2.Known (some h.arrays.size) i := by
    rcases hh.newArray_hidden hitems with ⟨hhides, hsame, hknown⟩
    refine ⟨hhides, ?_, hknown⟩
    intro id hid
    cases hid
    exact hsame
  cases object with
  | table id => exact hnew fun v hv => (Heap.plain_sortedKeys _ v hv).among
  | text s => exact hnew fun v hv => (Heap.plain_characters s v hv).among
  | _ => exact ⟨hh, by simp [Reserve.keys, Reserve.nothing], fun _ hi => hi⟩

/-- A machine hides the keys of an iteration that it has just begun. -/
theorem Machine.Reserves.keep (hm : m.Reserves .nothing) {vs : List Value} {frames : List Frame}
    (hvs : forall v, v ∈ vs ->
      v.Among ((m.heap.keep object).2.Known (Reserve.keys (m.stack.size + 1) m.heap object).id)) :
    Machine.Reserves
      { m with
        heap := (m.heap.keep object).2
        stack := ((m.stack.push (m.heap.keep object).1).push (.integer 0)) ++ vs.toArray
        frames := frames }
      (.keys (m.stack.size + 1) m.heap object) := by
  rcases hm.heap.keep object (m.stack.size + 1) with ⟨hhides, hitems, hknown⟩
  constructor
  · exact hhides
  · exact hitems
  · exact hm.globals.mono hknown
  · intro j v hj hv
    change (((m.stack.push (m.heap.keep object).1).push (.integer 0)) ++ vs.toArray)[j]? = some v
      at hv
    rw [Array.getElem?_append, Array.size_push, Array.size_push] at hv
    split at hv
    · rw [Array.getElem?_push, Array.size_push] at hv
      split at hv
      · cases hv
        simp [Value.Among]
      · rw [Array.getElem?_push] at hv
        split at hv
        · -- The keys are where they may be, and there are none for an array.
          rename_i heq
          cases hv
          cases object with
          | table id => exact absurd (congrArg Nat.succ heq) hj
          | text s => exact absurd (congrArg Nat.succ heq) hj
          | _ => simp [Heap.keep, Value.Among]
        · exact (hm.stack j v (Nat.succ_ne_zero j) hv).mono hknown
    · exact hvs v (List.mem_toArray.mp (Array.mem_of_getElem? hv))
  · have hfunctions : (m.heap.keep object).2.functions = m.heap.functions := by
      cases object <;> rfl
    intro f hf
    exact hm.compiled f (hfunctions ▸ hf)
  · exact hm.lawful
  · exact hm.contained

end Items

/-! ## The instructions of an iteration -/

namespace Exec

section Instructions

variable {m : Machine} {f : Frame} {rest : List Frame} {slot vars offset : Nat} {vs : List Value}
variable {object keys : Value} {n : Int64}

theorem pushAll_apply (vs : List Value) :
    pushAll vs m = .ok () { m with stack := m.stack ++ vs.toArray } := by
  induction vs generalizing m with
  | nil => simp [pushAll, pure, EStateM.pure]
  | cons v vs ih =>
      have hstack : m.stack.push v ++ vs.toArray = m.stack ++ (v :: vs).toArray := by
        apply Array.ext'
        simp
      show (push v >>= fun _ => pushAll vs) m = _
      rw [bind_ok push_apply, ih, hstack]

/-- What a value is written to is there afterwards, and what lies below is as before. -/
theorem setLocals_apply (hf : m.frames = f :: rest)
    (hslots : f.base + slot + vs.length <= m.stack.size) :
    exists s, setLocals slot vs m = .ok () { m with stack := s } ∧ s.size = m.stack.size ∧
      (forall d v, vs[d]? = some v -> s[f.base + slot + d]? = some v) ∧
      forall j, j < f.base + slot -> s[j]? = m.stack[j]? := by
  induction vs generalizing m slot with
  | nil => exact ⟨m.stack, rfl, rfl, by simp, fun _ _ => rfl⟩
  | cons v vs ih =>
      rw [List.length_cons] at hslots
      have hlt : f.base + slot < m.stack.size := by lia
      have hrest := @ih { m with stack := m.stack.setIfInBounds (f.base + slot) v } (slot + 1) hf
        (by simp; lia)
      rcases hrest with ⟨s, hset, hsize, hvalues, hbelow⟩
      have hplace : forall j, j <= f.base + slot ->
          s[j]? = (m.stack.setIfInBounds (f.base + slot) v)[j]? := fun j hj => hbelow j (by lia)
      refine ⟨s, ?_, ?_, ?_, ?_⟩
      · rw [setLocals, bind_ok (setLocal_apply hf hlt), hset]
      · rw [hsize, Array.size_setIfInBounds]
      · intro d w hd
        cases d with
        | zero =>
            cases hd
            rw [Nat.add_zero, hplace _ (Nat.le_refl _)]
            simp [hlt]
        | succ d =>
            rw [show f.base + slot + (d + 1) = f.base + (slot + 1) + d by lia]
            exact hvalues d w hd
      · intro j hj
        rw [hplace j (Nat.le_of_lt hj), Array.getElem?_setIfInBounds_ne (by lia)]

theorem iterationKeys_apply (hobject : object.iterable = true) :
    iterationKeys object m =
      .ok (m.heap.keep object).1 { m with heap := (m.heap.keep object).2 } := by
  cases object with
  | array | table | text => rfl
  | _ => cases hobject

/-- The stack with the hidden slots of an iteration that begins. -/
def begun (m : Machine) (object : Value) : Array Value :=
  (m.stack.push (m.heap.keep object).1).push (.integer 0)

theorem getElem?_begun (m : Machine) (object : Value) (vs : List Value) :
    (forall j, j < m.stack.size -> (begun m object ++ vs.toArray)[j]? = m.stack[j]?) ∧
      (begun m object ++ vs.toArray)[m.stack.size]? = some (m.heap.keep object).1 ∧
      (begun m object ++ vs.toArray)[m.stack.size + 1]? = some (.integer 0) ∧
      forall d, (begun m object ++ vs.toArray)[m.stack.size + 2 + d]? = vs[d]? := by
  have hsize : (begun m object).size = m.stack.size + 2 := by simp [begun]
  have hbelow (j : Nat) (hj : j < m.stack.size + 2) :
      (begun m object ++ vs.toArray)[j]? = (begun m object)[j]? :=
    Array.getElem?_append_left (by lia)
  refine ⟨?_, ?_, ?_, ?_⟩
  · intro j hj
    rw [hbelow j (by lia), begun, Array.getElem?_push, if_neg (by simp; lia),
      Array.getElem?_push, if_neg (by lia)]
  · rw [hbelow _ (by lia), begun, Array.getElem?_push, if_neg (by simp), Array.getElem?_push,
      if_pos rfl]
  · rw [hbelow _ (by lia), begun, Array.getElem?_push, if_pos (by simp)]
  · intro d
    rw [Array.getElem?_append_right (by lia), hsize, Nat.add_sub_cancel_left]
    exact List.getElem?_toArray

theorem beginIteration_some {item : Value × Value} (hf : m.frames = f :: rest)
    (hobject : m.stack[f.base + slot]? = some object) (hiterable : object.iterable = true)
    (hitem : (m.heap.keep object).2.iteration object (m.heap.keep object).1 0 = some item) :
    beginIteration slot vars offset m =
      .ok ()
        { m with
          heap := (m.heap.keep object).2
          stack := begun m object ++ (loopVariables object vars item.1 item.2).toArray } := by
  unfold beginIteration
  rw [bind_ok (getLocal_apply hf hobject), bind_ok (iterationKeys_apply hiterable),
    bind_ok push_apply, bind_ok push_apply, bind_ok get_apply]
  simp only [hitem]
  exact pushAll_apply _

theorem beginIteration_none (hf : m.frames = f :: rest)
    (hobject : m.stack[f.base + slot]? = some object) (hiterable : object.iterable = true)
    (hnone : (m.heap.keep object).2.iteration object (m.heap.keep object).1 0 = none) :
    beginIteration slot vars offset m =
      .ok ()
        { m with
          heap := (m.heap.keep object).2
          stack := begun m object ++ (List.replicate vars Value.none).toArray
          frames := { f with ip := f.ip + offset } :: rest } := by
  unfold beginIteration
  rw [bind_ok (getLocal_apply hf hobject), bind_ok (iterationKeys_apply hiterable),
    bind_ok push_apply, bind_ok push_apply, bind_ok get_apply]
  simp only [hnone]
  rw [bind_ok (pushAll_apply _)]
  exact jumpForward_apply hf

/-- The hidden slots of an iteration. -/
structure Iterating (f : Frame) (slot : Nat) (object keys : Value) (n : Int64) (m : Machine) :
    Prop where
  object : m.stack[f.base + slot]? = some object
  keys : m.stack[f.base + (slot + 1)]? = some keys
  index : m.stack[f.base + (slot + 2)]? = some (.integer n)

theorem continueIteration_some {item : Value × Value} (hf : m.frames = f :: rest)
    (h : Iterating f slot object keys n m) (hvars : vars = 1 ∨ vars = 2)
    (hslots : f.base + slot + 3 + vars <= m.stack.size) (hback : offset <= f.ip)
    (hitem : m.heap.iteration object keys (n.toUInt64 + 1).toNat = some item) :
    exists s,
      continueIteration slot vars offset m =
        .ok () { m with stack := s, frames := { f with ip := f.ip - offset } :: rest } ∧
      s.size = m.stack.size ∧
      (forall d v, (loopVariables object vars item.1 item.2)[d]? = some v ->
        s[f.base + slot + 3 + d]? = some v) ∧
      s[f.base + (slot + 2)]? = some (.integer (Int64.ofNat (n.toUInt64 + 1).toNat)) ∧
      forall j, j < f.base + slot + 2 -> s[j]? = m.stack[j]? := by
  have hlength : (loopVariables object vars item.1 item.2).length = vars :=
    length_loopVariables hvars
  have hlt : f.base + (slot + 2) < m.stack.size := by lia
  generalize hi : (n.toUInt64 + 1).toNat = i at hitem
  have hset := @setLocals_apply
    { m with stack := m.stack.setIfInBounds (f.base + (slot + 2)) (.integer (Int64.ofNat i)) }
    f rest (slot + 3) (loopVariables object vars item.1 item.2) hf (by simp [hlength]; lia)
  rcases hset with ⟨s, hset, hsize, hvalues, hbelow⟩
  refine ⟨s, ?_, ?_, ?_, ?_, ?_⟩
  · unfold continueIteration
    rw [bind_ok (getLocal_apply hf h.object), bind_ok (getLocal_apply hf h.keys),
      bind_ok (getLocal_apply hf h.index),
      bind_ok (show nextIndex (.integer n) m = .ok i m by rw [← hi]; rfl),
      bind_ok (setLocal_apply hf hlt), bind_ok get_apply]
    simp only [hitem]
    rw [bind_ok hset]
    exact jumpBack_apply hf hback
  · rw [hsize, Array.size_setIfInBounds]
  · intro d v hd
    rw [show f.base + slot + 3 + d = f.base + (slot + 3) + d by lia]
    exact hvalues d v hd
  · rw [hbelow _ (by lia)]
    simp [hlt]
  · intro j hj
    rw [hbelow j (by lia), Array.getElem?_setIfInBounds_ne (by lia)]

theorem continueIteration_none (vars offset : Nat) (hf : m.frames = f :: rest)
    (h : Iterating f slot object keys n m)
    (hnone : m.heap.iteration object keys (n.toUInt64 + 1).toNat = none) :
    exists s, continueIteration slot vars offset m = .ok () { m with stack := s } ∧
      s.size = m.stack.size := by
  have hlt : f.base + (slot + 2) < m.stack.size := (Array.getElem?_eq_some_iff.mp h.index).1
  generalize hi : (n.toUInt64 + 1).toNat = i at hnone
  refine ⟨m.stack.setIfInBounds (f.base + (slot + 2)) (.integer (Int64.ofNat i)), ?_,
    Array.size_setIfInBounds⟩
  unfold continueIteration
  rw [bind_ok (getLocal_apply hf h.object), bind_ok (getLocal_apply hf h.keys),
    bind_ok (getLocal_apply hf h.index),
    bind_ok (show nextIndex (.integer n) m = .ok i m by rw [← hi]; rfl),
    bind_ok (setLocal_apply hf hlt), bind_ok get_apply]
  simp only [hnone]
  rfl

end Instructions

end Exec
end StackScript
