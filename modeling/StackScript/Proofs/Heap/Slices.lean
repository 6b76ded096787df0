import StackScript.Machine.Iteration
import StackScript.Proofs.Heap.Elements
import StackScript.Proofs.Source.Slice

/-!
# Slices

A text is sliced as the sequence of its characters and an array as the sequence of its items, so
what a slice holds is said once for both.  A bound below zero counts from the end and then every
bound is moved into range; a slice whose bounds are the wrong way round is empty.
-/

namespace StackScript

/-! ## Sequences -/

/-- What can be sliced: a text, or an array by its number. -/
inductive Sequence where
  | text (s : String)
  | array (id : Nat)

namespace Sequence

def value : Sequence -> Value
  | text s => .text s
  | array id => .array id

/-- The characters of a text, each as a text, or the items of an array. -/
def elements (h : Heap) : Sequence -> List Value
  | text s => (characters s).toList
  | array id => (h.items id).toList

def isText : Sequence -> Bool
  | text _ => true
  | array _ => false

theorem value_injective {x y : Sequence} (h : x.value = y.value) : x = y := by
  cases x <;> cases y <;> cases h <;> rfl

end Sequence

/-- The place among so many that a bound stands for: the number is added to a bound below zero,
and the sum is moved into range. -/
def boundPlace (bound : Int64) (size : Nat) : Nat :=
  let place := if bound.toInt < 0 then bound.toInt + size else bound.toInt
  (max 0 (min place size)).toNat

namespace Heap

/-- Slicing between two bounds succeeds, and gives a sequence of the same kind with the given
elements. -/
def Slices (h : Heap) (x : Sequence) (start stop : Value) (es : List Value) : Prop :=
  exists (y : Sequence) (h' : Heap), h.slice x.value start stop = .ok y.value h' ∧
    y.isText = x.isText ∧ y.elements h' = es

section Slices

variable {h : Heap} {x : Sequence} {start stop : Value} {low high : Nat}

theorem clampIndex_eq (bound : Int64) (size : Nat) :
    clampIndex bound size = boundPlace bound size := by
  simp only [clampIndex, boundPlace]
  split <;> omega

theorem boundPlace_of_nonneg {bound : Int64} {size : Nat} (hbound : 0 <= bound.toInt)
    (hsize : bound.toInt <= size) : boundPlace bound size = bound.toInt.toNat := by
  simp only [boundPlace]
  omega

theorem length_elements_text (s : String) : ((Sequence.text s).elements h).length = s.length := by
  simp [Sequence.elements, characters, String.length_toList]

theorem length_elements_array (id : Nat) :
    ((Sequence.array id).elements h).length = (h.items id).size := by
  simp [Sequence.elements]

/-- A slice fails with its bounds. -/
theorem slice_error {f : Fault}
    (hbounds : sliceBounds start stop (x.elements h).length = .error f) :
    h.slice x.value start stop = .error f h := by
  cases x with
  | text s =>
      rw [length_elements_text] at hbounds
      simp only [slice, Sequence.value, hbounds]
      rfl
  | array id =>
      rw [length_elements_array] at hbounds
      simp only [slice, Sequence.value, hbounds]
      rfl

/-- A slice holds what stands between the places of its bounds. -/
theorem slices_of_bounds
    (hbounds : sliceBounds start stop (x.elements h).length = .ok (low, high)) :
    h.Slices x start stop (((x.elements h).take high).drop low) := by
  cases x with
  | text s =>
      rw [length_elements_text] at hbounds
      refine ⟨.text (String.ofList ((s.toList.drop low).take (high - low))), h, ?_, rfl, ?_⟩
      · simp only [slice, Sequence.value, hbounds]
        rfl
      · simp [Sequence.elements, characters, List.drop_take]
  | array id =>
      rw [length_elements_array] at hbounds
      refine ⟨.array h.arrays.size, (h.newArray ((h.items id).extract low high)).2, ?_, rfl, ?_⟩
      · simp only [slice, Sequence.value, hbounds]
        rfl
      · simp [Sequence.elements, newArray, items, List.extract_eq_take_drop, List.drop_take]

/-- What a slice holds is settled by its answer. -/
theorem Slices.eq {es es' : List Value} (hs : h.Slices x start stop es)
    (hs' : h.Slices x start stop es') : es = es' := by
  rcases hs with ⟨y, h1, hslice, -, rfl⟩
  rcases hs' with ⟨z, h2, hslice', -, rfl⟩
  have hanswer : y.value = z.value ∧ h1 = h2 := by simpa [hslice] using hslice'
  rw [Sequence.value_injective hanswer.1, hanswer.2]

/-- A slice succeeds exactly with its bounds, and holds what stands between their places. -/
theorem slices_iff {es : List Value} : h.Slices x start stop es ↔
    exists low high, sliceBounds start stop (x.elements h).length = .ok (low, high) ∧
      es = ((x.elements h).take high).drop low := by
  constructor
  · intro hs
    cases hbounds : sliceBounds start stop (x.elements h).length with
    | error f =>
        rcases hs with ⟨y, h', hslice, -⟩
        rw [slice_error hbounds] at hslice
        cases hslice
    | ok bounds => exact ⟨bounds.1, bounds.2, rfl, hs.eq (slices_of_bounds hbounds)⟩
  · rintro ⟨low, high, hbounds, rfl⟩
    exact slices_of_bounds hbounds

theorem sliceBounds_integers (a b : Int64) (size : Nat) :
    sliceBounds (.integer a) (.integer b) size = .ok (boundPlace a size, boundPlace b size) := by
  rw [← clampIndex_eq, ← clampIndex_eq]
  rfl

theorem sliceBounds_open (a : Int64) (size : Nat) :
    sliceBounds (.integer a) .none size = .ok (boundPlace a size, size) := by
  rw [← clampIndex_eq]
  rfl

theorem slices_between (h : Heap) (x : Sequence) (a b : Int64) :
    h.Slices x (.integer a) (.integer b)
      (((x.elements h).take (boundPlace b (x.elements h).length)).drop
        (boundPlace a (x.elements h).length)) :=
  slices_iff.mpr ⟨_, _, sliceBounds_integers a b _, rfl⟩

theorem slices_from (h : Heap) (x : Sequence) (a : Int64) :
    h.Slices x (.integer a) .none
      ((x.elements h).drop (boundPlace a (x.elements h).length)) :=
  slices_iff.mpr ⟨_, _, sliceBounds_open a _, by rw [List.take_length]⟩

/-! ## Parts of a sequence -/

theorem boundPlace_zero (size : Nat) : boundPlace 0 size = 0 :=
  boundPlace_of_nonneg (by decide) (by simp)

/-- What is in front of a bound and what is behind it make up the whole. -/
theorem slices_apart (h : Heap) (x : Sequence) (k : Int64) :
    exists front back, h.Slices x (.integer 0) (.integer k) front ∧
      h.Slices x (.integer k) .none back ∧ front ++ back = x.elements h := by
  have hfront := slices_between h x 0 k
  rw [boundPlace_zero, List.drop_zero] at hfront
  exact ⟨_, _, hfront, slices_from h x k, List.take_append_drop _ _⟩

/-- The element at an index of the sequence. -/
theorem get_of_lt {i : Int64} {e : Value} (hi : 0 <= i.toInt)
    (he : (x.elements h)[i.toInt.toNat]? = some e) : h.get x.value (.integer i) = .ok e := by
  have hlt : i.toInt < (x.elements h).length := by
    have := (List.getElem?_eq_some_iff.mp he).1
    omega
  have hplace (size : Nat) : elementPlace i size = i.toInt.toNat := by
    simp only [elementPlace]
    omega
  cases x with
  | text s =>
      rw [length_elements_text] at hlt
      have hresolve : resolveIndex? i s.length = some i.toInt.toNat :=
        resolveIndex?_eq_some.mpr ⟨by omega, hplace _⟩
      simp only [Sequence.elements, characters, List.getElem?_map, Option.map_eq_some_iff] at he
      rcases he with ⟨c, hc, rfl⟩
      show Value.orOutOfBounds i _ (Option.map _ ((resolveIndex? i s.toList.length).bind _)) = _
      rw [String.length_toList, hresolve, Option.bind_some, hc]
      rfl
  | array id =>
      simp only [Sequence.elements, Array.getElem?_toList] at he
      exact get_array_of_place (hplace _) he

theorem toInt_succ {i : Int64} {size : Nat} (hi : 0 <= i.toInt) (hlt : i.toInt < size)
    (hsize : size < 2 ^ 63) : (i + 1).toInt = i.toInt + 1 := by
  have hone : (1 : Int64).toInt = 1 := by decide
  rw [Int64.toInt_add, hone]
  exact Int.bmod_eq_of_le (by omega) (by omega)

/-- The slice from an index to the next one holds the element there. -/
theorem slices_single {i : Int64} (hi : 0 <= i.toInt) (hlt : i.toInt < (x.elements h).length)
    (hsize : (x.elements h).length < 2 ^ 63) :
    exists e, h.get x.value (.integer i) = .ok e ∧
      h.Slices x (.integer i) (.integer (i + 1)) [e] := by
  have hin : i.toInt.toNat < (x.elements h).length := by omega
  refine ⟨(x.elements h)[i.toInt.toNat], get_of_lt hi (List.getElem?_eq_getElem hin), ?_⟩
  have hslices := slices_between h x i (i + 1)
  have hnext := toInt_succ hi hlt hsize
  rw [boundPlace_of_nonneg hi (Int.le_of_lt hlt), boundPlace_of_nonneg (by omega) (by omega),
    hnext] at hslices
  have htake : (i.toInt + 1).toNat = i.toInt.toNat + 1 := by omega
  rw [htake, List.drop_take, Nat.add_sub_cancel_left, List.drop_eq_getElem_cons hin] at hslices
  exact hslices

/-- A bound below zero and a length have a sum of 64 bits. -/
theorem toInt_add_length {a : Int64} {size : Nat} (ha : a.toInt < 0) (hsize : size < 2 ^ 63) :
    (a + Int64.ofNat size).toInt = a.toInt + size := by
  have hlow := a.le_toInt
  rw [Int64.toInt_add, Int64.toInt_ofNat_of_lt hsize]
  exact Int.bmod_eq_of_le (by omega) (by omega)

theorem len_eq (h : Heap) (x : Sequence) :
    h.len x.value = .ok (.integer (Int64.ofNat (x.elements h).length)) := by
  cases x with
  | text s => rw [length_elements_text]; rfl
  | array id => rw [length_elements_array]; rfl

end Slices

/-- Slices of texts and of arrays obey the same rules, for all bounds. -/
theorem slices_are_consistent (h : Heap) (x : Sequence) :
    let es := x.elements h
    let n := es.length
    (forall a b : Int64, h.Slices x (.integer a) (.integer b)
      ((es.take (boundPlace b n)).drop (boundPlace a n))) ∧
    (forall a : Int64, h.Slices x (.integer a) .none (es.drop (boundPlace a n))) ∧
    (forall k : Int64, exists front back, h.Slices x (.integer 0) (.integer k) front ∧
      h.Slices x (.integer k) .none back ∧ front ++ back = es) ∧
    (n < 2 ^ 63 ->
      (forall i : Int64, 0 <= i.toInt -> i.toInt < n ->
        exists e, h.get x.value (.integer i) = .ok e ∧
          h.Slices x (.integer i) (.integer (i + 1)) [e]) ∧
      (exists k : Int64, h.len x.value = .ok (.integer k) ∧ k.toInt = n) ∧
      forall a : Int64, a.toInt < 0 -> (a + Int64.ofNat n).toInt = a.toInt + n) ∧
    (forall s id, h.items id = characters s -> forall start stop part,
      h.Slices (.text s) start stop part ↔ h.Slices (.array id) start stop part) ∧
    forall base name (t : Term) (start stop : Option Term), exists p,
      StackScript.compile base name (Word.line (.keyword .echo :: t.sliceWords start stop)) =
        .ok p ∧
        let code (t : Term) := t.code (fun y => .global y.text) p.main.code.constants.idxOf
        p.main.code.instrs.toList =
          code t ++ code (Term.startOf start) ++ code (Term.stopOf stop) ++
            [.ternary .slice, .echo, .literal .none, .ret] := by
  refine ⟨slices_between h x, slices_from h x, slices_apart h x, ?_, ?_, compile_echo_slice⟩
  · intro hn
    refine ⟨?_, ?_, ?_⟩
    · intro i hi hlt
      exact slices_single hi hlt hn
    · exact ⟨_, len_eq h x, Int64.toInt_ofNat_of_lt hn⟩
    · intro a ha
      exact toInt_add_length ha hn
  · intro s id hitems start stop part
    have hsame : (Sequence.text s).elements h = (Sequence.array id).elements h := by
      simp only [Sequence.elements, hitems]
    rw [slices_iff, slices_iff, hsame]

/-- Of three characters that take four bytes, the last two are left by bounds that reach out of the
text on one side, and the second one stands at its index. -/
theorem year_slices_consistently :
    Heap.empty.Slices (.text "año") (.integer (-2)) (.integer 9) [.text "ñ", .text "o"] ∧
      exists e, Heap.empty.get (.text "año") (.integer 1) = .ok e ∧
        Heap.empty.Slices (.text "año") (.integer 1) (.integer 2) [e] := by
  rcases slices_are_consistent Heap.empty (.text "año") with ⟨hbetween, -, -, hshort, -, -⟩
  have hlength : ((Sequence.text "año").elements Heap.empty).length < 2 ^ 63 := by decide +kernel
  exact ⟨hbetween (-2) 9, (hshort hlength).1 1 (by decide) (by decide +kernel)⟩

end Heap
end StackScript
