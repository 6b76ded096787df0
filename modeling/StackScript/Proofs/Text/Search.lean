import StackScript.Proofs.Heap.Slices

/-!
# Finding a text inside another

A text is found at the first position from which its characters go on to stand.  The search can as
well be done on bytes: in UTF-8 no character begins inside another one, so the bytes of a text occur
only where its characters do, and the first place of the bytes is that of the characters.
-/

namespace StackScript
namespace Text

/-! ## Characters -/

section Characters

variable {needle cs : List Char} {k : Nat}

theorem position?_eq_none : position? needle cs = none ↔ ¬ needle <:+: cs := by
  induction cs with
  | nil =>
      rw [List.infix_nil]
      simp [position?]
  | cons c cs ih =>
      rw [position?, List.infix_cons_iff, ← List.isPrefixOf_iff_prefix]
      split
      · simp_all
      · simp_all

theorem prefix_of_position? (hk : position? needle cs = some k) : needle <+: cs.drop k := by
  induction cs generalizing k with
  | nil => simp_all [position?]
  | cons c cs ih =>
      rw [position?] at hk
      split at hk
      · rename_i hprefix
        cases hk
        exact List.isPrefixOf_iff_prefix.mp hprefix
      · obtain ⟨j, hj, rfl⟩ := Option.map_eq_some_iff.mp hk
        exact ih hj

/-- No other position at which the text stands comes before the one that is found. -/
theorem position?_le {j : Nat} (hk : position? needle cs = some k) (hj : needle <+: cs.drop j) :
    k <= j := by
  induction cs generalizing j k with
  | nil =>
      have hzero : 0 = k := by simp_all [position?]
      rw [← hzero]
      exact Nat.zero_le j
  | cons c cs ih =>
      rw [position?] at hk
      split at hk
      · cases hk
        exact Nat.zero_le j
      · rename_i hprefix
        obtain ⟨i, hi, rfl⟩ := Option.map_eq_some_iff.mp hk
        cases j with
        | zero => exact absurd (List.isPrefixOf_iff_prefix.mpr hj) hprefix
        | succ j => exact Nat.succ_le_succ (ih hi hj)

theorem position?_le_length (hk : position? needle cs = some k) :
    k + needle.length <= cs.length := by
  have hlength := (prefix_of_position? hk).length_le
  have hle : k <= cs.length := by
    by_contra hover
    -- Behind the end only the empty text stands, and that is found at once.
    rw [List.length_drop] at hlength
    have hempty : needle = [] := List.eq_nil_of_length_eq_zero (by omega)
    have hzero : k <= 0 := position?_le hk (hempty ▸ List.nil_prefix)
    omega
  rw [List.length_drop] at hlength
  omega

end Characters

/-! ## Bytes -/

def utf8 (s : String) : List UInt8 :=
  s.toUTF8.data.toList

def bytesOf (cs : List Char) : List UInt8 :=
  cs.flatMap String.utf8EncodeChar

section Bytes

variable {needle cs : List Char} {c : Char} {b k : Nat} {s n : String}

theorem utf8_ofList (cs : List Char) : utf8 (String.ofList cs) = bytesOf cs := by
  simp [utf8, bytesOf, List.utf8Encode]

theorem utf8_eq (s : String) : utf8 s = bytesOf s.toList := by
  rw [← utf8_ofList, String.ofList_toList]

theorem bytesOf_cons (c : Char) (cs : List Char) :
    bytesOf (c :: cs) = String.utf8EncodeChar c ++ bytesOf cs :=
  List.flatMap_cons

theorem bytesOf_append (cs ds : List Char) : bytesOf (cs ++ ds) = bytesOf cs ++ bytesOf ds :=
  List.flatMap_append

theorem bytesOf_prefix_iff : bytesOf needle <+: bytesOf cs ↔ needle <+: cs := by
  constructor
  · rintro ⟨bytes, hbytes⟩
    apply List.isPrefix_of_utf8Encode_append_eq_utf8Encode bytes.toByteArray
    have harrays := congrArg List.toByteArray hbytes
    rw [List.toByteArray_append] at harrays
    exact harrays
  · rintro ⟨rest, rfl⟩
    exact ⟨bytesOf rest, (bytesOf_append needle rest).symm⟩

/-- The bytes of a text that is not empty do not begin inside a character. -/
theorem not_prefix_inside (hneedle : needle ≠ []) (hb : 0 < b)
    (hin : b < (String.utf8EncodeChar c).length) (rest : List UInt8) :
    ¬ bytesOf needle <+: (String.utf8EncodeChar c).drop b ++ rest := by
  intro hprefix
  obtain ⟨d, ds, rfl⟩ := List.exists_cons_of_ne_nil hneedle
  obtain ⟨x, xs, hx⟩ := List.exists_cons_of_ne_nil (String.utf8EncodeChar_ne_nil (c := d))
  have hfirst : x.IsUTF8FirstByte := by
    have hzero : 0 < (String.utf8EncodeChar d).length := by simp [hx]
    have hbyte : ((String.utf8EncodeChar d)[0]).IsUTF8FirstByte :=
      UInt8.isUTF8FirstByte_getElem_utf8EncodeChar.mpr rfl
    simpa [hx] using hbyte
  have hsame : x = (String.utf8EncodeChar c)[b] := by
    rw [bytesOf_cons, hx, List.drop_eq_getElem_cons hin, List.cons_append, List.cons_append,
      List.cons_prefix_cons] at hprefix
    exact hprefix.1
  rw [hsame, UInt8.isUTF8FirstByte_getElem_utf8EncodeChar] at hfirst
  omega

/-- Where the bytes of a text occur that is not empty, a character begins, and the characters go
on with the text. -/
theorem exists_boundary (hneedle : needle ≠ []) (hb : bytesOf needle <+: (bytesOf cs).drop b) :
    exists k, (bytesOf (cs.take k)).length = b ∧ needle <+: cs.drop k := by
  induction cs generalizing b with
  | nil =>
      have hnil : bytesOf needle = [] := by
        simpa [bytesOf] using hb
      obtain ⟨d, ds, rfl⟩ := List.exists_cons_of_ne_nil hneedle
      simp [bytesOf] at hnil
  | cons c cs ih =>
      by_cases hzero : b = 0
      · rw [hzero, List.drop_zero] at hb
        exact ⟨0, hzero.symm, bytesOf_prefix_iff.mp hb⟩
      · rw [bytesOf_cons, List.drop_append] at hb
        by_cases hin : b < (String.utf8EncodeChar c).length
        · exact absurd hb (not_prefix_inside hneedle (Nat.pos_of_ne_zero hzero) hin _)
        · rw [List.drop_of_length_le (Nat.le_of_not_lt hin), List.nil_append] at hb
          obtain ⟨k, hlength, hprefix⟩ := ih hb
          refine ⟨k + 1, ?_, hprefix⟩
          rw [List.take_succ_cons, bytesOf_cons, List.length_append, hlength]
          omega

theorem bytesOf_drop (cs : List Char) (k : Nat) :
    (bytesOf cs).drop (bytesOf (cs.take k)).length = bytesOf (cs.drop k) := by
  have hsplit := bytesOf_append (cs.take k) (cs.drop k)
  rw [List.take_append_drop] at hsplit
  rw [hsplit, List.drop_left]

theorem bytesOf_take (cs : List Char) (k : Nat) :
    (bytesOf cs).take (bytesOf (cs.take k)).length = bytesOf (cs.take k) := by
  have hsplit := bytesOf_append (cs.take k) (cs.drop k)
  rw [List.take_append_drop] at hsplit
  rw [hsplit, List.take_left]

/-- The first place at which the bytes of a text stand in those of another. -/
structure FirstOffset (n s : String) (b : Nat) : Prop where
  here : utf8 n <+: (utf8 s).drop b
  first : forall b', utf8 n <+: (utf8 s).drop b' -> b <= b'

/-- The bytes in front of the first occurrence are those of the characters in front of it. -/
theorem firstOffset_of_position? (hk : position? n.toList s.toList = some k) :
    FirstOffset n s (bytesOf (s.toList.take k)).length := by
  constructor
  · rw [utf8_eq, utf8_eq, bytesOf_drop]
    exact bytesOf_prefix_iff.mpr (prefix_of_position? hk)
  · intro b' hb'
    rw [utf8_eq, utf8_eq] at hb'
    by_cases hempty : n.toList = []
    · have hzero : k <= 0 := position?_le hk (hempty ▸ List.nil_prefix)
      rw [Nat.le_zero.mp hzero]
      exact Nat.zero_le b'
    · obtain ⟨j, rfl, hprefix⟩ := exists_boundary hempty hb'
      obtain ⟨rest, hrest⟩ := List.take_prefix_take_left (l := s.toList) (position?_le hk hprefix)
      rw [← hrest, bytesOf_append, List.length_append]
      exact Nat.le_add_right _ _

end Bytes
end Text

/-! ## Texts of the language -/

namespace Heap

open Text (position? utf8 FirstOffset)

/-- The part of a text from a position on that is as long as another text is that other text. -/
def StandsAt (h : Heap) (s n : String) (k : Int64) : Prop :=
  exists length stop, h.len (.text n) = .ok length ∧
    Operator.add.apply h (.integer k) length = .ok stop ∧
    h.slice (.text s) (.integer k) stop = .ok (.text n) h

/-- The text is what stands in front of the position, then the other text, and then what follows
it. -/
def PartsAt (h : Heap) (s n : String) (k : Int64) : Prop :=
  exists length stop front back joined, h.len (.text n) = .ok length ∧
    Operator.add.apply h (.integer k) length = .ok stop ∧
    h.slice (.text s) (.integer 0) (.integer k) = .ok front h ∧
    h.slice (.text s) stop .none = .ok back h ∧
    Operator.add.apply h front (.text n) = .ok joined ∧
    Operator.add.apply h joined back = .ok (.text s)

/-- A position is the first one at which a text stands in another.  Its characters are those in
front of the first place at which the bytes stand. -/
structure FirstOccurrence (h : Heap) (s n : String) (k : Int64) : Prop where
  nonneg : 0 <= k.toInt
  stands : h.StandsAt s n k
  least : forall j : Int64, 0 <= j.toInt -> h.StandsAt s n j -> k <= j
  parts : h.PartsAt s n k
  bytes : exists b front, FirstOffset n s b ∧ utf8 front = (utf8 s).take b ∧
    k.toInt = front.length

section Occurrences

variable {h : Heap} {s n : String} {k : Nat}

theorem slice_text (h : Heap) (s : String) (a b : Int64) :
    h.slice (.text s) (.integer a) (.integer b) =
      .ok (.text (String.ofList
        ((s.toList.take (boundPlace b s.length)).drop (boundPlace a s.length)))) h := by
  rw [slice, sliceBounds_integers, List.drop_take]
  rfl

theorem slice_text_from (h : Heap) (s : String) (a : Int64) :
    h.slice (.text s) (.integer a) .none =
      .ok (.text (String.ofList (s.toList.drop (boundPlace a s.length)))) h := by
  rw [slice, sliceBounds_open]
  have htake : (s.toList.drop (boundPlace a s.length)).take
      (s.length - boundPlace a s.length) = s.toList.drop (boundPlace a s.length) := by
    rw [← String.length_toList, ← List.length_drop, List.take_length]
  show EStateM.Result.ok _ _ = _
  rw [htake]

theorem add_texts (h : Heap) (s t : String) :
    Operator.add.apply h (.text s) (.text t) = .ok (.text (s ++ t)) :=
  rfl

/-- What stands at a position below the end is within reach of a bound. -/
theorem boundPlace_ofNat {size : Nat} (hk : k <= size) (hsize : size < 2 ^ 63) :
    boundPlace (Int64.ofNat k) size = k := by
  have hint : (Int64.ofNat k).toInt = k := Int64.toInt_ofNat_of_lt (by omega)
  rw [boundPlace_of_nonneg (by omega) (by omega), hint, Int.toNat_natCast]

theorem index_text (h : Heap) (s n : String) : h.index (.text s) (.text n) =
    .ok (positionValue (position? n.toList s.toList)) := by
  rfl

theorem standsAt_of_position? (hk : position? n.toList s.toList = some k)
    (hs : s.length < 2 ^ 63) : h.StandsAt s n (Int64.ofNat k) := by
  have hlength := Text.position?_le_length hk
  rw [String.length_toList, String.length_toList] at hlength
  refine ⟨_, _, rfl, rfl, ?_⟩
  obtain ⟨rest, hrest⟩ := Text.prefix_of_position? hk
  have hpart : ((s.toList.take (k + n.length)).drop k) = n.toList := by
    rw [List.drop_take, Nat.add_sub_cancel_left, ← hrest, ← String.length_toList, List.take_left]
  rw [slice_text, ← Int64.ofNat_add, boundPlace_ofNat (by omega) hs, boundPlace_ofNat hlength hs,
    hpart, String.ofList_toList]

theorem position?_le_of_standsAt {j : Int64} (hk : position? n.toList s.toList = some k)
    (hj : 0 <= j.toInt) (hstands : h.StandsAt s n j) : (k : Int) <= j.toInt := by
  obtain ⟨length, stop, hlength, hstop, hslice⟩ := hstands
  cases hlength
  cases hstop
  rw [slice_text] at hslice
  have hpart : n.toList <+: s.toList.drop (boundPlace j s.length) := by
    simp only [EStateM.Result.ok.injEq, Value.text.injEq, and_true] at hslice
    rw [← hslice, String.toList_ofList, List.drop_take]
    exact List.take_prefix _ _
  have hle := Text.position?_le hk hpart
  simp only [boundPlace] at hle
  omega

theorem partsAt_of_position? (hk : position? n.toList s.toList = some k)
    (hs : s.length < 2 ^ 63) : h.PartsAt s n (Int64.ofNat k) := by
  have hlength := Text.position?_le_length hk
  rw [String.length_toList, String.length_toList] at hlength
  obtain ⟨rest, hrest⟩ := Text.prefix_of_position? hk
  refine ⟨_, _, _, _, _, rfl, rfl, slice_text h s 0 _, slice_text_from h s _, add_texts h _ _, ?_⟩
  rw [add_texts, ← Int64.ofNat_add, boundPlace_ofNat (by omega) hs, boundPlace_ofNat hlength hs,
    boundPlace_zero, List.drop_zero]
  have hback : s.toList.drop (k + n.length) = rest := by
    rw [← List.drop_drop, ← hrest, ← String.length_toList, List.drop_left]
  have hwhole : String.ofList (s.toList.take k) ++ n ++ String.ofList rest = s := by
    apply String.toList_inj.mp
    rw [String.toList_append, String.toList_append, String.toList_ofList, String.toList_ofList,
      List.append_assoc, hrest, List.take_append_drop]
  rw [hback, hwhole]

theorem occurs_iff : (exists front back, s = front ++ n ++ back) ↔ n.toList <:+: s.toList := by
  constructor
  · rintro ⟨front, back, rfl⟩
    exact ⟨front.toList, back.toList, by simp⟩
  · rintro ⟨front, back, hwhole⟩
    refine ⟨String.ofList front, String.ofList back, ?_⟩
    apply String.toList_inj.mp
    simp [← hwhole]

theorem firstOccurrence (hk : position? n.toList s.toList = some k) (hs : s.length < 2 ^ 63) :
    h.FirstOccurrence s n (Int64.ofNat k) := by
  have hlength := Text.position?_le_length hk
  rw [String.length_toList, String.length_toList] at hlength
  have hint : (Int64.ofNat k).toInt = k := Int64.toInt_ofNat_of_lt (by omega)
  constructor
  · omega
  · exact standsAt_of_position? hk hs
  · intro j hj hstands
    rw [Int64.le_iff_toInt_le, hint]
    exact position?_le_of_standsAt hk hj hstands
  · exact partsAt_of_position? hk hs
  · refine ⟨_, String.ofList (s.toList.take k), Text.firstOffset_of_position? hk, ?_, ?_⟩
    · rw [Text.utf8_ofList, Text.utf8_eq, Text.bytesOf_take]
    · rw [hint, String.length_ofList, List.length_take, String.length_toList,
        Nat.min_eq_left (by omega)]

end Occurrences

/-- A text that occurs in another is found at its first position, counted in characters, and one
that does not is answered with minus one.  The empty text is found in front of everything. -/
theorem index_is_first_occurrence (h : Heap) {s : String} (n : String) (hs : s.length < 2 ^ 63) :
    (((exists front back, s = front ++ n ++ back) ∧
        exists k, h.index (.text s) (.text n) = .ok (.integer k) ∧ h.FirstOccurrence s n k) ∨
      ((¬ exists front back, s = front ++ n ++ back) ∧
        h.index (.text s) (.text n) = .ok (.integer (-1)) ∧
        forall b, ¬ utf8 n <+: (utf8 s).drop b)) ∧
    h.index (.text s) (.text "") = .ok (.integer 0) := by
  constructor
  · rw [occurs_iff, index_text]
    cases hk : position? n.toList s.toList with
    | none =>
        have habsent := Text.position?_eq_none.mp hk
        refine Or.inr ⟨habsent, rfl, ?_⟩
        intro b hb
        rw [Text.utf8_eq, Text.utf8_eq] at hb
        by_cases hempty : n.toList = []
        · exact habsent (hempty ▸ List.nil_infix)
        · obtain ⟨j, -, rest, hrest⟩ := Text.exists_boundary hempty hb
          refine habsent ⟨s.toList.take j, rest, ?_⟩
          rw [List.append_assoc, hrest, List.take_append_drop]
    | some k =>
        have hstands : n.toList <:+: s.toList := by
          by_contra habsent
          rw [Text.position?_eq_none.mpr habsent] at hk
          cases hk
        exact Or.inl ⟨hstands, _, rfl, firstOccurrence hk hs⟩
  · rw [index_text]
    cases s.toList with
    | nil => rfl
    | cons c cs => rfl

/-- The position counts the two characters in front, which take three bytes. -/
theorem second_syllable_is_found :
    "ñaño".length < 2 ^ 63 ∧ empty.index (.text "ñaño") (.text "ño") = .ok (.integer 2) ∧
      empty.FirstOccurrence "ñaño" "ño" 2 := by
  have hlength : "ñaño".length < 2 ^ 63 := by decide +kernel
  have htwo : empty.index (.text "ñaño") (.text "ño") = .ok (.integer 2) := by decide +kernel
  rcases (index_is_first_occurrence empty "ño" hlength).1 with ⟨-, k, hk, hfirst⟩ | ⟨habsent, -⟩
  · rw [htwo] at hk
    cases hk
    exact ⟨hlength, htwo, hfirst⟩
  · exact absurd ⟨"ña", "", by decide +kernel⟩ habsent

end Heap
end StackScript
