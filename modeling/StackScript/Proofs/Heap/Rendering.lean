import Mathlib.Data.List.Perm.Subperm
import Mathlib.Logic.Relation
import StackScript.Proofs.Value.Table
import StackScript.Value.Render

/-!
# What the text of a value shows

Collections may hold each other in any way, so what a value leads to is a graph.  Its text shows
a finite tree, the drawing of the value.  Each collection in the drawing has its contents below
it, except where the same collection stands further up on the way from the root; there it is cut
short.  There is exactly one such drawing of each value, and nothing in it is cut short unless
the value leads to a cycle.
-/

namespace StackScript

/-! ## Drawings -/

def Value.isCollection : Value -> Bool
  | .array _ => true
  | .table _ => true
  | _ => false

namespace Heap

/-- The values in a collection, in the order in which they are written. -/
def children (h : Heap) : Value -> List Value
  | .array id => (h.items id).toList
  | .table id => (h.entries id).orderedKeys.map fun key => (h.entries id)[key]?.getD .none
  | _ => []

/-- The keys of a table, in the order in which they are written. -/
def labels (h : Heap) : Value -> List String
  | .table id => (h.entries id).orderedKeys
  | _ => []

def leafText (h : Heap) (inside : Bool) : Value -> String
  | .none => "none"
  | .bool b => if b then "true" else "false"
  | .integer n => toString n.toInt
  | .float x => Notation.floatText x
  | .text s => if inside then "\"" ++ s ++ "\"" else s
  | .function id => (h.function id).displayName
  | .native name _ => name
  | .pointer _ => "<pointer>"
  | _ => ""

/-- The text of a collection that is written with its contents, from their texts. -/
def wholeText (h : Heap) (parts : List String) : Value -> String
  | .table id =>
    if parts.isEmpty then
      "\x7b\x7d"
    else
      "\x7b " ++ commaSeparated (List.zipWith (fun key part => key ++ ": " ++ part)
        (h.labels (.table id)) parts) ++ " \x7d"
  | _ => "[" ++ commaSeparated parts ++ "]"

/-- The text of a collection that is written without its contents. -/
def cutText : Value -> String
  | .table _ => "\x7b .. \x7d"
  | _ => "[..]"

end Heap

/-- A tree of values as it is written. -/
inductive Drawing where
  /-- A value that is no collection. -/
  | leaf (v : Value)
  /-- A collection with its contents. -/
  | full (v : Value) (parts : List Drawing)
  /-- A collection without its contents. -/
  | cut (v : Value)

namespace Drawing

def value : Drawing -> Value
  | leaf v => v
  | full v _ => v
  | cut v => v

/-- Whether the contents at the root are left out. -/
def isCut : Drawing -> Bool
  | cut _ => true
  | _ => false

mutual

def text (h : Heap) (inside : Bool) : Drawing -> String
  | leaf v => h.leafText inside v
  | full v parts => h.wholeText (texts h parts) v
  | cut v => Heap.cutText v

def texts (h : Heap) : List Drawing -> List String
  | [] => []
  | d :: ds => d.text h true :: texts h ds

end

mutual

/-- Whether every collection that is drawn in full has the drawings of its contents below it. -/
def Faithful (h : Heap) : Drawing -> Prop
  | leaf v => v.isCollection = false
  | full v parts => v.isCollection = true ∧ parts.map value = h.children v ∧ AllFaithful h parts
  | cut v => v.isCollection = true

def AllFaithful (h : Heap) : List Drawing -> Prop
  | [] => True
  | d :: ds => d.Faithful h ∧ AllFaithful h ds

end

/-- A drawing occurs in another one, with the given values above it, the nearest first. -/
inductive Occurs (sub : Drawing) : List Value -> Drawing -> Prop where
  | root : Occurs sub [] sub
  | inside {above : List Value} {v : Value} {part : Drawing} {parts : List Drawing} :
      part ∈ parts -> Occurs sub above part -> Occurs sub (above ++ [v]) (full v parts)

/-- Exactly those collections are cut short that stand further up on the way from the root. -/
def CutsRepeats (d : Drawing) : Prop :=
  forall above sub, Occurs sub above d -> sub.value.isCollection = true ->
    (sub.isCut = true ↔ sub.value ∈ above)

/-! ## Ways from the root -/

mutual

/-- Whether exactly those collections are cut short that stand further up, where the given values
are above the root. -/
def Marked (path : List Value) : Drawing -> Prop
  | leaf _ => True
  | full v parts => v ∉ path ∧ AllMarked (v :: path) parts
  | cut v => v ∈ path

def AllMarked (path : List Value) : List Drawing -> Prop
  | [] => True
  | d :: ds => d.Marked path ∧ AllMarked path ds

end

section Ways

variable {h : Heap} {d d' sub : Drawing} {ds : List Drawing} {path above : List Value} {v : Value}

theorem allFaithful_iff : AllFaithful h ds ↔ forall d, d ∈ ds -> d.Faithful h := by
  induction ds with
  | nil => simp [AllFaithful]
  | cons d ds ih => simp [AllFaithful, ih]

theorem allMarked_iff : AllMarked path ds ↔ forall d, d ∈ ds -> d.Marked path := by
  induction ds with
  | nil => simp [AllMarked]
  | cons d ds ih => simp [AllMarked, ih]

theorem Faithful.of_occurs (hd : d.Faithful h) (hsub : Occurs sub above d) : sub.Faithful h := by
  induction hsub with
  | root => exact hd
  | inside hpart _ ih => exact ih (allFaithful_iff.mp hd.2.2 _ hpart)

theorem Marked.of_occurs (hd : d.Faithful h) (hmarked : d.Marked path)
    (hsub : Occurs sub above d) (hcollection : sub.value.isCollection = true) :
    sub.isCut = true ↔ sub.value ∈ above ++ path := by
  induction hsub generalizing path with
  | root =>
      cases sub with
      | leaf v => exact absurd hcollection (by simp [value, show v.isCollection = false from hd])
      | full v parts =>
          have hnew : v ∉ path := hmarked.1
          simp [isCut, value, hnew]
      | cut v =>
          have hold : v ∈ path := hmarked
          simp [isCut, value, hold]
  | @inside above v part parts hpart _ ih =>
      have hiff := ih (allFaithful_iff.mp hd.2.2 _ hpart) (allMarked_iff.mp hmarked.2 _ hpart)
      simp only [hiff, List.mem_append, List.mem_cons, List.not_mem_nil, or_false, or_assoc]

mutual

theorem marked_of_cuts : forall {d : Drawing} {path : List Value}, d.Faithful h ->
    (forall above sub, Occurs sub above d -> sub.value.isCollection = true ->
      (sub.isCut = true ↔ sub.value ∈ above ++ path)) -> d.Marked path
  | leaf _, _, _, _ => trivial
  | cut v, _, hd, hcuts => (hcuts [] (cut v) .root hd).mp rfl
  | full v parts, path, hd, hcuts => by
      have hroot := hcuts [] (full v parts) .root hd.1
      refine ⟨fun hv => by simpa [isCut] using hroot.mpr hv, ?_⟩
      refine allMarked_of_cuts hd.2.2 ?_
      intro part hpart above sub hsub hcollection
      have hiff := hcuts (above ++ [v]) sub (.inside hpart hsub) hcollection
      rwa [List.append_assoc, List.singleton_append] at hiff

theorem allMarked_of_cuts : forall {parts : List Drawing} {path : List Value},
    AllFaithful h parts ->
    (forall d, d ∈ parts -> forall above sub, Occurs sub above d ->
      sub.value.isCollection = true -> (sub.isCut = true ↔ sub.value ∈ above ++ path)) ->
    AllMarked path parts
  | [], _, _, _ => trivial
  | d :: _, _, hds, hcuts =>
      ⟨marked_of_cuts hds.1 (hcuts d List.mem_cons_self),
        allMarked_of_cuts hds.2 fun d' hd' => hcuts d' (List.mem_cons_of_mem d hd')⟩

end

theorem Faithful.cutsRepeats_iff (hd : d.Faithful h) : d.CutsRepeats ↔ d.Marked [] := by
  constructor
  · intro hcuts
    refine marked_of_cuts hd ?_
    intro above sub hsub hcollection
    rw [List.append_nil]
    exact hcuts above sub hsub hcollection
  · intro hmarked above sub hsub hcollection
    have hiff := hmarked.of_occurs hd hsub hcollection
    rwa [List.append_nil] at hiff

mutual

/-- There are no two drawings of one value at the same place. -/
theorem Faithful.unique : forall {d d' : Drawing} {path : List Value}, d.Faithful h ->
    d'.Faithful h -> d.Marked path -> d'.Marked path -> d.value = d'.value -> d = d'
  | leaf v, d', path, hd, hd', _, _, hvalue => by
      have hplain : v.isCollection = false := hd
      cases d' with
      | leaf v' => exact congrArg leaf hvalue
      | full v' parts' => exact absurd hd'.1 (by simp [← show v = v' from hvalue, hplain])
      | cut v' =>
          exact absurd (show v'.isCollection = true from hd')
            (by simp [← show v = v' from hvalue, hplain])
  | cut v, d', path, hd, hd', hmarked, hmarked', hvalue => by
      have hcollection : v.isCollection = true := hd
      cases d' with
      | leaf v' =>
          exact absurd (show v'.isCollection = false from hd')
            (by simp [← show v = v' from hvalue, hcollection])
      | full v' parts' =>
          cases (show v = v' from hvalue)
          exact absurd hmarked hmarked'.1
      | cut v' => exact congrArg cut hvalue
  | full v parts, d', path, hd, hd', hmarked, hmarked', hvalue => by
      cases d' with
      | leaf v' =>
          exact absurd (show v'.isCollection = false from hd')
            (by simp [← show v = v' from hvalue, hd.1])
      | cut v' =>
          cases (show v = v' from hvalue)
          exact absurd hmarked' hmarked.1
      | full v' parts' =>
          cases (show v = v' from hvalue)
          have hparts := AllFaithful.unique hd.2.2 hd'.2.2 hmarked.2 hmarked'.2
            (hd.2.1.trans hd'.2.1.symm)
          rw [hparts]

theorem AllFaithful.unique : forall {ds ds' : List Drawing} {path : List Value},
    AllFaithful h ds -> AllFaithful h ds' -> AllMarked path ds -> AllMarked path ds' ->
    ds.map value = ds'.map value -> ds = ds'
  | [], ds', _, _, _, _, _, hvalues => by
      cases ds' with
      | nil => rfl
      | cons d' ds' => cases hvalues
  | d :: ds, ds', _, hds, hds', hmarked, hmarked', hvalues => by
      cases ds' with
      | nil => cases hvalues
      | cons d' ds' =>
          have hfirst := Faithful.unique hds.1 hds'.1 hmarked.1 hmarked'.1 (List.cons.inj hvalues).1
          have hothers :=
            AllFaithful.unique hds.2 hds'.2 hmarked.2 hmarked'.2 (List.cons.inj hvalues).2
          rw [hfirst, hothers]

end

end Ways

theorem texts_eq_map (h : Heap) (ds : List Drawing) : texts h ds = ds.map (text h true) := by
  induction ds with
  | nil => rfl
  | cons d ds ih => rw [texts, ih, List.map_cons]

end Drawing

/-! ## The drawing of a value -/

namespace Heap

open Drawing

/-- The drawing of a value with the given values above it. -/
def draw (h : Heap) : Nat -> List Value -> Value -> Drawing
  | 0, _, v => .cut v
  | fuel + 1, path, v =>
    if v.isCollection = false then
      .leaf v
    else if v ∈ path then
      .cut v
    else
      .full v ((h.children v).map (h.draw fuel (v :: path)))

def objects (h : Heap) : List Value :=
  (List.range h.arrays.size).map Value.array ++ (List.range h.tables.size).map Value.table

variable {h : Heap} {v w : Value} {path : List Value}

theorem length_objects : h.objects.length = h.size := by
  simp [objects, size]

theorem mem_objects_of_mem_children (hw : w ∈ h.children v) : v ∈ h.objects := by
  cases v with
  | array id =>
      by_cases hid : id < h.arrays.size
      · simp [objects, hid]
      · simp [children, items, Array.getElem?_eq_none (Nat.le_of_not_lt hid)] at hw
  | table id =>
      by_cases hid : id < h.tables.size
      · simp [objects, hid]
      · have hnone : h.tables[id]? = none := Array.getElem?_eq_none (Nat.le_of_not_lt hid)
        simp [children, entries, hnone] at hw
  | _ => cases hw

theorem isCollection_of_mem_children (hw : w ∈ h.children v) : v.isCollection = true := by
  cases v with
  | array _ => rfl
  | table _ => rfl
  | _ => cases hw

/-- A way that names no object twice is no longer than the heap. -/
theorem length_le_size (hnodup : path.Nodup) (hpath : path ⊆ h.objects) :
    path.length ≤ h.size := by
  rw [← length_objects]
  exact (hnodup.subperm hpath).length_le

theorem draw_value (h : Heap) (fuel : Nat) (path : List Value) (v : Value) :
    (h.draw fuel path v).value = v := by
  cases fuel with
  | zero => rfl
  | succ fuel =>
      rw [draw]
      split
      · rfl
      · split <;> rfl

theorem map_value_draw (h : Heap) (fuel : Nat) (path : List Value) (vs : List Value) :
    (vs.map (h.draw fuel path)).map value = vs := by
  rw [List.map_map]
  exact List.map_id'' (h.draw_value fuel path) vs

theorem write_leaf {fuel : Nat} {inside : Bool} (hplain : v.isCollection = false) :
    h.write (fuel + 1) inside path v = h.leafText inside v := by
  cases v with
  | array _ => cases hplain
  | table _ => cases hplain
  | _ => rfl

theorem write_seen {fuel : Nat} {inside : Bool} (hcollection : v.isCollection = true)
    (hseen : v ∈ path) : h.write (fuel + 1) inside path v = cutText v := by
  cases v with
  | array _ => simp [write, hseen, cutText]
  | table _ => simp [write, hseen, cutText]
  | _ => cases hcollection

/-- A collection that is not written already is written with its contents. -/
theorem write_new {fuel : Nat} {inside : Bool} (hcollection : v.isCollection = true)
    (hnew : v ∉ path) :
    h.write (fuel + 1) inside path v =
      h.wholeText ((h.children v).map (h.write fuel true (v :: path))) v := by
  cases v with
  | array id =>
      simp only [write, List.contains_eq_mem, hnew, decide_false, Bool.false_eq_true, if_false,
        wholeText, children]
  | table id =>
      have hempty : ((h.children (.table id)).map (h.write fuel true (.table id :: path))).isEmpty =
          (h.entries id).isEmpty := by
        rw [children, List.isEmpty_map, List.isEmpty_map, Table.isEmpty_orderedKeys]
      simp only [write, List.contains_eq_mem, hnew, decide_false, Bool.false_eq_true, if_false,
        wholeText, hempty]
      rw [children, labels, List.map_map, List.zipWith_map_right, List.zipWith_self]
      refine congrArg (fun lines => if (h.entries id).isEmpty then "\x7b\x7d"
        else "\x7b " ++ commaSeparated lines ++ " \x7d") (List.map_congr_left fun key hkey => ?_)
      rcases Table.mem_orderedKeys_iff.mp hkey with ⟨value, hvalue⟩
      simp only [hvalue, Function.comp_apply, Option.getD_some]
  | _ => cases hcollection

/-- Fuel for the objects that are not on the way is enough. -/
theorem draw_spec {fuel : Nat} (hnodup : path.Nodup) (hpath : path ⊆ h.objects)
    (hfuel : h.size < fuel + path.length) (inside : Bool) (v : Value) :
    h.write fuel inside path v = (h.draw fuel path v).text h inside ∧
      (h.draw fuel path v).Faithful h ∧ (h.draw fuel path v).Marked path := by
  induction fuel generalizing path inside v with
  | zero =>
      have hlength := length_le_size hnodup hpath
      omega
  | succ fuel ih =>
      rw [draw]
      split
      case isTrue hplain =>
        exact ⟨write_leaf hplain, hplain, trivial⟩
      case isFalse hcollection =>
        rw [Bool.not_eq_false] at hcollection
        split
        case isTrue hold =>
          exact ⟨write_seen hcollection hold, hcollection, hold⟩
        case isFalse hnew =>
          -- Only a live object has contents, so the way inwards stays one through live objects.
          have hinwards : forall w, w ∈ h.children v ->
              h.write fuel true (v :: path) w = (h.draw fuel (v :: path) w).text h true ∧
                (h.draw fuel (v :: path) w).Faithful h ∧
                (h.draw fuel (v :: path) w).Marked (v :: path) := by
            intro w hw
            refine ih (List.nodup_cons.mpr ⟨hnew, hnodup⟩)
              (List.cons_subset.mpr ⟨mem_objects_of_mem_children hw, hpath⟩) ?_ true w
            rw [List.length_cons]
            omega
          have hvalues := map_value_draw h fuel (v :: path) (h.children v)
          refine ⟨?_, ⟨hcollection, hvalues, allFaithful_iff.mpr ?_⟩, hnew, allMarked_iff.mpr ?_⟩
          · rw [write_new hcollection hnew, text, texts_eq_map, List.map_map]
            exact congrArg (h.wholeText · v)
              (List.map_congr_left fun w hw => (hinwards w hw).1)
          · intro d hd
            obtain ⟨w, hw, rfl⟩ := List.mem_map.mp hd
            exact (hinwards w hw).2.1
          · intro d hd
            obtain ⟨w, hw, rfl⟩ := List.mem_map.mp hd
            exact (hinwards w hw).2.2

/-! ## Cycles -/

/-- The first value is a collection that holds the second one. -/
def Encloses (h : Heap) (v w : Value) : Prop :=
  w ∈ h.children v

/-- Among what the value leads to, itself included, something leads to itself. -/
def LeadsToCycle (h : Heap) (v : Value) : Prop :=
  exists w, Relation.ReflTransGen h.Encloses v w ∧ Relation.TransGen h.Encloses w w

end Heap

namespace Drawing

variable {h : Heap} {d sub : Drawing} {above : List Value} {v w : Value}

/-- What the drawing of a value is. -/
structure Shows (h : Heap) (v : Value) (d : Drawing) : Prop where
  root : d.value = v
  contents : d.Faithful h
  cuts : d.CutsRepeats

theorem Faithful.encloses {parts : List Drawing} (hd : (full v parts).Faithful h)
    (hpart : d ∈ parts) : h.Encloses v d.value := by
  rw [Heap.Encloses, ← hd.2.1]
  exact List.mem_map_of_mem hpart

theorem Faithful.leads (hd : d.Faithful h) (hsub : Occurs sub above d) :
    Relation.ReflTransGen h.Encloses d.value sub.value := by
  induction hsub with
  | root => exact .refl
  | inside hpart _ ih =>
      exact .head (hd.encloses hpart) (ih (allFaithful_iff.mp hd.2.2 _ hpart))

/-- What stands above a drawing leads to its value. -/
theorem Faithful.above_leads (hd : d.Faithful h) (hsub : Occurs sub above d) (hw : w ∈ above) :
    Relation.ReflTransGen h.Encloses d.value w ∧ Relation.TransGen h.Encloses w sub.value := by
  induction hsub with
  | root => cases hw
  | @inside above v part parts hpart hsub ih =>
      have hinner := allFaithful_iff.mp hd.2.2 _ hpart
      rcases List.mem_append.mp hw with hw | hw
      · obtain ⟨hto, hfrom⟩ := ih hinner hw
        exact ⟨.head (hd.encloses hpart) hto, hfrom⟩
      · cases List.mem_singleton.mp hw
        exact ⟨.refl, .head' (hd.encloses hpart) (hinner.leads hsub)⟩

/-- Nothing in the drawing is cut short. -/
def Whole (d : Drawing) : Prop :=
  forall above w, ¬ Occurs (cut w) above d

theorem Whole.part {parts : List Drawing} (hwhole : (full v parts).Whole) (hpart : d ∈ parts) :
    d.Whole :=
  fun _ w hcut => hwhole _ w (.inside hpart hcut)

theorem Whole.exists_part (hwhole : d.Whole) (hd : d.Faithful h)
    (hencloses : h.Encloses d.value w) :
    exists d' : Drawing, d'.value = w ∧ d'.Whole ∧ d'.Faithful h ∧ sizeOf d' < sizeOf d := by
  cases d with
  | leaf v =>
      have hcollection : v.isCollection = true := Heap.isCollection_of_mem_children hencloses
      rw [show v.isCollection = false from hd] at hcollection
      cases hcollection
  | cut v => exact absurd .root (hwhole [] v)
  | full v parts =>
      rw [Heap.Encloses, value, ← hd.2.1] at hencloses
      obtain ⟨part, hpart, rfl⟩ := List.mem_map.mp hencloses
      refine ⟨part, rfl, hwhole.part hpart, allFaithful_iff.mp hd.2.2 part hpart, ?_⟩
      have hsize := List.sizeOf_lt_of_mem hpart
      simp only [full.sizeOf_spec]
      omega

/-- A whole drawing has a smaller one inside for everything that its value leads to. -/
theorem Whole.exists_smaller (hwhole : d.Whole) (hd : d.Faithful h)
    (hleads : Relation.TransGen h.Encloses d.value w) :
    exists d' : Drawing, d'.value = w ∧ d'.Whole ∧ d'.Faithful h ∧ sizeOf d' < sizeOf d := by
  induction hleads with
  | single hencloses => exact hwhole.exists_part hd hencloses
  | tail _ hencloses ih =>
      obtain ⟨d', rfl, hwhole', hd', hsize'⟩ := ih
      obtain ⟨d'', hvalue, hwhole'', hd'', hsize''⟩ := hwhole'.exists_part hd' hencloses
      exact ⟨d'', hvalue, hwhole'', hd'', Nat.lt_trans hsize'' hsize'⟩

theorem Whole.not_onCycle (hwhole : d.Whole) (hd : d.Faithful h) :
    ¬ Relation.TransGen h.Encloses d.value d.value := by
  intro hcycle
  -- Once around the cycle there is a smaller drawing of the same value.
  induction hsize : sizeOf d using Nat.strongRecOn generalizing d with
  | ind size ih =>
      obtain ⟨d', hvalue, hwhole', hd', hless⟩ := hwhole.exists_smaller hd hcycle
      exact ih (sizeOf d') (hsize ▸ hless) hwhole' hd' (hvalue ▸ hcycle) rfl

/-- A whole drawing is finite, so its value leads to no cycle. -/
theorem Whole.not_leadsToCycle (hwhole : d.Whole) (hd : d.Faithful h) :
    ¬ h.LeadsToCycle d.value := by
  rintro ⟨w, hto, hcycle⟩
  rcases Relation.reflTransGen_iff_eq_or_transGen.mp hto with rfl | hto
  · exact hwhole.not_onCycle hd hcycle
  · obtain ⟨d', rfl, hwhole', hd', -⟩ := hwhole.exists_smaller hd hto
    exact hwhole'.not_onCycle hd' hcycle

theorem Whole.cutsRepeats (hwhole : d.Whole) (hd : d.Faithful h) : d.CutsRepeats := by
  intro above sub hsub _
  constructor
  · intro hcut
    cases sub with
    | cut w => exact absurd hsub (hwhole above w)
    | _ => cases hcut
  · intro hrepeats
    obtain ⟨hto, hcycle⟩ := hd.above_leads hsub hrepeats
    exact absurd ⟨sub.value, hto, hcycle⟩ (hwhole.not_leadsToCycle hd)

theorem Shows.unique {d' : Drawing} (hd : d.Shows h v) (hd' : d'.Shows h v) : d' = d :=
  hd'.contents.unique hd.contents (hd'.contents.cutsRepeats_iff.mp hd'.cuts)
    (hd.contents.cutsRepeats_iff.mp hd.cuts) (hd'.root.trans hd.root.symm)

/-- Something is cut short exactly when there is a cycle. -/
theorem Shows.exists_cut_iff (hd : d.Shows h v) :
    (exists above w, Occurs (cut w) above d) ↔ h.LeadsToCycle v := by
  cases hd.root
  constructor
  · rintro ⟨above, w, hcut⟩
    have hrepeats : w ∈ above :=
      (hd.cuts above (cut w) hcut (hd.contents.of_occurs hcut)).mp rfl
    exact ⟨w, hd.contents.above_leads hcut hrepeats⟩
  · intro hcycle
    by_contra hcuts
    have hwhole : d.Whole := fun above w hcut => hcuts ⟨above, w, hcut⟩
    exact hwhole.not_leadsToCycle hd.contents hcycle

end Drawing

namespace Heap

open Drawing

variable {h : Heap} {v : Value}

theorem shows_draw (h : Heap) (fuel : Nat) (v : Value) (hfuel : h.size < fuel) :
    (h.draw fuel [] v).Shows h v where
  root := h.draw_value fuel [] v
  contents := (draw_spec .nil (List.nil_subset _) hfuel false v).2.1
  cuts :=
    have hspec := (draw_spec .nil (List.nil_subset _) hfuel false v).2
    hspec.1.cutsRepeats_iff.mpr hspec.2

/-- The text of a value is that of the drawing that shows it. -/
theorem write_eq_text {d : Drawing} {fuel : Nat} (hd : d.Shows h v) (hfuel : h.size < fuel)
    (inside : Bool) : h.write fuel inside [] v = d.text h inside := by
  rw [(draw_spec .nil (List.nil_subset _) hfuel inside v).1,
    hd.unique (h.shows_draw fuel v hfuel)]

/-- Without a cycle, the text of a value is that of a plain recursion. -/
theorem write_of_not_leadsToCycle (hacyclic : ¬ h.LeadsToCycle v) (inside : Bool) :
    h.write (h.size + 1) inside [] v =
      if v.isCollection then
        h.wholeText ((h.children v).map (h.write (h.size + 1) true [])) v
      else
        h.leafText inside v := by
  have hd := h.shows_draw (h.size + 1) v (Nat.lt_succ_self _)
  have hwhole : (h.draw (h.size + 1) [] v).Whole := fun above w hcut =>
    hacyclic (hd.exists_cut_iff.mp ⟨above, w, hcut⟩)
  rw [write_eq_text hd (Nat.lt_succ_self _) inside]
  generalize h.draw (h.size + 1) [] v = d at hd hwhole
  cases hd.root
  cases d with
  | leaf v => rw [value, if_neg (by simp [show v.isCollection = false from hd.contents]), text]
  | cut v => exact absurd .root (hwhole [] v)
  | full v parts =>
      have hparts : parts.map (text h true) =
          (h.children v).map (h.write (h.size + 1) true []) := by
        rw [← hd.contents.2.1, List.map_map]
        refine List.map_congr_left fun part hpart => ?_
        have hcontents := allFaithful_iff.mp hd.contents.2.2 part hpart
        have hshows : part.Shows h part.value :=
          ⟨rfl, hcontents, (hwhole.part hpart).cutsRepeats hcontents⟩
        exact (write_eq_text hshows (Nat.lt_succ_self _) true).symm
      rw [value, if_pos hd.contents.1, text, texts_eq_map, hparts]

/-- The text of a value shows its one drawing, in which the repeats on a way from the root are cut
short and nothing else; a value that leads to no cycle is written by a plain recursion. -/
theorem render_shows_unfolding (h : Heap) (v : Value) :
    exists d : Drawing,
      d.Shows h v ∧
      (forall d' : Drawing, d'.Shows h v -> d' = d) ∧
      h.render v = d.text h false ∧
      (forall more inside, h.write (h.size + 1 + more) inside [] v = d.text h inside) ∧
      ((exists above w, Occurs (.cut w) above d) ↔ h.LeadsToCycle v) ∧
      (¬ h.LeadsToCycle v -> forall inside,
        h.write (h.size + 1) inside [] v =
          if v.isCollection then
            h.wholeText ((h.children v).map (h.write (h.size + 1) true [])) v
          else
            h.leafText inside v) := by
  have hd := h.shows_draw (h.size + 1) v (Nat.lt_succ_self _)
  exact ⟨_, hd, fun _ => hd.unique, write_eq_text hd (Nat.lt_succ_self _) false,
    fun more => write_eq_text hd (by omega), hd.exists_cut_iff, write_of_not_leadsToCycle⟩

/-- An array that holds one item twice, and one that holds itself and the first one. -/
def tangle : Heap where
  arrays := #[#[.array 1, .array 1], #[.integer 1], #[.array 2, .array 0]]

theorem tangle_shared_not_leadsToCycle : ¬ tangle.LeadsToCycle (.array 0) := by
  have hwhole :
      (full (.array 0) (List.replicate 2 (full (.array 1) [leaf (.integer 1)]))).Whole := by
    intro above w hcut
    cases hcut with
    | inside hpart hcut =>
        cases List.eq_of_mem_replicate hpart
        cases hcut with
        | inside hpart hcut =>
            cases List.mem_singleton.mp hpart
            cases hcut
  refine hwhole.not_leadsToCycle ?_
  simp [Faithful, AllFaithful, Value.isCollection, children, items, tangle, value]

/-- What is held twice is written twice, and what holds itself is cut short once. -/
theorem tangle_render :
    (exists d above w, d.Shows tangle (.array 2) ∧ Occurs (.cut w) above d) ∧
      tangle.render (.array 2) = "[[..], [[1], [1]]]" ∧
      tangle.write 4 false [] (.array 0) =
        tangle.wholeText ((tangle.children (.array 0)).map (tangle.write 4 true []))
          (.array 0) := by
  refine ⟨?_, by decide +kernel, ?_⟩
  · obtain ⟨d, hd, -, -, -, hcut, -⟩ := render_shows_unfolding tangle (.array 2)
    have hcycle : tangle.LeadsToCycle (.array 2) :=
      ⟨.array 2, .refl, .single (by simp [Encloses, children, items, tangle])⟩
    obtain ⟨above, w, hoccurs⟩ := hcut.mpr hcycle
    exact ⟨d, above, w, hd, hoccurs⟩
  · obtain ⟨d, -, -, -, -, -, hplain⟩ := render_shows_unfolding tangle (.array 0)
    exact hplain tangle_shared_not_leadsToCycle false

end Heap
end StackScript
