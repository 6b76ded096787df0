import StackScript.Proofs.Heap.Operation

/-!
# Copies

A copy, a slice and the keys of a table are new objects.  Whatever operations follow, an object
keeps its contents as long as none of them is called on it, so a copy and what it was made from
go their own ways.  The elements are not copied: the copy holds the same values, and a value
that is an object is the same object in both.
-/

namespace StackScript
namespace Heap

/-! ## One operation after the other -/

/-- The heap after an operation, whether it was completed or failed. -/
def after (h : Heap) (op : Operation) : Heap :=
  match op.apply h with
  | .ok _ h' | .error _ h' => h'

def afterAll (h : Heap) (ops : List Operation) : Heap :=
  ops.foldl after h

section After

variable {h : Heap} {x : Value} {c : Contents}

theorem changed_after (h : Heap) (op : Operation) : Changed op.target? h (h.after op) := by
  have hchanges := op.changes_apply h
  unfold after
  cases happly : op.apply h with
  | ok v h' =>
      rw [happly] at hchanges
      exact hchanges
  | error f h' =>
      rw [happly] at hchanges
      rw [show h' = h from hchanges]
      exact .refl _ h

theorem contents?_after {op : Operation} (hx : h.contents? x = some c) (hop : op.object ≠ x) :
    (h.after op).contents? x = some c := by
  refine (changed_after h op).kept x c hx ?_
  unfold Operation.target?
  split
  · exact fun heq => hop (Option.some.inj heq)
  · exact nofun

/-- An object keeps its contents under operations that are not called on it. -/
theorem contents?_afterAll {ops : List Operation} (hx : h.contents? x = some c)
    (hops : forall op, op ∈ ops -> op.object ≠ x) : (h.afterAll ops).contents? x = some c := by
  induction ops generalizing h with
  | nil => exact hx
  | cons op ops ih =>
      have hnext : (h.after op).contents? x = some c :=
        contents?_after hx (hops op List.mem_cons_self)
      exact ih hnext fun o ho => hops o (List.mem_cons_of_mem _ ho)

end After

/-! ## Reading an element -/

section Elements

variable {h h' : Heap} {id : Nat} {x y : Value} {c : Contents}

theorem contents?_array (hx : h.contents? (.array id) = some c) : c = .items (h.items id) := by
  rcases Option.map_eq_some_iff.mp hx with ⟨items, hitems, rfl⟩
  rw [Heap.items, Array.getD_eq_getD_getElem?, hitems, Option.getD_some]

theorem contents?_table (hx : h.contents? (.table id) = some c) : c = .entries (h.entries id) := by
  rcases Option.map_eq_some_iff.mp hx with ⟨entries, hentries, rfl⟩
  rw [Heap.entries, Array.getD_eq_getD_getElem?, hentries, Option.getD_some]

/-- What is read from an object depends on its contents alone. -/
theorem get_of_contents? (key : Value) (hx : h.contents? x = some c)
    (hy : h'.contents? y = some c) : h'.get y key = h.get x key := by
  cases x with
  | array i =>
      cases y with
      | array j =>
          have hitems : h'.items j = h.items i := by
            simpa [contents?_array hx] using (contents?_array hy).symm
          simp only [get, hitems]
      | table j =>
          rw [contents?_array hx] at hy
          cases contents?_table hy
      | _ => cases hy
  | table i =>
      cases y with
      | array j =>
          rw [contents?_table hx] at hy
          cases contents?_array hy
      | table j =>
          have hentries : h'.entries j = h.entries i := by
            simpa [contents?_table hx] using (contents?_table hy).symm
          simp only [get, getProperty, hentries]
      | _ => cases hy
  | _ => cases hx

end Elements

/-! ## New objects -/

/-- Whether an operation makes a new object out of its first argument. -/
def Operation.copies : Operation -> Bool
  | copy _ | slice _ _ _ | keys _ => true
  | _ => false

section Copies

variable {h h' : Heap} {x c : Value}

theorem copy_of_apply (happly : (Operation.copy x).apply h = .ok c h') :
    h.copy x = (c, h') := by
  injection happly with hc hh
  exact Prod.ext hc hh

theorem added_copy (hx : h.Has x) (hcopy : h.copy x = (c, h')) :
    exists k, h.contents? x = some k ∧ Added c k h h' := by
  rcases hx with ⟨k, hk⟩
  refine ⟨k, hk, ?_⟩
  cases x with
  | array id =>
      rw [contents?_array hk]
      cases hcopy
      exact added_newArray
  | table id =>
      rw [contents?_table hk]
      cases hcopy
      exact added_newTable
  | _ => cases hk

theorem added_slice {start stop : Value} (hx : h.Has x)
    (hslice : h.slice x start stop = .ok c h') : exists k, Added c k h h' := by
  cases x with
  | array id =>
      unfold slice at hslice
      cases hbounds : sliceBounds start stop (h.items id).size with
      | error f =>
          simp only [hbounds] at hslice
          cases hslice
      | ok bounds =>
          simp only [hbounds] at hslice
          cases hslice
          exact ⟨_, added_newArray⟩
  | table id => cases hslice
  | _ => rcases hx with ⟨k, ⟨⟩⟩

theorem added_keys (hx : h.Has x) (hkeys : h.keys x = .ok c h') :
    exists k, Added c k h h' := by
  cases x with
  | array id => cases hkeys
  | table id =>
      cases hkeys
      exact ⟨_, added_newArray⟩
  | _ => rcases hx with ⟨k, ⟨⟩⟩

theorem added_of_copies {op : Operation} (hop : op.copies = true) (hx : h.Has op.object)
    (happly : op.apply h = .ok c h') : exists k, Added c k h h' := by
  cases op with
  | copy x =>
      rcases added_copy hx (copy_of_apply happly) with ⟨k, -, hadded⟩
      exact ⟨k, hadded⟩
  | slice x start stop => exact added_slice hx happly
  | keys x => exact added_keys hx happly
  | _ => cases hop

end Copies

/-- What is made out of an array or a table is another object.  It keeps its elements, whatever is
done to other objects, and the object that it was made from keeps its contents, whatever is done
to others.  A copy begins with all elements of that object.  They are the same values in both, so
one that is an object stays the same object in both while other operations change it. -/
theorem copies_are_apart {op : Operation} {h h' : Heap} {c : Value} (hop : op.copies = true)
    (hx : h.Has op.object) (happly : op.apply h = .ok c h') :
    c ≠ op.object ∧ h'.Has c ∧
    (forall ops : List Operation, (forall o, o ∈ ops -> o.object ≠ c) ->
      (h'.afterAll ops).contents? c = h'.contents? c) ∧
    (forall ops : List Operation, (forall o, o ∈ ops -> o.object ≠ op.object) ->
      (h'.afterAll ops).contents? op.object = h.contents? op.object) ∧
    (op = .copy op.object -> h'.contents? c = h.contents? op.object ∧
      forall (key y : Value) (ops : List Operation), h.get op.object key = .ok y ->
        ((forall o, o ∈ ops -> o.object ≠ c) -> (h'.afterAll ops).get c key = .ok y) ∧
        ((forall o, o ∈ ops -> o.object ≠ op.object) ->
          (h'.afterAll ops).get op.object key = .ok y)) := by
  rcases added_of_copies hop hx happly with ⟨k, hadded⟩
  have hne : c ≠ op.object := fun heq => hadded.new (heq ▸ hx)
  rcases hx with ⟨kx, hkx⟩
  have hkx' : h'.contents? op.object = some kx := by rw [hadded.others _ hne.symm, hkx]
  refine ⟨hne, ⟨k, hadded.contents⟩, ?_, ?_, ?_⟩
  · intro ops hops
    rw [contents?_afterAll hadded.contents hops, hadded.contents]
  · intro ops hops
    rw [contents?_afterAll hkx' hops, hkx]
  · intro hcopy
    have hcopied : h.copy op.object = (c, h') := by
      rw [hcopy] at happly
      exact copy_of_apply happly
    rcases added_copy ⟨kx, hkx⟩ hcopied with ⟨k', hk', hadded'⟩
    have hkc : h'.contents? c = some kx := by
      rw [hadded'.contents, ← hk', hkx]
    refine ⟨by rw [hkc, hkx], ?_⟩
    intro key y ops hy
    constructor
    · intro hops
      rw [get_of_contents? key hkx (contents?_afterAll hkc hops), hy]
    · intro hops
      rw [get_of_contents? key hkx (contents?_afterAll hkx' hops), hy]

/-- An array that holds itself and an empty one. -/
def knot : Heap :=
  { arrays := #[#[.array 0, .array 1], #[]] }

def copiedKnot : Heap :=
  (knot.copy (.array 0)).2

/-- Growing the copy leaves the array alone, and emptying the array leaves the copy alone, while
the array that both hold grows. -/
theorem knot_is_apart_from_copy :
    (Operation.copy (.array 0)).copies = true ∧ knot.Has (.array 0) ∧
      (Operation.copy (.array 0)).apply knot = .ok (.array 2) copiedKnot ∧
      (copiedKnot.afterAll [.push (.array 2) .none, .push (.array 1) .none]).contents?
        (.array 0) = knot.contents? (.array 0) ∧
      (copiedKnot.afterAll [.clear (.array 0), .push (.array 1) .none]).get
        (.array 2) (.integer 1) = .ok (.array 1) := by
  have hhas : knot.Has (.array 0) := ⟨_, rfl⟩
  have happly : (Operation.copy (.array 0)).apply knot = .ok (.array 2) copiedKnot := rfl
  rcases copies_are_apart rfl hhas happly with ⟨-, -, -, hkept, hcopied⟩
  have helement : knot.get (.array 0) (.integer 1) = .ok (.array 1) := rfl
  refine ⟨rfl, hhas, happly, hkept _ ?_, (((hcopied rfl).2 _ _ _ helement).1 ?_)⟩
  · simp [Operation.object]
  · simp [Operation.object]

end Heap
end StackScript
