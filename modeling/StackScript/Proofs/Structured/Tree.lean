import StackScript.Proofs.Source.Expression
import StackScript.Proofs.Structured.Phrase

/-!
# Trees of structured programs

The blocks around a phrase, as the reader keeps them, and the tree that the reader makes
of a phrase.  A block ends by forgetting its locals, and `break` and `continue` forget the
locals of all blocks inside the loop.
-/

namespace StackScript

open Phrase (Names)

/-! ## Blocks as scopes -/

namespace Scope

/-- The locals of blocks, above the slot of the script itself. -/
def labels : Names -> List Local
  | [] => [⟨"", some 0⟩]
  | s :: outer => s.map (fun x => ⟨x.text, some (outer.length + 1)⟩) ++ labels outer

def ofNames (names : Names) : Scope :=
  ⟨labels names, names.length⟩

@[simp] theorem depth_ofNames (names : Names) : (ofNames names).depth = names.length := rfl

@[simp] theorem enter_ofNames (names : Names) : (ofNames names).enter = ofNames ([] :: names) := by
  simp [ofNames, labels, enter]

theorem length_labels (names : Names) : (labels names).length = names.flatten.length + 1 := by
  induction names with
  | nil => rfl
  | cons s outer ih => simp [labels, ih, Nat.add_assoc]

@[simp] theorem size_ofNames (names : Names) :
    (ofNames names).size = names.flatten.length + 1 :=
  length_labels names

def countAbove (names : Names) (depth : Nat) : Nat :=
  (names.take (names.length - depth)).flatten.length

theorem depth_of_mem_labels {names : Names} {l : Local} (h : l ∈ labels names) :
    exists d, l.depth = some d ∧ d <= names.length := by
  induction names with
  | nil =>
      rw [labels, List.mem_singleton] at h
      exact ⟨0, by rw [h], Nat.le_refl 0⟩
  | cons s outer ih =>
      rcases List.mem_append.mp h with h | h
      · rcases List.mem_map.mp h with ⟨x, -, rfl⟩
        exact ⟨_, rfl, Nat.le_refl _⟩
      · rcases ih h with ⟨d, hd, hle⟩
        exact ⟨d, hd, Nat.le_succ_of_le hle⟩

/-- A run of labels that reaches into the innermost block only takes all of it. -/
theorem takeWhile_labels_cons {q : Local -> Bool} {s : List Name} {outer : Names}
    (hinner : forall name, q ⟨name, some (outer.length + 1)⟩ = true) :
    (labels (s :: outer)).takeWhile q =
      s.map (fun x => ⟨x.text, some (outer.length + 1)⟩) ++ (labels outer).takeWhile q := by
  rw [labels, List.takeWhile_append_of_pos]
  intro l hl
  rcases List.mem_map.mp hl with ⟨x, -, rfl⟩
  exact hinner x.text

theorem takeWhile_labels_nil {q : Local -> Bool} {names : Names}
    (houter : forall name d, d <= names.length -> q ⟨name, some d⟩ = false) :
    (labels names).takeWhile q = [] := by
  cases hl : labels names with
  | nil => rfl
  | cons l rest =>
      have hmem : l ∈ labels names := by simp [hl]
      rcases depth_of_mem_labels hmem with ⟨d, hd, hle⟩
      rcases l with ⟨name, depth⟩
      cases hd
      simp [houter name d hle]

theorem above_ofNames (names : Names) (depth : Nat) :
    (ofNames names).above depth = countAbove names depth := by
  unfold above ofNames
  induction names with
  | nil => simp [labels, Local.deeper, countAbove]
  | cons s outer ih =>
      by_cases hd : depth < outer.length + 1
      · have hlength : outer.length + 1 - depth = outer.length - depth + 1 := by lia
        rw [takeWhile_labels_cons (by simp [Local.deeper, hd]), List.length_append, ih]
        simp [countAbove, hlength]
      · have hzero : outer.length + 1 - depth = 0 := by lia
        rw [takeWhile_labels_nil]
        · simp [countAbove, hzero]
        · intro name d hle
          simp only [List.length_cons] at hle
          simp only [Local.deeper, decide_eq_false_iff_not]
          lia

theorem countAbove_cons_length (s : List Name) (outer : Names) :
    countAbove (s :: outer) outer.length = s.length := by
  have hlength : outer.length + 1 - outer.length = 1 := by lia
  simp [countAbove, hlength]

@[simp] theorem exit_ofNames (s : List Name) (outer : Names) :
    (ofNames (s :: outer)).exit = ofNames outer := by
  unfold exit
  rw [depth_ofNames, List.length_cons, Nat.add_sub_cancel, above_ofNames, countAbove_cons_length]
  simp [ofNames, labels]

theorem declares_ofNames (s : List Name) (outer : Names) (x : Name) :
    (ofNames (s :: outer)).declares x.text = s.contains x := by
  have hblock : (labels (s :: outer)).takeWhile (fun l => !l.outside (outer.length + 1)) =
      s.map fun y => ⟨y.text, some (outer.length + 1)⟩ := by
    rw [takeWhile_labels_cons (by simp [Local.outside]), takeWhile_labels_nil, List.append_nil]
    intro name d hle
    simp only [Local.outside, Bool.not_eq_false', decide_eq_true_eq]
    lia
  simp only [declares, ofNames, List.length_cons, hblock, List.any_map]
  rw [Bool.eq_iff_iff, List.any_eq_true, List.contains_iff_mem]
  constructor
  · rintro ⟨y, hy, hyx⟩
    have : y = x := by
      cases x
      cases y
      simpa using hyx
    exact this ▸ hy
  · intro hx
    exact ⟨x, hx, by simp⟩

theorem declare?_ofNames {s : List Name} {outer : Names} {x : Name} (hx : s.contains x = false) :
    (ofNames (s :: outer)).declare? x.text =
      some ⟨⟨x.text, none⟩ :: labels (s :: outer), outer.length + 1⟩ := by
  rw [declare?, declares_ofNames, hx]
  rfl

/-! ## Names inside of blocks -/

theorem resolveIn_labels_ne_unsettled (names : Names) (name : String) :
    resolveIn name (labels names) ≠ .unsettled := by
  have hlist (l : List Local) (hl : forall a, a ∈ l -> exists d, a.depth = some d) :
      resolveIn name l ≠ .unsettled := by
    induction l with
    | nil => simp [resolveIn]
    | cons a l ih =>
        rcases hl a (by simp) with ⟨d, hd⟩
        rw [resolveIn, hd]
        split
        · simp
        · exact ih fun b hb => hl b (by simp [hb])
  apply hlist
  intro l hl
  rcases depth_of_mem_labels hl with ⟨d, hd, -⟩
  exact ⟨d, hd⟩

def lookIn (names : Names) : Name -> Variable :=
  (ofNames names).look

/-- A local that is being declared hides no other name. -/
theorem resolve_declared {names : Names} {depth : Nat} {x y : Name} (hne : y ≠ x) :
    resolve ⟨⟨x.text, none⟩ :: labels names, depth⟩ y.text = (ofNames names).resolve y.text := by
  have htext : x.text ≠ y.text := by
    intro h
    apply hne
    cases x
    cases y
    cases h
    rfl
  simp [resolve, resolveIn, htext, ofNames]

end Scope

theorem Term.settled_ofNames (t : Term) (names : Names) :
    t.Settled (Scope.ofNames names) (Scope.lookIn names) :=
  fun x _ => ⟨Scope.resolveIn_labels_ne_unsettled names x.text, rfl⟩

theorem Term.settled_declared {t : Term} {names : Names} {depth : Nat} {x : Name}
    (hx : t.names.contains x = false) :
    t.Settled ⟨⟨x.text, Option.none⟩ :: Scope.labels names, depth⟩ (Scope.lookIn names) := by
  intro y hy
  have hne : y ≠ x := by
    rintro rfl
    simp [hy] at hx
  have hresolve : Scope.resolve ⟨⟨x.text, Option.none⟩ :: Scope.labels names, depth⟩ y.text = _ :=
    Scope.resolve_declared hne
  constructor
  · rw [hresolve]
    exact Scope.resolveIn_labels_ne_unsettled names y.text
  · rw [Scope.look, hresolve]
    rfl

/-! ## Trees -/

/-- Whether a tree is that of the action with its names resolved. -/
def Action.Matches (look : Name -> Variable) : Action -> Expr -> Prop
  | evaluate t, e => t.term.Matches look e
  | assign x t, e => exists e' line, e = .assign (look x) e' line ∧ t.term.Matches look e'
  | update x op t, e =>
    exists opLine e' line, e = .update (look x) op opLine e' line ∧ t.term.Matches look e'

/-- Whether a tree is that of a block with so many locals at its end. -/
def Closed (tree : Stmt -> Prop) (locals : Nat) (s : Stmt) : Prop :=
  exists b line, s = .seq b (.drop locals line) ∧ tree b

/-- The number of locals of the innermost block. -/
def innermost : Names -> Nat
  | [] => 0
  | s :: _ => s.length

namespace Phrase

/-- Whether a tree is that of the phrase inside of blocks with the given names and of a loop of the
given depth, whatever lines its nodes carry. -/
def Matches {p : Part} : Phrase p -> Names -> Option Nat -> Stmt -> Prop
  | declare x t, [], _, s =>
    exists e line, s = .define x.text e line ∧ t.term.Matches (Scope.lookIn []) e
  | declare _ t, names, _, s => exists e, s = .bind e ∧ t.term.Matches (Scope.lookIn names) e
  | perform a, names, _, s => exists e line, s = .expr e line ∧ a.Matches (Scope.lookIn names) e
  | echo t, names, _, s =>
    exists e line, s = .output .echo e line ∧ t.term.Matches (Scope.lookIn names) e
  | throw t, names, _, s =>
    exists e line, s = .throw e line ∧ t.term.Matches (Scope.lookIn names) e
  | cond c body other, names, loop, s =>
    exists e line b bodyLine o, s = .cond e line b bodyLine o ∧
      c.term.Matches (Scope.lookIn names) e ∧
      Closed (body.Matches ([] :: names) loop) (innermost (body.after ([] :: names))) b ∧
      other.Matches names loop o
  | whileLoop c body, names, _, s =>
    exists e line b bodyLine, s = .while e line b bodyLine ∧
      c.term.Matches (Scope.lookIn names) e ∧
      Closed (body.Matches ([] :: names) (some names.length))
        (innermost (body.after ([] :: names))) b
  | forLoop x start c step body, names, _, s =>
    let inner := [x] :: names
    exists a e line jumpLine d stepLine b bodyLine dropLine,
      s = .seq (.seq (.bind a) (.stepping e line jumpLine d stepLine b bodyLine))
        (.drop 1 dropLine) ∧
      start.term.Matches (Scope.lookIn names) a ∧ c.term.Matches (Scope.lookIn inner) e ∧
      step.Matches (Scope.lookIn inner) d ∧
      Closed (body.Matches ([] :: inner) (some inner.length))
        (innermost (body.after ([] :: inner))) b
  | leave, names, loop, s =>
    exists d line, loop = some d ∧ s = .leave (Scope.countAbove names d) line
  | again, names, loop, s =>
    exists d line, loop = some d ∧ s = .again (Scope.countAbove names d) line
  | guarded body (some x) handler, names, loop, s =>
    exists b bodyLine c line,
      s = .try (names.flatten.length + 1) b bodyLine (.seq c (.drop 1 line)) ∧
      Closed (body.Matches ([] :: names) loop) (innermost (body.after ([] :: names))) b ∧
      Closed (handler.Matches ([] :: [x] :: names) loop)
        (innermost (handler.after ([] :: [x] :: names))) c
  | guarded body none handler, names, loop, s =>
    exists b bodyLine dropLine c line,
      s = .try (names.flatten.length + 1) b bodyLine
        (.seq (.drop 1 dropLine) (.seq c (.drop 0 line))) ∧
      Closed (body.Matches ([] :: names) loop) (innermost (body.after ([] :: names))) b ∧
      Closed (handler.Matches ([] :: [] :: names) loop)
        (innermost (handler.after ([] :: [] :: names))) c
  | done, _, _, s => s = .skip
  | next first rest, names, loop, s =>
    exists a b, s = .seq a b ∧ first.Matches names loop a ∧
      rest.Matches (first.after names) loop b
  | nothing, _, _, s => s = .skip
  | otherwise body, names, loop, s =>
    Closed (body.Matches ([] :: names) loop) (innermost (body.after ([] :: names))) s
  | elif c body other, names, loop, s =>
    exists e line b bodyLine o, s = .cond e line b bodyLine o ∧
      c.term.Matches (Scope.lookIn names) e ∧
      Closed (body.Matches ([] :: names) loop) (innermost (body.after ([] :: names))) b ∧
      other.Matches names loop o

end Phrase
end StackScript
