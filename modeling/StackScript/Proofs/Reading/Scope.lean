import StackScript.Script.Scope
import Mathlib.Data.List.Basic

/-!
# Scopes while a function is read

Between statements all locals of a scope have their values and none lies deeper
than the current block.  Reading a statement only adds locals of the current block,
so leaving the block gives back the scope from before it, and the height at which a
loop runs stays the same in its whole body.
-/

namespace StackScript
namespace Scope

/-- All locals have their values and belong to the current block or to one around it. -/
def Settled (s : Scope) : Prop :=
  forall l, l ∈ s.locals -> exists d, l.depth = some d ∧ d <= s.depth

def Bounds (s : Scope) (n : Nat) : Prop :=
  forall name k, s.resolve name = .slot k -> k < n

/-- A scope and the same scope with more locals of the current block. -/
def Grows (s s' : Scope) : Prop :=
  s'.depth = s.depth ∧
    exists new, s'.locals = new ++ s.locals ∧ forall l, l ∈ new -> l.depth = some s.depth

/-- The number of locals that a loop of the given depth leaves alone. -/
def loopHeight (s : Scope) (loop : Option Nat) : Option Nat :=
  loop.map fun depth => s.size - s.above depth

/-! ## Names -/

theorem lt_of_resolveIn {name : String} {locals : List Local} {k : Nat}
    (h : resolveIn name locals = .slot k) : k < locals.length := by
  induction locals with
  | nil => cases h
  | cons l rest ih =>
      simp only [resolveIn] at h
      split at h
      · split at h
        · cases h
        · cases h
          exact Nat.lt_succ_self _
      · exact Nat.lt_succ_of_lt (ih h)

theorem bounds_size (s : Scope) : s.Bounds s.size := by
  intro name k h
  exact lt_of_resolveIn h

/-- A local without a value has no slot yet. -/
theorem bounds_of_declare? {s s' : Scope} {name : String} (h : s.declare? name = some s') :
    s'.Bounds s.size := by
  intro other k hk
  unfold declare? at h
  split at h
  · cases h
  · cases h
    simp only [resolve, resolveIn] at hk
    split at hk
    · cases hk
    · exact lt_of_resolveIn hk

theorem settle_of_declare? {s s' : Scope} {name : String} (h : s.declare? name = some s') :
    s'.settle = s.hide name := by
  unfold declare? at h
  split at h
  · cases h
  · cases h
    rfl

/-! ## Growing -/

@[simp] theorem size_hide (s : Scope) (name : String) : (s.hide name).size = s.size + 1 :=
  rfl

@[simp] theorem loopHeight_none (s : Scope) : s.loopHeight none = none :=
  rfl

@[simp] theorem loopHeight_enter (s : Scope) (loop : Option Nat) :
    s.enter.loopHeight loop = s.loopHeight loop :=
  rfl

namespace Grows

theorem refl (s : Scope) : s.Grows s := by
  refine ⟨rfl, [], rfl, ?_⟩
  intro l hl
  cases hl

theorem trans {s s' s'' : Scope} (h : s.Grows s') (h' : s'.Grows s'') : s.Grows s'' := by
  rcases h with ⟨hd, new, hl, hn⟩
  rcases h' with ⟨hd', new', hl', hn'⟩
  refine ⟨hd'.trans hd, new' ++ new, ?_, ?_⟩
  · rw [hl', hl, List.append_assoc]
  · intro l hmem
    rcases List.mem_append.mp hmem with hmem | hmem
    · rw [← hd]
      exact hn' l hmem
    · exact hn l hmem

theorem hide (s : Scope) (name : String) : s.Grows (s.hide name) := by
  refine ⟨rfl, [⟨name, some s.depth⟩], rfl, ?_⟩
  intro l hl
  rw [List.mem_singleton.mp hl]

theorem settled {s s' : Scope} (h : s.Grows s') (hs : s.Settled) : s'.Settled := by
  rcases h with ⟨hd, new, hl, hn⟩
  intro l hmem
  rw [hd]
  rw [hl] at hmem
  rcases List.mem_append.mp hmem with hmem | hmem
  · exact ⟨s.depth, hn l hmem, Nat.le_refl _⟩
  · exact hs l hmem

theorem size_le {s s' : Scope} (h : s.Grows s') : s.size <= s'.size := by
  rcases h with ⟨-, new, hl, -⟩
  simp [size, hl]

end Grows

theorem Settled.enter {s : Scope} (h : s.Settled) : s.enter.Settled := by
  intro l hl
  rcases h l hl with ⟨d, hd, hle⟩
  exact ⟨d, hd, Nat.le_succ_of_le hle⟩

/-! ## Counting the locals of a block -/

theorem above_le_size (s : Scope) (depth : Nat) : s.above depth <= s.size :=
  (List.takeWhile_sublist _).length_le

theorem Settled.above_eq_zero {s : Scope} (h : s.Settled) : s.above s.depth = 0 := by
  unfold above
  cases hl : s.locals with
  | nil => rfl
  | cons l rest =>
      rcases h l (by simp [hl]) with ⟨d, hd, hle⟩
      have hnot : l.deeper s.depth = false := by
        simp only [Local.deeper, hd]
        exact decide_eq_false (Nat.not_lt.mpr hle)
      simp [hnot]

/-- New locals lie deeper than every block around the current one. -/
theorem above_of_grows {s s' : Scope} {d : Nat} (h : s.Grows s') (hd : d < s.depth) :
    s'.above d + s.size = s.above d + s'.size := by
  rcases h with ⟨-, new, hl, hn⟩
  have hdeep : forall l, l ∈ new -> l.deeper d = true := by
    intro l hmem
    simp only [Local.deeper, hn l hmem]
    exact decide_eq_true hd
  have htake : (new ++ s.locals).takeWhile (fun l => l.deeper d) =
      new ++ s.locals.takeWhile (fun l => l.deeper d) :=
    List.takeWhile_append_of_pos hdeep
  simp only [above, size, hl, htake, List.length_append]
  lia

theorem loopHeight_of_grows {s s' : Scope} {loop : Option Nat} (h : s.Grows s')
    (hloop : forall d, loop = some d -> d < s.depth) :
    s'.loopHeight loop = s.loopHeight loop := by
  cases loop with
  | none => rfl
  | some d =>
      have heq := above_of_grows h (hloop d rfl)
      have hle := s'.above_le_size d
      have hle' := s.above_le_size d
      simp only [loopHeight, Option.map_some]
      congr 1
      lia

/-- A loop that starts here leaves all locals alone. -/
theorem Settled.loopHeight_depth {s : Scope} (h : s.Settled) :
    s.loopHeight (some s.depth) = some s.size := by
  simp [loopHeight, h.above_eq_zero]

section Leaving

variable {s s' : Scope}

theorem above_exit (hs : s.Settled) (h : s.enter.Grows s') :
    s'.above (s'.depth - 1) + s.size = s'.size := by
  have heq := above_of_grows (d := s.depth) h (Nat.lt_succ_self _)
  have hzero : s.enter.above s.depth = 0 := hs.above_eq_zero
  have hdepth : s'.depth - 1 = s.depth := by
    rw [h.1]
    rfl
  have hsize : s.enter.size = s.size := rfl
  rw [hdepth]
  lia

/-- Leaving a block gives back the scope from before it. -/
theorem exit_of_grows (hs : s.Settled) (h : s.enter.Grows s') : s'.exit = s := by
  have habove := above_exit hs h
  rcases h with ⟨hd, new, hl, -⟩
  have hdepth : s'.depth - 1 = s.depth := by
    rw [hd]
    rfl
  have hlen : s'.above (s'.depth - 1) = new.length := by
    have hsize : s'.size = new.length + s.size := by
      simp [size, hl, enter]
    lia
  have hlocals : s'.locals.drop (s'.above (s'.depth - 1)) = s.locals := by
    rw [hlen, hl]
    exact List.drop_left
  unfold exit
  rw [hlocals, hdepth]

end Leaving

/-! ## The first scopes -/

theorem settled_script : script.Settled := by
  intro l hl
  rw [List.mem_singleton.mp hl]
  exact ⟨0, rfl, Nat.le_refl _⟩

theorem settled_function : function.Settled := by
  intro l hl
  rw [List.mem_singleton.mp hl]
  exact ⟨0, rfl, Nat.zero_le _⟩

end Scope
end StackScript
