import StackScript.Proofs.Machine.Increment
import StackScript.Proofs.Machine.Tidy
import StackScript.Proofs.Machine.Twins

/-!
# How a piece of code ends

A call that runs a piece of its code comes to the end of it, or something is raised that no call
above it catches, or it goes on forever.  What happens in between is one thing after the other: a
piece that consists of two ends as the second does after the first.  And a copy of the code ends in
the same way.
-/

namespace StackScript
namespace Machine

/-! ## Turns of a call and of those above it -/

/-- A turn after which the call over `outer` goes on, or one above it does.  What it raised, if
anything, was caught above. -/
structure Moves (outer : List Frame) (m m' : Machine) : Prop where
  tick : m.tick = (.running, m')
  frames : exists above f, m'.frames = above ++ f :: outer ∧ (above = [] -> m.raised? = none)

/-- The next instruction raises something that no call above the one over `outer` catches, and
leaves the machine like this, apart from the calls. -/
inductive Throws (outer : List Frame) : Machine -> Value -> Machine -> Prop where
  | mk {m m' : Machine} {e : Raised} {f g : Frame} {rest above : List Frame} :
      m.frames = f :: rest -> execute (m.fetch? f) m.advance = .error e m' ->
      m'.frames = above ++ g :: outer -> handler? m'.heap above = none ->
      Throws outer m e.toValue { m' with frames := outer }

/-- The call over `outer` is the innermost one, in front of the instruction at `stop`. -/
def IsAt (outer : List Frame) (stop : Nat) (m : Machine) : Prop :=
  exists f, m.frames = f :: outer ∧ f.ip = stop

/-- How the call over `outer` comes to `stop` or throws a value on the way, and the machine then,
apart from the call. -/
inductive Outcome (outer : List Frame) (stop : Nat) :
    Machine -> Option Value -> Machine -> Prop where
  | arrives {m : Machine} :
      m.IsAt outer stop -> Outcome outer stop m none { m with frames := outer }
  | throws {m x : Machine} {v : Value} : ¬ m.IsAt outer stop -> m.Throws outer v x ->
      Outcome outer stop m (some v) x
  | goes {m m' x : Machine} {v : Option Value} : ¬ m.IsAt outer stop -> m.Moves outer m' ->
      Outcome outer stop m' v x -> Outcome outer stop m v x

section Turns

variable {m m' m'' x y : Machine} {outer : List Frame} {stop : Nat} {v w : Value}

theorem raised?_of_execute_ok {f : Frame} {rest : List Frame} (hf : m.frames = f :: rest)
    (h : execute (m.fetch? f) m.advance = .ok () m') : m.raised? = none := by
  unfold raised?
  simp only [hf, h]

theorem raised?_of_execute_error {f : Frame} {rest : List Frame} {e : Raised}
    (hf : m.frames = f :: rest) (h : execute (m.fetch? f) m.advance = .error e m') :
    m.raised? = some e := by
  unfold raised?
  simp only [hf, h]

theorem handler?_append_of_some {h : Heap} {above rest out : List Frame} {g : Frame}
    {r : TryRange} (hh : handler? h above = some (g, r, out)) :
    handler? h (above ++ rest) = some (g, r, out ++ rest) := by
  induction above with
  | nil => cases hh
  | cons f above ih =>
      cases hr : (h.function f.function).findRange? (f.ip - 1) with
      | some r' =>
          rw [handler?_of_some hr] at hh
          cases hh
          exact handler?_of_some hr
      | none =>
          rw [handler?_of_none hr] at hh
          rw [List.cons_append, handler?_of_none hr, ih hh]

theorem handler?_append_of_none {h : Heap} {above rest : List Frame}
    (hh : handler? h above = none) : handler? h (above ++ rest) = handler? h rest := by
  induction above with
  | nil => rfl
  | cons f above ih =>
      have hr := of_handler?_none hh List.mem_cons_self
      rw [handler?_of_none hr] at hh
      rw [List.cons_append, handler?_of_none hr, ih hh]

/-- What is caught above a call is not thrown through it. -/
theorem Moves.not_throws (hm : m.Moves outer m') : ¬ m.Throws outer v x := by
  rintro ⟨hf, hexecute, hframes, hnone⟩
  rename_i m1 e f g rest above
  rcases hm.frames with ⟨inner, c, hinner, hraised⟩
  have htick := hm.tick
  rw [tick_of_execute_error hf hexecute, unwind, hframes, handler?_append_of_none hnone] at htick
  cases hfound : handler? m1.heap (g :: outer) with
  | none =>
      rw [hfound] at htick
      cases htick
  | some found =>
      rcases found with ⟨c', r, out⟩
      rw [hfound] at htick
      cases htick
      rcases of_handler?_some hfound with ⟨left, hleft, -, -⟩
      have hlength := congrArg List.length hleft
      have hlength' := congrArg List.length hinner
      simp only [catchIn, List.length_cons, List.length_append] at hlength hlength'
      have hempty : inner = [] := List.eq_nil_of_length_eq_zero (by lia)
      have hsome := raised?_of_execute_error hf hexecute
      rw [hraised hempty] at hsome
      cases hsome

theorem Throws.unique (h : m.Throws outer v x) (h' : m.Throws outer w y) : v = w ∧ x = y := by
  rcases h with ⟨hf, hexecute, -, -⟩
  rcases h' with ⟨hf', hexecute', -, -⟩
  rw [hf] at hf'
  cases hf'
  rw [hexecute] at hexecute'
  cases hexecute'
  exact ⟨rfl, rfl⟩

theorem Moves.unique (h : m.Moves outer m') (h' : m.Moves outer m'') : m' = m'' := by
  have htick := h.tick
  rw [h'.tick] at htick
  cases htick
  rfl

/-- A piece of code comes to one end at most. -/
theorem Outcome.unique {a b : Option Value} (h : m.Outcome outer stop a x)
    (h' : m.Outcome outer stop b y) :
    a = b ∧ x = y := by
  induction h with
  | arrives hat =>
      cases h' with
      | arrives => exact ⟨rfl, rfl⟩
      | throws hnot => exact absurd hat hnot
      | goes hnot => exact absurd hat hnot
  | throws hnot hthrows =>
      cases h' with
      | arrives hat => exact absurd hat hnot
      | throws _ hthrows' =>
          rcases hthrows.unique hthrows' with ⟨rfl, rfl⟩
          exact ⟨rfl, rfl⟩
      | goes _ hmoves => exact absurd hthrows hmoves.not_throws
  | goes hnot hmoves _ ih =>
      cases h' with
      | arrives hat => exact absurd hat hnot
      | throws _ hthrows => exact absurd hthrows hmoves.not_throws
      | goes _ hmoves' hout =>
          rw [hmoves.unique hmoves'] at ih
          exact ih hout

theorem Outcome.frames {a : Option Value} (h : m.Outcome outer stop a x) : x.frames = outer := by
  induction h with
  | arrives => rfl
  | throws _ hthrows =>
      cases hthrows
      rfl
  | goes _ _ _ ih => exact ih

end Turns

/-! ## Two copies of the same code -/

namespace Twin

variable {T : Twins} {outer : List Frame} {deep : Bool} {room : Nat} {m m' x : Machine}

theorem isAt_iff (h : m.Twin T outer deep room m') :
    m.IsAt outer (T.oneStart + T.code.length) ↔ m'.IsAt outer (T.otherStart + T.code.length) := by
  rcases h with ⟨m, above, n, -, -, -, -⟩
  unfold IsAt Twins.ones Twins.others
  cases above with
  | nil => simp [Seat.frame]
  | cons a above =>
      have hlength (f : Frame) : above ++ f :: outer ≠ outer := by
        intro heq
        have hlength := congrArg List.length heq
        simp only [List.length_append, List.length_cons] at hlength
        lia
      simp [hlength]

/-- The next instruction is the same, and behind it the machines differ in the same call. -/
theorem execute (h : m.Twin T outer false 0 m')
    (hnot : ¬ m.IsAt outer (T.oneStart + T.code.length)) :
    exists f rest f' rest', m.frames = f :: rest ∧ m'.frames = f' :: rest' ∧
      Exec.Same T outer (Machine.execute (m.fetch? f) m.advance)
        (Machine.execute (m'.fetch? f') m'.advance) := by
  rcases h with ⟨m, above, n, hon, hsteady, -, hn⟩
  cases above with
  | nil =>
      have hlt : n < T.code.length := by
        refine Nat.lt_of_le_of_ne hn fun heq => hnot ⟨_, rfl, ?_⟩
        rw [heq]
        rfl
      have hi : T.code[n]? = some T.code[n] := List.getElem?_eq_getElem hlt
      have hone := T.oneHas n _ hi
      have hother := T.otherHas n _ hi
      rw [← hon.one.function] at hone
      rw [← hon.other.function] at hother
      have htwin : Machine.Twin T outer false (T.code.length - (n + 1)) _ _ :=
        .mk m [] (n + 1) hon hsteady nofun (by lia)
      have hsame := Exec.step_same htwin (Or.inr (T.tight n _ hi))
      refine ⟨_, _, _, _, rfl, rfl, ?_⟩
      have hfetch : Machine.fetch? { m with frames := T.ones [] n outer }
          (T.one.frame (T.oneStart + n)) = some T.code[n] := hone
      have hfetch' : Machine.fetch? { m with frames := T.others [] n outer }
          (T.other.frame (T.otherStart + n)) = some T.code[n] := hother
      rw [hfetch, hfetch']
      exact hsame
  | cons a above =>
      refine ⟨_, _, _, _, rfl, rfl, ?_⟩
      have htwin : Machine.Twin T outer true 0 _ _ :=
        .mk m ({ a with ip := a.ip + 1 } :: above) n hon hsteady nofun hn
      have hfetch (frames : List Frame) :
          Machine.fetch? { m with frames := frames } a = m.fetch? a := rfl
      rw [hfetch (T.ones (a :: above) n outer), hfetch (T.others (a :: above) n outer)]
      cases m.fetch? a with
      | none => exact .error _ htwin.lower
      | some i => exact Exec.step_same htwin (Or.inl rfl)

/-- Both machines go on, or they throw the same and differ in nothing else any more. -/
theorem turn (h : m.Twin T outer false 0 m')
    (hnot : ¬ m.IsAt outer (T.oneStart + T.code.length)) :
    (exists m1 m1' : Machine, m.Moves outer m1 ∧ m'.Moves outer m1' ∧
      m1.Twin T outer false 0 m1') ∨
    exists v x, m.Throws outer v x ∧ m'.Throws outer v x := by
  rcases h.execute hnot with ⟨f, rest, f', rest', hf, hf', hsame⟩
  generalize hr : Machine.execute (m.fetch? f) m.advance = r at hsame
  generalize hr' : Machine.execute (m'.fetch? f') m'.advance = r' at hsame
  cases hsame with
  | ok htwin =>
      refine Or.inl ⟨_, _, ⟨tick_of_execute_ok hf hr, ?_⟩, ⟨tick_of_execute_ok hf' hr', ?_⟩, htwin⟩
      · rcases htwin with ⟨m2, above, n, -, -, -, -⟩
        exact ⟨above, _, rfl, fun _ => raised?_of_execute_ok hf hr⟩
      · rcases htwin with ⟨m2, above, n, -, -, -, -⟩
        exact ⟨above, _, rfl, fun _ => raised?_of_execute_ok hf' hr'⟩
  | error e htwin =>
      rcases htwin with ⟨m2, above, n, hon, hsteady, -, hn⟩
      cases hh : handler? m2.heap above with
      | none =>
          have hthrows := Throws.mk hf hr (rfl : T.ones above n outer = above ++ _ :: outer) hh
          have hthrows' := Throws.mk hf' hr' (rfl : T.others above n outer = above ++ _ :: outer) hh
          exact Or.inr ⟨e.toValue, _, hthrows, hthrows'⟩
      | some found =>
          rcases found with ⟨g, r, out⟩
          have hunwind (f : Frame) :
              Machine.unwind { m2 with frames := above ++ f :: outer } e.toValue =
                (.running, { m2 with
                  frames := ({ g with ip := r.stop } :: out) ++ f :: outer
                  stack := (m2.stack.take (g.base + r.depth)).push e.toValue }) := by
            unfold unwind
            rw [handler?_append_of_some hh]
            rfl
          refine Or.inl ⟨_, _, ⟨?_, ?_⟩, ⟨?_, ?_⟩, .mk { m2 with
            stack := (m2.stack.take (g.base + r.depth)).push e.toValue }
            ({ g with ip := r.stop } :: out) n hon hsteady nofun hn⟩
          · rw [tick_of_execute_error hf hr]
            exact hunwind _
          · exact ⟨_, _, rfl, nofun⟩
          · rw [tick_of_execute_error hf' hr']
            exact hunwind _
          · exact ⟨_, _, rfl, nofun⟩

/-- A copy of the code ends in the same way. -/
theorem outcome {v : Option Value} (hout : m.Outcome outer (T.oneStart + T.code.length) v x)
    (h : m.Twin T outer false 0 m') : m'.Outcome outer (T.otherStart + T.code.length) v x := by
  induction hout generalizing m' with
  | arrives hat =>
      have hat' := h.isAt_iff.mp hat
      rcases h with ⟨m, above, n, -, -, -, -⟩
      exact .arrives hat'
  | throws hnot hthrows =>
      refine .throws (mt h.isAt_iff.mpr hnot) ?_
      rcases h.turn hnot with ⟨m1, m1', hmoves, -, -⟩ | ⟨w, y, hthrows1, hthrows2⟩
      · exact absurd hthrows hmoves.not_throws
      · rcases hthrows.unique hthrows1 with ⟨rfl, rfl⟩
        exact hthrows2
  | goes hnot hmoves _ ih =>
      rcases h.turn hnot with ⟨m1, m1', hmoves1, hmoves2, htwin⟩ | ⟨w, y, hthrows, -⟩
      · rw [← hmoves.unique hmoves1] at htwin
        exact .goes (mt h.isAt_iff.mpr hnot) hmoves2 (ih htwin)
      · exact absurd hthrows hmoves.not_throws

end Twin

end Machine
end StackScript
