import StackScript.Proofs.Machine.Outcome

/-!
# What pieces of code do

A piece of code of a call is taken as a relation between the machine in front of it and the way it
ends.  Pieces one behind the other do one thing after the other, a single instruction does what it
does as a step, and a copy of a piece does the same.
-/

namespace StackScript

/-- How something ends that starts in a machine: with `none` when it is completed, or with the value
that was thrown, and with the machine then. -/
abbrev Effect :=
  Machine -> Option Value -> Machine -> Prop

/-- One thing and, when it is completed, another. -/
def Effect.andThen (A B : Effect) : Effect := fun m v x =>
  (exists y, A m none y ∧ B y v x) ∨ exists w, v = some w ∧ A m (some w) x

theorem Effect.andThen_congr {A A' B B' : Effect} {m x : Machine} {v : Option Value}
    (hA : forall v x, A m v x ↔ A' m v x) (hB : forall y, A m none y -> (B y v x ↔ B' y v x)) :
    A.andThen B m v x ↔ A'.andThen B' m v x := by
  unfold andThen
  simp only [← hA]
  refine or_congr (exists_congr fun y => ?_) Iff.rfl
  exact and_congr_right fun hy => hB y hy

namespace Machine.Twin

variable {T : Twins} {outer : List Frame} {m m' x y : Machine} {v : Option Value} {stop : Nat}

theorem frames_of_isAt {deep : Bool} {room : Nat} (h : m.Twin T outer deep room m')
    (hstop : T.oneStart + T.code.length <= stop) (hat : m.IsAt outer stop) :
    m.IsAt outer (T.oneStart + T.code.length) ∧
      m.frames = T.one.frame (T.oneStart + T.code.length) :: outer := by
  rcases h with ⟨m, above, n, -, -, -, hn⟩
  rcases hat with ⟨f, hf, hip⟩
  cases above with
  | nil =>
      cases hf
      have hip' : T.oneStart + n = stop := hip
      have heq : n = T.code.length := by lia
      subst heq
      exact ⟨⟨_, rfl, rfl⟩, rfl⟩
  | cons a above =>
      have hlength := congrArg List.length hf
      simp only [Twins.ones, List.length_append, List.length_cons] at hlength
      lia

theorem within_of_isAt {deep : Bool} {room : Nat} (h : m.Twin T outer deep room m')
    (hat : m.IsAt outer (T.oneStart + T.code.length)) :
    ({ m with frames := outer } : Machine).within (T.one.frame (T.oneStart + T.code.length)) =
      m := by
  unfold within
  rw [← (h.frames_of_isAt (Nat.le_refl _) hat).2]

/-- What comes to an index behind the code comes to its end first. -/
theorem split (hout : m.Outcome outer stop v x) (h : m.Twin T outer false 0 m')
    (hstop : T.oneStart + T.code.length <= stop) :
    (exists y, m.Outcome outer (T.oneStart + T.code.length) none y ∧
      (y.within (T.one.frame (T.oneStart + T.code.length))).Outcome outer stop v x) ∨
    exists w, v = some w ∧ m.Outcome outer (T.oneStart + T.code.length) (some w) x := by
  induction hout generalizing m' with
  | arrives hat =>
      have hmid := (h.frames_of_isAt hstop hat).1
      refine Or.inl ⟨_, .arrives hmid, ?_⟩
      rw [h.within_of_isAt hmid]
      exact .arrives hat
  | throws hnot hthrows =>
      rename_i m x w
      by_cases hmid : m.IsAt outer (T.oneStart + T.code.length)
      · refine Or.inl ⟨_, .arrives hmid, ?_⟩
        rw [h.within_of_isAt hmid]
        exact .throws hnot hthrows
      · exact Or.inr ⟨w, rfl, .throws hmid hthrows⟩
  | goes hnot hmoves hout ih =>
      rename_i m m1 x v
      by_cases hmid : m.IsAt outer (T.oneStart + T.code.length)
      · refine Or.inl ⟨_, .arrives hmid, ?_⟩
        rw [h.within_of_isAt hmid]
        exact .goes hnot hmoves hout
      · rcases h.turn hmid with ⟨m2, m2', hmoves', -, htwin⟩ | ⟨w, y, hthrows, -⟩
        · rw [← hmoves.unique hmoves'] at htwin
          rcases ih htwin with ⟨y, hy, hx⟩ | ⟨w, hw, hx⟩
          · exact Or.inl ⟨y, .goes hmid hmoves hy, hx⟩
          · exact Or.inr ⟨w, hw, .goes hmid hmoves hx⟩
        · exact absurd hthrows hmoves.not_throws

/-- From the end of the code a call goes on as it does from there. -/
theorem join {a : Option Value}
    (hout : m.Outcome outer (T.oneStart + T.code.length) a y) (h : m.Twin T outer false 0 m')
    (hstop : T.oneStart + T.code.length <= stop)
    (hnone : a = none ->
      (y.within (T.one.frame (T.oneStart + T.code.length))).Outcome outer stop v x)
    (hsome : a ≠ none -> v = a ∧ x = y) : m.Outcome outer stop v x := by
  induction hout generalizing m' with
  | arrives hat =>
      have hrest := hnone rfl
      rwa [h.within_of_isAt hat] at hrest
  | throws hnot hthrows =>
      rcases hsome (by simp) with ⟨rfl, rfl⟩
      exact .throws (mt (fun hat => (h.frames_of_isAt hstop hat).1) hnot) hthrows
  | goes hnot hmoves _ ih =>
      have hnot' := mt (fun hat => (h.frames_of_isAt hstop hat).1) hnot
      rcases h.turn hnot with ⟨m2, m2', hmoves', -, htwin⟩ | ⟨w, y, hthrows, -⟩
      · rw [← hmoves.unique hmoves'] at htwin
        exact .goes hnot' hmoves (ih htwin hnone hsome)
      · exact absurd hthrows hmoves.not_throws

/-- At the end of the code the functions are still on the heap. -/
theorem on_of_outcome {a : Option Value}
    (hout : m.Outcome outer (T.oneStart + T.code.length) a x) (h : m.Twin T outer false 0 m')
    (ha : a = none) : T.On x.heap ∧ x.Steady := by
  induction hout generalizing m' with
  | arrives =>
      rcases h with ⟨m, above, n, hon, hsteady, -, -⟩
      exact ⟨hon, hsteady⟩
  | throws => cases ha
  | goes hnot hmoves _ ih =>
      rcases h.turn hnot with ⟨m2, m2', hmoves', -, htwin⟩ | ⟨w, y, hthrows, -⟩
      · rw [← hmoves.unique hmoves'] at htwin
        exact ih htwin ha
      · exact absurd hthrows hmoves.not_throws

end Machine.Twin

/-! ## Pieces of a function -/

namespace Seat

variable {S S' : Seat} {m x y : Machine} {v : Option Value} {code : List Instr} {i : Instr}
variable {ip ip' mid stop : Nat}

/-- The function is on the heap, and the host leaves it as it is. -/
structure In (S : Seat) (m : Machine) : Prop where
  on : S.On m.heap
  steady : m.Steady

/-- How a call of the function ends that starts in front of one index and goes to another. -/
def runs (S : Seat) (ip stop : Nat) : Effect := fun m v x =>
  (m.within (S.frame ip)).Outcome m.frames stop v x

/-- What something does in a call of the function. -/
def acts (S : Seat) (act : Exec Unit) : Effect := fun m v x =>
  match act (m.within (S.frame 0)) with
  | .ok _ m' => v = none ∧ x = { m' with frames := m.frames }
  | .error e m' => v = some e.toValue ∧ x = { m' with frames := m.frames }

def does (S : Seat) (i : Instr) : Effect :=
  S.acts (Exec.step i)

def piece (S : Seat) (ip : Nat) (code : List Instr) : Effect :=
  S.runs ip (ip + code.length)

theorem Has.left {code' : List Instr} (h : S.Has ip (code ++ code')) : S.Has ip code := by
  intro j i hi
  exact h j i (List.getElem?_append_left (List.getElem?_eq_some_iff.mp hi).1 ▸ hi)

theorem Has.right {code' : List Instr} (h : S.Has ip (code ++ code')) :
    S.Has (ip + code.length) code' := by
  intro j i hi
  have hj : (code ++ code')[code.length + j]? = some i := by
    rw [List.getElem?_append_right (Nat.le_add_right _ _), Nat.add_sub_cancel_left]
    exact hi
  rw [Nat.add_assoc]
  exact h _ i hj

/-- A piece of code in two functions. -/
def twins (hlike : S.Like S') (hhas : S.Has ip code) (hhas' : S'.Has ip' code)
    (htight : Instr.Tight code) : Twins :=
  ⟨code, S, S', ip, ip', hlike, hhas, hhas', htight⟩

theorem In.twin (hs : S.In m) (hs' : S'.In m) (hlike : S.Like S') (hhas : S.Has ip code)
    (hhas' : S'.Has ip' code) (htight : Instr.Tight code) :
    (m.within (S.frame ip)).Twin (twins hlike hhas hhas' htight) m.frames false 0
      (m.within (S'.frame ip')) :=
  .mk m [] 0 ⟨hs.on, hs'.on⟩ hs.steady nofun (Nat.zero_le _)

/-- A piece of code does in one place what it does in the other. -/
theorem piece_iff (hs : S.In m) (hs' : S'.In m) (hlike : S.Like S') (hhas : S.Has ip code)
    (hhas' : S'.Has ip' code) (htight : Instr.Tight code) :
    S.piece ip code m v x ↔ S'.piece ip' code m v x := by
  constructor
  · intro h
    exact Machine.Twin.outcome (T := twins hlike hhas hhas' htight) h
      (hs.twin hs' hlike hhas hhas' htight)
  · intro h
    exact Machine.Twin.outcome (T := twins hlike.symm hhas' hhas htight) h
      (hs'.twin hs hlike.symm hhas' hhas htight)

/-- The first piece and then the second. -/
theorem runs_andThen (hs : S.In m) (hhas : S.Has ip code) (htight : Instr.Tight code)
    (hmid : ip + code.length = mid) (hstop : mid <= stop) :
    S.runs ip stop m v x ↔ (S.runs ip mid).andThen (S.runs mid stop) m v x := by
  have htwin := hs.twin hs (.refl S) hhas hhas htight
  generalize hT : twins (.refl S) hhas hhas htight = T at htwin
  have hone : T.one = S := by rw [← hT]; rfl
  have hend : T.oneStart + T.code.length = mid := by rw [← hT]; exact hmid
  rw [← hend] at hstop ⊢
  subst hone
  constructor
  · intro h
    rcases htwin.split h hstop with ⟨y, hy, hx⟩ | hthrown
    · refine Or.inl ⟨y, hy, ?_⟩
      unfold runs
      rwa [hy.frames]
    · exact Or.inr hthrown
  · rintro (⟨y, hy, hx⟩ | ⟨w, rfl, hx⟩)
    · refine htwin.join hy hstop (fun _ => ?_) fun hne => absurd rfl hne
      unfold runs at hx
      rwa [hy.frames] at hx
    · exact htwin.join hx hstop (fun hw => nomatch hw) fun _ => ⟨rfl, rfl⟩

theorem piece_append {code' : List Instr} (hs : S.In m) (hhas : S.Has ip (code ++ code'))
    (htight : Instr.Tight code) :
    S.piece ip (code ++ code') m v x ↔
      (S.piece ip code).andThen (S.piece (ip + code.length) code') m v x := by
  have hstop : ip + code.length + code'.length = ip + (code ++ code').length := by
    rw [List.length_append, Nat.add_assoc]
  unfold piece
  rw [hstop]
  exact runs_andThen hs hhas.left htight rfl (by rw [← hstop]; exact Nat.le_add_right _ _)

theorem In.of_piece (hs : S.In m) (hhas : S.Has ip code) (htight : Instr.Tight code)
    (h : S.piece ip code m none x) : S.In x := by
  rcases Machine.Twin.on_of_outcome (T := twins (.refl S) hhas hhas htight) h
    (hs.twin hs (.refl S) hhas hhas htight) rfl with ⟨hon, hsteady⟩
  exact ⟨hon.one, hsteady⟩

theorem does_unique {w : Option Value} (h : S.does i m v x) (h' : S.does i m w y) :
    v = w ∧ x = y := by
  unfold does acts at h h'
  cases hstep : Exec.step i (m.within (S.frame 0)) with
  | ok u m' =>
      rw [hstep] at h h'
      exact ⟨h.1.trans h'.1.symm, h.2.trans h'.2.symm⟩
  | error e m' =>
      rw [hstep] at h h'
      exact ⟨h.1.trans h'.1.symm, h.2.trans h'.2.symm⟩

/-- Two calls in front of any two instructions. -/
def Like.bare (hlike : S.Like S') (ip ip' : Nat) : Twins where
  code := []
  one := S
  other := S'
  oneStart := ip
  otherStart := ip'
  like := hlike
  oneHas := by simp [Has]
  otherHas := by simp [Has]
  tight := by simp [Instr.Tight]

/-- What an instruction does that neither jumps nor returns does not depend on where it stands. -/
theorem same_step (hs : S.In m) (hs' : S'.In m) (hlike : S.Like S') (hi : i.moves = false)
    (ip ip' : Nat) :
    Exec.Same (hlike.bare ip ip') m.frames (Exec.step i (m.within (S.frame ip)))
      (Exec.step i (m.within (S'.frame ip'))) := by
  have htwin : (m.within (S.frame ip)).Twin (hlike.bare ip ip') m.frames false 0
      (m.within (S'.frame ip')) := .mk m [] 0 ⟨hs.on, hs'.on⟩ hs.steady nofun (Nat.zero_le _)
  exact Exec.step_same htwin (Or.inr (Instr.staysWithin_of_moves hi))

theorem does_iff (hs : S.In m) (hs' : S'.In m) (hlike : S.Like S') (hi : i.moves = false) :
    S.does i m v x ↔ S'.does i m v x := by
  have hsame := same_step hs hs' hlike hi 0 0
  unfold does acts
  generalize Exec.step i (m.within (S.frame 0)) = r at hsame
  generalize Exec.step i (m.within (S'.frame 0)) = r' at hsame
  cases hsame with
  | ok htwin =>
      rcases htwin with ⟨m1, above, n, -, -, -, -⟩
      exact Iff.rfl
  | error e htwin =>
      rcases htwin with ⟨m1, above, n, -, -, -, -⟩
      exact Iff.rfl

theorem In.of_does (hs : S.In m) (hi : i.moves = false) (h : S.does i m none x) : S.In x := by
  have hsame := same_step hs hs (.refl S) hi 0 0
  unfold does acts at h
  generalize Exec.step i (m.within (S.frame 0)) = r at hsame h
  cases hsame with
  | ok htwin =>
      rcases htwin with ⟨m1, above, n, hon, hsteady, -, -⟩
      rw [h.2]
      exact ⟨hon.one, hsteady⟩
  | error e htwin => cases h.1

end Seat

/-! ### Single instructions -/

namespace Seat

variable {S S' : Seat} {m x : Machine} {v : Option Value} {i : Instr} {ip : Nat}

/-- A single instruction ends as its step does. -/
theorem runs_and_does (hs : S.In m) (hi : S.function.code.instrs[ip]? = some i)
    (hmoves : i.moves = false) (hopens : i.opens = false) :
    exists v x, S.runs ip (ip + 1) m v x ∧ S.does i m v x := by
  have hsame := same_step hs hs (.refl S) hmoves (ip + 1) 0
  have hfetch : (m.within (S.frame ip)).fetch? (S.frame ip) = some i := by
    unfold Machine.fetch?
    rw [← hi, ← hs.on.function]
    rfl
  have hnot : ¬ (m.within (S.frame ip)).IsAt m.frames (ip + 1) := by
    rintro ⟨f, hf, hip⟩
    cases hf
    exact Nat.ne_of_lt (Nat.lt_succ_self ip) hip
  have hexecute : Machine.execute ((m.within (S.frame ip)).fetch? (S.frame ip))
      (m.within (S.frame ip)).advance = Exec.step i (m.within (S.frame (ip + 1))) := by
    rw [hfetch]
    rfl
  unfold does acts
  generalize hr : Exec.step i (m.within (S.frame (ip + 1))) = r at hsame hexecute
  generalize Exec.step i (m.within (S.frame 0)) = r' at hsame
  cases hsame with
  | ok htwin =>
      rename_i m1 m1'
      have hstill : m1.frames = S.frame (ip + 1) :: m.frames :=
        Exec.frames_of_step hmoves hopens rfl hr
      have hmoves : (m.within (S.frame ip)).Moves m.frames m1 :=
        ⟨Machine.tick_of_execute_ok rfl hexecute, [], _, hstill,
          fun _ => Machine.raised?_of_execute_ok rfl hexecute⟩
      have hat : m1.IsAt m.frames (ip + 1) := ⟨_, hstill, rfl⟩
      refine ⟨none, _, .goes hnot hmoves (.arrives hat), rfl, ?_⟩
      rcases htwin with ⟨m2, above, n, -, -, -, -⟩
      rfl
  | error e htwin =>
      rename_i m1 m1'
      have hframes : m1.frames = [] ++ S.frame (ip + 1) :: m.frames :=
        (Exec.of_step_error rfl hr).2.1
      have hthrows : (m.within (S.frame ip)).Throws m.frames e.toValue
          { m1 with frames := m.frames } := .mk rfl hexecute hframes rfl
      refine ⟨_, _, .throws hnot hthrows, rfl, ?_⟩
      rcases htwin with ⟨m2, above, n, -, -, -, -⟩
      rfl

theorem runs_single (hs : S.In m) (hi : S.function.code.instrs[ip]? = some i)
    (hmoves : i.moves = false) (hopens : i.opens = false) :
    S.runs ip (ip + 1) m v x ↔ S.does i m v x := by
  rcases runs_and_does hs hi hmoves hopens with ⟨w, y, hruns, hdoes⟩
  constructor
  · intro h
    rcases Machine.Outcome.unique h hruns with ⟨rfl, rfl⟩
    exact hdoes
  · intro h
    rcases does_unique h hdoes with ⟨rfl, rfl⟩
    exact hruns

/-- An instruction and something behind it. -/
theorem acts_step_bind {act : Exec Unit} (hmoves : i.moves = false)
    (hopens : i.opens = false) :
    S.acts (do Exec.step i; act) m v x ↔ (S.does i).andThen (S.acts act) m v x := by
  unfold Effect.andThen does acts
  cases hstep : Exec.step i (m.within (S.frame 0)) with
  | ok u m1 =>
      have hstill : m1.frames = S.frame 0 :: m.frames :=
        Exec.frames_of_step hmoves hopens rfl hstep
      have hm1 : ({ m1 with frames := m.frames } : Machine).within (S.frame 0) = m1 := by
        unfold Machine.within
        rw [← hstill]
      rw [Exec.bind_ok hstep]
      simp [hm1]
  | error e m1 =>
      rw [Exec.bind_error hstep]
      simp

section Pieces

variable {code : List Instr}

theorem piece_single (hs : S.In m) (hhas : S.Has ip [i]) (hmoves : i.moves = false)
    (hopens : i.opens = false) : S.piece ip [i] m v x ↔ S.does i m v x :=
  runs_single hs (hhas 0 i rfl) hmoves hopens

theorem piece_cons (hs : S.In m) (hhas : S.Has ip (i :: code)) (hmoves : i.moves = false)
    (hopens : i.opens = false) :
    S.piece ip (i :: code) m v x ↔ (S.does i).andThen (S.piece (ip + 1) code) m v x := by
  have happend : S.Has ip ([i] ++ code) := hhas
  have htight : Instr.Tight [i] := Instr.tight_singleton hmoves
  refine (piece_append hs happend htight).trans ?_
  exact Effect.andThen_congr (fun _ _ => piece_single hs happend.left hmoves hopens)
    fun _ _ => Iff.rfl

end Pieces

end Seat
end StackScript
