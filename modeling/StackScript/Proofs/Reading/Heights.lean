import StackScript.Proofs.Heights.Statement
import StackScript.Proofs.Reading.Scope
import StackScript.Proofs.Reading.Scripts

/-!
# Scripts that are read fit

Every tree that reading gives keeps to the heights of its scope: expressions use only slots of
locals that have their values, statements leave as many values as the scope behind them has locals,
and the ways out of a loop come down to the height of the loop.  The functions that a tree makes are
those that are known when it has been read; functions defined later are known then too.

The proof goes by induction on the rules for what stands between two readings.
-/

namespace StackScript

/-- A definition with number `i` fits and makes only functions with smaller numbers. -/
def Definition.Fits (base i : Nat) (d : Definition) : Prop :=
  d.body.Fits (fun id => base <= id ∧ id < base + i) none (d.arity + 1) (d.arity + 1)

/-- What a statement that starts in a scope, inside the given loop, has to fit. -/
def Stmt.FitsFrom (known : Nat -> Prop) (loop : Option Nat) (s : Scope) (a : Stmt) : Prop :=
  forall floor, floor <= s.size -> a.Fits known (s.loopHeight loop) floor s.size

theorem Scope.Finds.within {s : Scope} {name : String} {v : Variable} {n : Nat}
    (h : s.Finds name v) (hs : s.Bounds n) : v.Within n := by
  unfold Finds at h
  cases hname : s.resolve name with
  | slot k =>
      rw [hname] at h
      exact h ▸ hs name k hname
  | unsettled =>
      rw [hname] at h
      exact h.elim
  | global =>
      rw [hname] at h
      exact h ▸ trivial

theorem Stmt.Performs.after_eq {e : Expr} {line n : Nat} {a : Stmt} (h : a.Performs e line) :
    a.after n = n := by
  cases h <;> rfl

theorem Stmt.Performs.fits {e : Expr} {line floor n : Nat} {a : Stmt} {known : Nat -> Prop}
    {loop : Option Nat} (h : a.Performs e line) (he : e.Within known n) :
    a.Fits known loop floor n := by
  cases h <;> exact he

namespace Surroundings

def Knows (s : Surroundings) (id : Nat) : Prop :=
  s.base <= id ∧ id < s.base + s.definitions.size

def Sound (s : Surroundings) : Prop :=
  forall i (d : Definition), s.definitions[i]? = some d -> d.Fits s.base i

/-- What any step of reading keeps. -/
structure Leads (s s' : Surroundings) : Prop where
  loop : s'.loop = s.loop
  base : s'.base = s.base
  size : s.definitions.size <= s'.definitions.size
  sound : s.Sound -> s'.Sound

section Leads

variable {s s1 s' : Surroundings}

theorem Leads.refl (s : Surroundings) : s.Leads s :=
  ⟨rfl, rfl, Nat.le_refl _, id⟩

theorem Leads.trans (h : s.Leads s1) (h' : s1.Leads s') : s.Leads s' where
  loop := h'.loop.trans h.loop
  base := h'.base.trans h.base
  size := Nat.le_trans h.size h'.size
  sound := fun hs => h'.sound (h.sound hs)

theorem Leads.knows {known : Nat -> Prop} (h : s1.Leads s')
    (hknown : forall id, s'.Knows id -> known id) (id : Nat) (hid : s1.Knows id) : known id := by
  have hsize := h.size
  obtain ⟨hlo, hhi⟩ := hid
  refine hknown id ⟨h.base ▸ hlo, ?_⟩
  rw [h.base]
  lia

end Leads

/-! ## Values -/

/-- Values are computed in a scope that stays as it is.  What they are satisfies `W` for the
functions that are known behind them, if names stand for slots below a number. -/
structure Evaluates (s : Surroundings) (W : (Nat -> Prop) -> Nat -> Prop) (s' : Surroundings) :
    Prop where
  leads : s.Leads s'
  scope : s'.scope = s.scope
  within : forall known, (forall id, s'.Knows id -> known id) -> forall n, s.scope.Bounds n ->
    W known n

section Evaluates

variable {s s1 s' : Surroundings} {W W' : (Nat -> Prop) -> Nat -> Prop}

theorem evaluates_here (h : forall known n, s.scope.Bounds n -> W known n) : s.Evaluates W s :=
  ⟨.refl s, rfl, fun known _ => h known⟩

theorem Evaluates.imp (h : s.Evaluates W s')
    (hW : forall known n, s.scope.Bounds n -> W known n -> W' known n) : s.Evaluates W' s' :=
  ⟨h.leads, h.scope, fun known hknown n hn => hW known n hn (h.within known hknown n hn)⟩

/-- One value and another one behind it. -/
theorem Evaluates.and (h : s.Evaluates W s1) (h' : s1.Evaluates W' s') :
    s.Evaluates (fun known n => W known n ∧ W' known n) s' where
  leads := h.leads.trans h'.leads
  scope := h'.scope.trans h.scope
  within known hknown n hn :=
    ⟨h.within known (h'.leads.knows hknown) n hn, h'.within known hknown n (h.scope ▸ hn)⟩

end Evaluates

/-! ## Statements -/

def inScope (s : Surroundings) (scope : Scope) : Surroundings :=
  { s with scope := scope }

def inLoop (s : Surroundings) (loop : Option Nat) : Surroundings :=
  { s with loop := loop }

/-- All locals have their values, and no loop around is deeper than the current block. -/
def Within (s : Surroundings) : Prop :=
  s.scope.Settled ∧ forall d, s.loop = some d -> d <= s.scope.depth

/-- All locals have their values, and every loop around is around the current block. -/
def Inside (s : Surroundings) : Prop :=
  s.scope.Settled ∧ forall d, s.loop = some d -> d < s.scope.depth

/-- A statement adds locals of the current block and keeps to the heights of its scope. -/
structure Adds (s : Surroundings) (a : Stmt) (s' : Surroundings) : Prop where
  leads : s.Leads s'
  grows : s.scope.Grows s'.scope
  after : a.after s.scope.size = s'.scope.size
  fits : forall known, (forall id, s'.Knows id -> known id) -> a.FitsFrom known s.loop s.scope

/-- A statement leaves the scope as it was. -/
structure Stays (s : Surroundings) (a : Stmt) (s' : Surroundings) : Prop where
  leads : s.Leads s'
  scope : s'.scope = s.scope
  after : a.after s.scope.size = s.scope.size
  fits : forall known, (forall id, s'.Knows id -> known id) -> a.FitsFrom known s.loop s.scope

section Statements

variable {s s1 s2 s' : Surroundings} {a b : Stmt} {e : Expr} {scope : Scope} {name : String}
  {W : (Nat -> Prop) -> Nat -> Prop}

theorem Inside.within (h : s.Inside) : s.Within :=
  ⟨h.1, fun d hd => Nat.le_of_lt (h.2 d hd)⟩

theorem Within.enter (h : s.Within) : (s.inScope s.scope.enter).Inside :=
  ⟨h.1.enter, fun d hd => Nat.lt_succ_of_le (h.2 d hd)⟩

/-- The body of a loop is within the loop. -/
theorem within_loop (h : s.scope.Settled) : (s.inLoop (some s.scope.depth)).Within :=
  ⟨h, fun _ hd => Nat.le_of_eq (Option.some.inj hd).symm⟩

theorem Evaluates.leaves (h : s.Evaluates W s') (hs : s.Within) : s'.Within := by
  unfold Within
  rw [h.scope, h.leads.loop]
  exact hs

theorem Stays.leaves (h : s.Stays a s') (hs : s.Within) : s'.Within := by
  unfold Within
  rw [h.scope, h.leads.loop]
  exact hs

theorem Adds.leaves (h : s.Adds a s') (hs : s.Inside) : s'.Inside := by
  refine ⟨h.grows.settled hs.1, fun d hd => ?_⟩
  rw [h.grows.1]
  exact hs.2 d (h.leads.loop ▸ hd)

theorem Stays.adds (h : s.Stays a s') : s.Adds a s' where
  leads := h.leads
  grows := h.scope ▸ .refl s.scope
  after := h.after.trans (congrArg Scope.size h.scope).symm
  fits := h.fits

theorem Evaluates.performs {line : Nat}
    (h : s.Evaluates (fun known n => e.Within known n) s') (ha : a.Performs e line) :
    s.Stays a s' where
  leads := h.leads
  scope := h.scope
  after := ha.after_eq
  fits known hknown _ _ := ha.fits (h.within known hknown _ s.scope.bounds_size)

theorem stays_skip (s : Surroundings) : s.Stays .skip s :=
  ⟨.refl s, rfl, rfl, fun _ _ _ _ => trivial⟩

/-- On the way out of a loop the locals of its body are forgotten. -/
theorem stays_exit {depth : Nat} (hloop : s.loop = some depth)
    (hafter : forall n, a.after n = n)
    (hfits : forall known loop floor n, (exists m, loop = some m ∧
      m + s.scope.above depth = n) -> a.Fits known loop floor n) : s.Stays a s where
  leads := .refl s
  scope := rfl
  after := hafter _
  fits known _ floor _ := by
    refine hfits known _ floor _ ⟨s.scope.size - s.scope.above depth, ?_, ?_⟩
    · rw [hloop]
      rfl
    · have hle := s.scope.above_le_size depth
      lia

theorem Adds.seq (hs : s.Inside) (h : s.Adds a s1) (h' : s1.Adds b s') :
    s.Adds (.seq a b) s' where
  leads := h.leads.trans h'.leads
  grows := h.grows.trans h'.grows
  after := by rw [Stmt.after, h.after, h'.after]
  fits known hknown floor hfloor := by
    have hrest := h'.fits known hknown floor (Nat.le_trans hfloor h.grows.size_le)
    rw [h.leads.loop, Scope.loopHeight_of_grows h.grows hs.2, ← h.after] at hrest
    exact ⟨h.fits known (h'.leads.knows hknown) floor hfloor, hrest⟩

/-- Behind a block its locals are forgotten. -/
theorem drop_fits {n : Nat} (line : Nat) {s s' : Scope} (hs : s.Settled)
    (hgrows : s.enter.Grows s') (hafter : a.after n = s'.size) :
    (Stmt.seq a (.drop (s'.above (s'.depth - 1)) line)).after n = s.size ∧
      forall known loop floor, floor <= s.size -> a.Fits known loop floor n ->
        (Stmt.seq a (.drop (s'.above (s'.depth - 1)) line)).Fits known loop floor n := by
  have hdrop := Scope.above_exit hs hgrows
  constructor
  · simp only [Stmt.after, hafter]
    lia
  · intro known loop floor hfloor hfits
    refine ⟨hfits, ?_⟩
    simp only [Stmt.Fits, hafter]
    lia

theorem Adds.block {line : Nat} (hs : s.scope.Settled)
    (h : (s.inScope s.scope.enter).Adds a s') :
    s.Stays (.seq a (.drop (s'.scope.above (s'.scope.depth - 1)) line))
      (s'.inScope s'.scope.exit) where
  leads := ⟨h.leads.loop, h.leads.base, h.leads.size, h.leads.sound⟩
  scope := Scope.exit_of_grows hs h.grows
  after := (drop_fits line hs h.grows h.after).1
  fits known hknown floor hfloor :=
    (drop_fits line hs h.grows h.after).2 known _ floor hfloor (h.fits known hknown floor hfloor)

theorem Stays.cond {line line' : Nat}
    (hc : s.Evaluates (fun known n => e.Within known n) s1) (ha : s1.Stays a s2)
    (hb : s2.Stays b s') : s.Stays (.cond e line a line' b) s' where
  leads := hc.leads.trans (ha.leads.trans hb.leads)
  scope := hb.scope.trans (ha.scope.trans hc.scope)
  after := rfl
  fits known hknown floor hfloor := by
    have hknown2 := hb.leads.knows hknown
    have hfits := ha.fits known hknown2 floor
    have hother := hb.fits known hknown floor
    have hafter := ha.after
    have hafter' := hb.after
    rw [hc.scope, hc.leads.loop] at hfits
    rw [ha.scope, hc.scope, ha.leads.loop, hc.leads.loop] at hother
    rw [hc.scope] at hafter
    rw [ha.scope, hc.scope] at hafter'
    exact ⟨hc.within known (ha.leads.knows hknown2) _ s.scope.bounds_size,
      ⟨hfits hfloor, hafter⟩, hother hfloor, hafter'⟩

/-- The body of a loop starts at the height of the loop. -/
theorem Stays.body_fits {known : Nat -> Prop} (hs : s.scope.Settled)
    (h : (s.inLoop (some s.scope.depth)).Stays a s') (hknown : forall id, s'.Knows id -> known id)
    {floor : Nat} (hfloor : floor <= s.scope.size) :
    a.Fits known (some s.scope.size) floor s.scope.size ∧ a.after s.scope.size = s.scope.size := by
  have hfits := h.fits known hknown floor hfloor
  unfold inLoop at hfits
  rw [hs.loopHeight_depth] at hfits
  exact ⟨hfits, h.after⟩

/-- Behind a loop the one around it goes on. -/
theorem Stays.leads_loop {loop : Option Nat} (h : (s.inLoop loop).Stays a s') :
    s.Leads (s'.inLoop s.loop) :=
  ⟨rfl, h.leads.base, h.leads.size, h.leads.sound⟩

theorem Stays.while {line line' : Nat} (hs : s.Within)
    (hc : s.Evaluates (fun known n => e.Within known n) s1)
    (ha : (s1.inLoop (some s1.scope.depth)).Stays a s') :
    s.Stays (.while e line a line') (s'.inLoop s1.loop) where
  leads := hc.leads.trans ha.leads_loop
  scope := ha.scope.trans hc.scope
  after := rfl
  fits known hknown floor hfloor := by
    have hbody := ha.body_fits (hc.leaves hs).1 hknown (hc.scope.symm ▸ hfloor)
    rw [hc.scope] at hbody
    exact ⟨hc.within known (ha.leads_loop.knows hknown) _ s.scope.bounds_size, hbody⟩

/-- The handler of a block starts with the thrown value on top of the locals. -/
theorem Stays.try {line : Nat} {n : Nat} (ha : s.Stays a s1) (hb : s1.Leads s')
    (hscope : s'.scope = s1.scope) (hafter : b.after (s1.scope.size + 1) = s1.scope.size)
    (hfits : forall known, (forall id, s'.Knows id -> known id) -> forall floor,
      floor <= s1.scope.size ->
        b.Fits known (s1.scope.loopHeight s1.loop) floor (s1.scope.size + 1))
    (hn : n = s.scope.size) : s.Stays (.try n a line b) s' where
  leads := ha.leads.trans hb
  scope := hscope.trans ha.scope
  after := rfl
  fits known hknown floor hfloor := by
    have hhandler := hfits known hknown floor
    rw [ha.scope, ha.leads.loop] at hhandler
    rw [ha.scope] at hafter
    have hbody := ha.fits known (hb.knows hknown) s.scope.size (Nat.le_refl _)
    exact ⟨hn, ⟨hn ▸ hbody, ha.after⟩, hhandler hfloor, hafter⟩

/-- A handler with a variable declares it in a block of its own. -/
theorem Stays.tryNamed {line dropLine : Nat} (hs : s.Within) (ha : s.Stays a s1)
    (hscope : s1.scope.enter.declare? name = some scope)
    (hb : (s1.inScope scope.settle).Within -> (s1.inScope scope.settle).Stays b s') :
    s.Stays (.try s.scope.size a line
      (.seq b (.drop (s'.scope.above (s'.scope.depth - 1)) dropLine)))
      (s'.inScope s'.scope.exit) := by
  have hs1 := (ha.leaves hs).enter
  have hgrows : s1.scope.enter.Grows scope.settle :=
    Scope.settle_of_declare? hscope ▸ .hide s1.scope.enter name
  have hsize : scope.settle.size = s1.scope.size + 1 :=
    congrArg Scope.size (Scope.settle_of_declare? hscope)
  have hloop : scope.settle.loopHeight s1.loop = s1.scope.loopHeight s1.loop :=
    (Scope.loopHeight_of_grows hgrows hs1.2).trans (s1.scope.loopHeight_enter s1.loop)
  have hstays := hb ⟨hgrows.settled hs1.1, fun d hd => hgrows.1 ▸ Nat.le_of_lt (hs1.2 d hd)⟩
  have hin : s1.scope.enter.Grows s'.scope := hstays.scope.symm ▸ hgrows
  have hafter : b.after (s1.scope.size + 1) = s'.scope.size := by
    rw [hstays.scope, ← hsize]
    exact hstays.after
  obtain ⟨hback, hfits⟩ := drop_fits dropLine (ha.leaves hs).1 hin hafter
  refine Stays.try ha ?_ (Scope.exit_of_grows (ha.leaves hs).1 hin) hback ?_ rfl
  · exact ⟨hstays.leads.loop, hstays.leads.base, hstays.leads.size, hstays.leads.sound⟩
  · intro known hknown floor hfloor
    have hhandler := hstays.fits known hknown floor (hsize ▸ Nat.le_succ_of_le hfloor)
    have hsize' : (s1.inScope scope.settle).scope.size = s1.scope.size + 1 := hsize
    rw [hsize'] at hhandler
    exact hfits known _ floor hfloor (hloop ▸ hhandler)

/-- A handler without a variable forgets the thrown value first. -/
theorem Stays.tryAny {line line' dropLine : Nat} (hs : s.Within) (ha : s.Stays a s1)
    (hb : (s1.inScope s1.scope.enter).Stays b s') :
    s.Stays (.try s.scope.size a line (.seq (.drop 1 line')
      (.seq b (.drop (s'.scope.above (s'.scope.depth - 1)) dropLine))))
      (s'.inScope s'.scope.exit) := by
  have hin : s1.scope.enter.Grows s'.scope := hb.scope.symm ▸ .refl s1.scope.enter
  have hafter : b.after s1.scope.size = s'.scope.size := by
    rw [hb.scope]
    exact hb.after
  obtain ⟨hback, hfits⟩ := drop_fits dropLine (ha.leaves hs).1 hin hafter
  refine Stays.try ha ?_ (Scope.exit_of_grows (ha.leaves hs).1 hin) hback ?_ rfl
  · exact ⟨hb.leads.loop, hb.leads.base, hb.leads.size, hb.leads.sound⟩
  · intro known hknown floor hfloor
    refine ⟨Nat.succ_le_succ hfloor, ?_⟩
    exact hfits known _ floor hfloor (hb.fits known hknown floor hfloor)

theorem Evaluates.binds (hscope : s.scope.declare? name = some scope)
    (h : (s.inScope scope).Evaluates (fun known n => e.Within known n) s') :
    s.Adds (.bind e) (s'.inScope s'.scope.settle) where
  leads := ⟨h.leads.loop, h.leads.base, h.leads.size, h.leads.sound⟩
  grows := by
    show s.scope.Grows s'.scope.settle
    rw [h.scope]
    exact Scope.settle_of_declare? hscope ▸ .hide s.scope name
  after := by
    show s.scope.size + 1 = s'.scope.settle.size
    rw [h.scope]
    exact congrArg Scope.size (Scope.settle_of_declare? hscope).symm
  fits known hknown floor _ :=
    h.within known hknown _ (Scope.bounds_of_declare? hscope)

/-- A function can be used in its own body, so its local has its value already. -/
theorem Evaluates.bindsFunction {id line : Nat} (hscope : s.scope.declare? name = some scope)
    (h : (s.inScope scope.settle).Evaluates (fun known _ => known id) s') :
    s.Adds (.bind (.function id line)) s' where
  leads := ⟨h.leads.loop, h.leads.base, h.leads.size, h.leads.sound⟩
  grows := by
    rw [h.scope]
    exact Scope.settle_of_declare? hscope ▸ .hide s.scope name
  after := by
    show s.scope.size + 1 = s'.scope.size
    rw [h.scope]
    exact congrArg Scope.size (Scope.settle_of_declare? hscope).symm
  fits known hknown _ _ := h.within known hknown _ (Scope.bounds_size _)

end Statements

/-! ## Loops -/

section Loops

variable {s s1 s2 s3 s' : Surroundings} {a body : Stmt} {c step e : Expr}

theorem Adds.stepping {line jumpLine stepLine bodyLine : Nat} (hs : s.Inside) (h : s.Adds a s1)
    (hc : s1.Evaluates (fun known n => c.Within known n) s2)
    (hstep : s2.Evaluates (fun known n => step.Within known n) s3)
    (hbody : (s3.inLoop (some s3.scope.depth)).Stays body s') :
    s.Adds (.seq a (.stepping c line jumpLine step stepLine body bodyLine))
      (s'.inLoop s3.loop) := by
  have hloop : s1.Stays (.stepping c line jumpLine step stepLine body bodyLine)
      (s'.inLoop s3.loop) := by
    refine ⟨hc.leads.trans (hstep.leads.trans hbody.leads_loop), ?_, rfl, ?_⟩
    · exact hbody.scope.trans (hstep.scope.trans hc.scope)
    · intro known hknown floor hfloor
      have hscope : s3.scope = s1.scope := hstep.scope.trans hc.scope
      have hs3 : s3.scope.Settled := hscope ▸ (h.leaves hs).1
      have hfits := hbody.body_fits hs3 hknown (hscope.symm ▸ hfloor)
      rw [hscope] at hfits
      have hknown3 := hbody.leads_loop.knows hknown
      refine ⟨hc.within known (hstep.leads.knows hknown3) _ s1.scope.bounds_size, ?_, hfits⟩
      exact hstep.within known hknown3 _ (hc.scope.symm ▸ s1.scope.bounds_size)
  exact h.seq hs hloop.adds

/-- The three locals that a loop over a collection keeps are there before those of its variables. -/
theorem grows_keeping (s : Scope) :
    s.Grows (((s.hide "<iterable>").hide "<keys>").hide "<index>") :=
  ((Scope.Grows.hide _ _).trans (.hide _ _)).trans (.hide _ _)

theorem Adds.collection {n line bodyLine : Nat} (hs : s.Inside)
    (he : s.Evaluates (fun known n => e.Within known n) s1) (hn : n = 1 ∨ n = 2)
    (hlead : s1.Leads s2)
    (hgrows : (((s1.scope.hide "<iterable>").hide "<keys>").hide "<index>").Grows s2.scope)
    (hsize : s2.scope.size = s1.scope.size + 3 + n)
    (hbody : (s2.inLoop (some s2.scope.depth)).Stays body s') :
    s.Adds (.seq (.bind e) (.iterate s1.scope.size n line body bodyLine)) (s'.inLoop s2.loop) where
  leads := he.leads.trans (hlead.trans hbody.leads_loop)
  grows := by
    show s.scope.Grows s'.scope
    rw [hbody.scope, ← he.scope]
    exact (grows_keeping s1.scope).trans hgrows
  after := by
    have hsame : s'.scope.size = s2.scope.size := congrArg Scope.size hbody.scope
    show s.scope.size + 1 + n + 2 = s'.scope.size
    rw [hsame, hsize, he.scope]
    lia
  fits known hknown floor hfloor := by
    have hgrows' := (grows_keeping s1.scope).trans hgrows
    have hs2 : s2.scope.Settled := hgrows'.settled (he.scope.symm ▸ hs.1)
    have hfloor' : floor <= s2.scope.size := by
      rw [hsize, he.scope]
      lia
    have hfits := hbody.body_fits hs2 hknown hfloor'
    have hheight : s2.scope.size = s.scope.size + 1 + n + 2 := by
      rw [hsize, he.scope]
      lia
    rw [hheight] at hfits
    have hknown1 := (hlead.trans hbody.leads_loop).knows hknown
    exact ⟨he.within known hknown1 _ s.scope.bounds_size,
      congrArg (fun s => Scope.size s + 1) he.scope, hn, hfits⟩

end Loops

end Surroundings

/-! ## Pieces -/

open Surroundings

/-- How what stands between two readings fits their surroundings. -/
def Piece.Fits (s s' : Surroundings) : Piece -> Prop
  | .expr e => s.Evaluates (fun known n => e.Within known n) s'
  | .exprs es => s.Evaluates (fun known n => Expr.AllWithin known n es) s'
  | .locals n => s.Leads s' ∧ s.scope.Grows s'.scope ∧ s'.scope.size = s.scope.size + n
  | .body d => s.scope = Scope.function -> s.loop = none -> s.Leads s' ∧
    forall known, (forall id, s'.Knows id -> known id) ->
      d.body.Fits known none (d.arity + 1) (d.arity + 1)
  | .function id => s.Evaluates (fun known _ => known id) s'
  | .statement a => s.Within -> s.Stays a s'
  | .declaration a | .loop a => s.Inside -> s.Adds a s'

/-- A function is known from its definition on. -/
theorem evaluates_function {s s' : Surroundings} {d : Definition}
    (h : Piece.Fits { s with scope := Scope.function, inFunction := true, loop := none } s'
      (.body d)) :
    s.Evaluates (fun known _ => known (s'.base + s'.definitions.size))
      { s' with
        scope := s.scope
        inFunction := s.inFunction
        loop := s.loop
        definitions := s'.definitions.push d } := by
  obtain ⟨hlead, hfits⟩ := h rfl rfl
  refine ⟨⟨rfl, hlead.base, ?_, ?_⟩, rfl, ?_⟩
  · rw [Array.size_push]
    exact Nat.le_succ_of_le hlead.size
  · intro hsound i d' hd'
    rw [Array.getElem?_push] at hd'
    split at hd'
    case isTrue hi =>
      cases hd'
      rw [hi]
      exact hfits s'.Knows fun _ hid => hid
    case isFalse => exact hlead.sound hsound i d' hd'
  · intro known hknown n _
    refine hknown _ ⟨Nat.le_add_right _ _, ?_⟩
    simp only [Array.size_push]
    lia

theorem body_fits {s s1 s' : Surroundings} {n line : Nat} {a : Stmt} (name : String)
    (hlocals : Piece.Fits s s1 (.locals n)) (ha : Piece.Fits s1 s' (.declaration a)) :
    Piece.Fits s s' (.body ⟨name, n, a, line⟩) := by
  intro hscope hloop
  obtain ⟨hlead, hgrows, hsize⟩ := hlocals
  rw [hscope] at hgrows hsize
  have hloop1 : s1.loop = none := hlead.loop.trans hloop
  have hadds := ha ⟨hgrows.settled Scope.settled_function, by simp [hloop1]⟩
  refine ⟨hlead.trans hadds.leads, fun known hknown => ?_⟩
  have hheight : s1.scope.size = n + 1 := by
    rw [hsize]
    exact Nat.add_comm 1 n
  have hfits := hadds.fits known hknown s1.scope.size (Nat.le_refl _)
  rwa [hloop1, Scope.loopHeight_none, hheight] at hfits

theorem surroundings_entered {r1 r2 r3 : Reading} (h : r1.Steps r2) (h' : r2.entered.Steps r3) :
    r3.surroundings = r1.surroundings.inScope r1.scope.enter :=
  h'.1.trans (congrArg (fun s => inScope s s.scope.enter) h.1)

/-- What stands between two readings fits, whatever it is. -/
theorem Reading.Spells.fits {r r' : Reading} {p : Piece} (h : r.Spells p r') :
    p.Fits r.surroundings r'.surroundings := by
  induction h with
  | ahead hsteps _ ih => exact hsteps.1 ▸ ih
  | behind _ hsteps ih => exact hsteps.1 ▸ ih
  | literal | text => exact evaluates_here fun _ _ _ => trivial
  | closure _ ih => exact ih
  | read _ hname => exact evaluates_here fun _ _ hn => hname.within hn
  | assign _ hname _ ih => exact ih.imp fun _ _ hn ha => ⟨hname.within hn, ha⟩
  | update op _ hname hsteps _ ih =>
      rw [hsteps.1] at ih
      exact ih.imp fun _ _ hn ha => ⟨hname.within hn, ha⟩
  | unary _ _ ih | property _ _ ih | array _ ih => exact ih
  | binary _ _ _ ih ih' | connect _ _ _ ih ih' | call _ _ ih ih' | setProperty _ _ _ ih ih'
  | updateProperty _ _ _ _ ih ih' | cons _ _ ih ih' => exact ih.and ih'
  | ternary _ _ _ _ ih ih' ih'' | updateItem _ _ _ _ ih ih' ih'' => exact ih.and (ih'.and ih'')
  | table _ heven ih => exact ih.imp fun _ _ _ hes => ⟨heven, hes⟩
  | nil => exact evaluates_here fun _ _ _ => trivial
  | none => exact ⟨.refl _, .refl _, rfl⟩
  | @«local» r r' name scope n hscope _ ih =>
      obtain ⟨hlead, hgrows, hsize⟩ := ih
      have hhide := Scope.settle_of_declare? hscope
      refine ⟨⟨hlead.loop, hlead.base, hlead.size, hlead.sound⟩, ?_, ?_⟩
      · exact (hhide ▸ Scope.Grows.hide r.scope name).trans hgrows
      · rw [hsize]
        show scope.settle.size + n = r.scope.size + (n + 1)
        rw [hhide, Scope.size_hide]
        lia
  | body name _ _ ih ih' => exact body_fits name ih ih'
  | @function r r' d _ ih => exact evaluates_function (s := r.surroundings) ih
  | skip => exact fun _ => stays_skip _
  | perform _ hperforms ih => exact fun _ => ih.performs hperforms
  | leave hloop => exact fun _ => stays_exit hloop (fun _ => rfl) fun _ _ _ _ h => h
  | again hloop => exact fun _ => stays_exit hloop (fun _ => rfl) fun _ _ _ _ h => h
  | block _ ih | «for» _ ih => exact fun hs => (ih hs.enter).block hs.1
  | cond _ _ _ ih ih' ih'' =>
      intro hs
      have hs1 := ih.leaves hs
      have hbody := ih' hs1
      exact Stays.cond ih hbody (ih'' (hbody.leaves hs1))
  | «while» _ _ ih ih' => exact fun hs => Stays.while hs ih (ih' (within_loop (ih.leaves hs).1))
  | @«try» r r1 r2 r3 r' body handler name scope _ hsteps hsteps' hscope _ ih ih' =>
      intro hs
      have hr3 := surroundings_entered hsteps hsteps'
      have hscope1 : r3.scope = r1.scope.enter := congrArg Surroundings.scope hr3
      have hhandler : Piece.Fits (r3.surroundings.inScope scope.settle) r'.surroundings
        (.statement handler) := ih'
      rw [hr3] at hhandler
      exact Stays.tryNamed hs (ih hs) (hscope1 ▸ hscope) hhandler
  | tryAny _ hsteps hsteps' _ ih ih' =>
      intro hs
      have hbody := ih hs
      rw [surroundings_entered hsteps hsteps'] at ih'
      exact Stays.tryAny hs hbody (ih' (hbody.leaves hs).enter.within)
  | plain _ ih => exact fun hs => (ih hs.within).adds
  | seq _ _ ih ih' =>
      intro hs
      have hfirst := ih hs
      exact hfirst.seq hs (ih' (hfirst.leaves hs))
  | @bind r r' name scope e hscope _ ih =>
      exact fun _ => Evaluates.binds (s := r.surroundings) hscope ih
  | @bindFunction r r' name scope id hscope _ ih =>
      exact fun _ => Evaluates.bindsFunction (s := r.surroundings) hscope ih
  | stepping _ _ hsteps _ _ ih ih' ih'' ih3 =>
      intro hs
      have hstart := ih hs
      rw [hsteps.1] at ih''
      have hs' := ih''.leaves (ih'.leaves (hstart.leaves hs).within)
      exact hstart.stepping hs ih' ih'' (ih3 (within_loop hs'.1))
  | @collection r r1 r2 r' e n body _ hn _ _ ih ih' ih'' =>
      intro hs
      obtain ⟨hlead, hgrows, hsize⟩ := ih'
      have hs1 : r1.scope.Settled := (ih.leaves hs.within).1
      have hs2 := hgrows.settled ((grows_keeping r1.scope).settled hs1)
      exact Adds.collection hs ih hn ⟨hlead.loop, hlead.base, hlead.size, hlead.sound⟩ hgrows hsize
        (ih'' (within_loop hs2))

end StackScript
