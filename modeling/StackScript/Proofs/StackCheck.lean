import StackScript.Code.Function

/-!
# The static stack check

A function can be checked without running it: give every instruction a height, the
number of values that its call has on the stack when control is there, and compare
the heights of neighbouring instructions.  The check looks at one instruction at a
time.  It asks that the operands lie above slot zero, that control stays inside the
code and finds the height it left, and that slots and constants are there.

A `try` adds two conditions.  Its handler starts with the locals of the `try` and
the thrown value, and an instruction under the `try` that can fail leaves those
locals alone.
-/

namespace StackScript

namespace Instr

/-! ## What an instruction does to the height -/

/-- How many of the topmost values an instruction takes away. -/
@[simp] def taken : Instr -> Nat
  | pop | unary _ | defineGlobal _ | getProperty _ | ret | throw | print | echo | use => 1
  | binary _ | setProperty _ => 2
  | ternary _ => 3
  | newArray n => n
  | newTable n => 2 * n
  | call n => n + 1
  | _ => 0

/-- How many of the topmost values an instruction takes away or looks at. -/
@[simp] def reach : Instr -> Nat
  | duplicate | setGlobal _ | setLocal _ | jumpIfFalse _ | jumpIfTrue _ => 1
  | duplicatePair => 2
  | i => i.taken

/-- How many values an instruction puts on the stack before control goes on. -/
@[simp] def given : Instr -> Nat
  | constant _ | literal _ | duplicate | unary _ | binary _ | ternary _ => 1
  | getGlobal _ | getLocal _ | increment _ _ | getProperty _ | setProperty _ => 1
  | newArray _ | newTable _ | call _ | use => 1
  | duplicatePair => 2
  | forBegin _ vars _ => vars + 2
  | _ => 0

@[simp] def heightAfter (i : Instr) (height : Nat) : Nat :=
  height - i.taken + i.given

/-! ## Where control goes -/

/-- Whether control can go on with the next instruction. -/
def continues : Instr -> Bool
  | jump _ | loop _ | ret | throw => false
  | _ => true

/-- The indices at which control can go on after the instruction at index `ip`. -/
def successors (ip : Nat) (i : Instr) : List Nat :=
  (if i.continues then [ip + 1] else []) ++ (i.jumpTarget? ip).toList

/-- The offset of a jump backwards. -/
def backOffset? : Instr -> Option Nat
  | loop offset | forNext _ _ offset => some offset
  | _ => none

/-- Whether an instruction only moves control or forgets a value, so that it cannot fail. -/
def quiet : Instr -> Bool
  | pop | jump _ | loop _ => true
  | _ => false

/-! ## Slots and constants -/

def slots : Instr -> List Nat
  | getLocal slot | setLocal slot | increment slot _ | forBegin slot _ _ => [slot]
  | forNext slot vars _ => List.range' slot (vars + 3)
  | _ => []

/-- The number of variables of a loop over a collection. -/
def loopVariables? : Instr -> Option Nat
  | forBegin _ vars _ | forNext _ vars _ => some vars
  | _ => none

def name? : Instr -> Option Nat
  | defineGlobal k | getGlobal k | setGlobal k | getProperty k | setProperty k => some k
  | _ => none

def constant? : Instr -> Option Nat
  | constant k => some k
  | i => i.name?

end Instr

/-! ## The check -/

/-- The conditions on one instruction of a function under an assignment of heights. -/
structure Instr.Fits (f : Function) (height : Nat -> Nat) (ip : Nat) (i : Instr) : Prop where
  /-- The operands lie above slot zero. -/
  operands : i.reach < height ip
  inside : forall t, t ∈ i.successors ip -> t < f.code.size
  flow : forall t, t ∈ i.successors ip -> height t = i.heightAfter (height ip)
  back : forall offset, i.backOffset? = some offset -> offset <= ip + 1 := by
    simp [Instr.backOffset?]
  slots : forall slot, slot ∈ i.slots -> slot < height ip := by
    simp [Instr.slots]
  loopVars : forall vars, i.loopVariables? = some vars -> vars = 1 ∨ vars = 2 := by
    simp [Instr.loopVariables?]
  constants : forall k, i.constant? = some k -> k < f.code.constants.size := by
    simp [Instr.constant?, Instr.name?]
  names : forall k, i.name? = some k -> exists s, f.code.constants[k]? = some (.text s) := by
    simp [Instr.name?]

/-- The conditions on one `try` of a function under an assignment of heights. -/
structure TryRange.Fits (f : Function) (height : Nat -> Nat) (r : TryRange) : Prop where
  inside : r.stop < f.code.size
  /-- A handler finds the locals of its `try` and the thrown value. -/
  handler : height r.stop = r.depth + 1
  /-- What can fail leaves the locals of the `try` alone. -/
  kept : forall ip i, r.covers ip = true -> f.code.instrs[ip]? = some i -> i.quiet = false ->
    r.depth + i.taken <= height ip

/-- A walk along the chain of ranges from a given link comes to an end. -/
inductive Function.ChainEnds (f : Function) : Option Nat -> Prop where
  | done : ChainEnds f none
  | outside {i : Nat} : f.ranges[i]? = none -> ChainEnds f (some i)
  | step {i : Nat} {r : TryRange} :
      f.ranges[i]? = some r -> ChainEnds f r.next -> ChainEnds f (some i)

/-- A function that keeps to an assignment of heights. -/
structure Function.Keeps (f : Function) (height : Nat -> Nat) : Prop where
  /-- A call starts with the called value and its arguments. -/
  entry : height 0 = f.arity + 1
  nonempty : 0 < f.code.size
  instrs : forall (ip : Nat) (i : Instr), f.code.instrs[ip]? = some i -> i.Fits f height ip
  ranges : forall r : TryRange, r ∈ f.ranges -> r.Fits f height
  chain : f.ChainEnds f.head

/-- A function that passes the static stack check. -/
def Function.Checked (f : Function) : Prop :=
  exists height, f.Keeps height

/-! ## Instructions that fit -/

namespace Instr

/-- Instructions that only work on the topmost values. -/
def plain : Instr -> Bool
  | literal _ | pop | duplicate | duplicatePair | unary _ | binary _ | ternary _ => true
  | newArray _ | newTable _ | call _ | print | echo | use => true
  | _ => false

variable {f : Function} {height : Nat -> Nat} {ip : Nat} {i : Instr}

theorem fits_of_plain (hi : i.plain = true) (hreach : i.reach < height ip)
    (hin : ip + 1 < f.code.size) (hnext : height (ip + 1) = i.heightAfter (height ip)) :
    i.Fits f height ip := by
  cases i <;> first
    | (cases hi; done)
    | exact
        { operands := hreach
          inside := List.forall_mem_singleton.mpr hin
          flow := List.forall_mem_singleton.mpr hnext
          back := nofun
          slots := nofun
          loopVars := nofun
          constants := nofun
          names := nofun }

theorem fits_constant {k : Nat} {v : Value} (hk : f.code.constants[k]? = some v)
    (hpos : 0 < height ip) (hin : ip + 1 < f.code.size)
    (hnext : height (ip + 1) = height ip + 1) : (constant k).Fits f height ip where
  operands := hpos
  inside := List.forall_mem_singleton.mpr hin
  flow := List.forall_mem_singleton.mpr hnext
  back := nofun
  slots := nofun
  loopVars := nofun
  names := nofun
  constants := by
    intro k' hk'
    have hkk : k = k' := by simpa [constant?] using hk'
    rw [← hkk]
    exact (Array.getElem?_eq_some_iff.mp hk).1

/-- Instructions that name a global or a property. -/
theorem fits_of_name {k : Nat} {s : String} (hi : i.name? = some k)
    (hk : f.code.constants[k]? = some (.text s)) (hreach : i.reach < height ip)
    (hin : ip + 1 < f.code.size) (hnext : height (ip + 1) = i.heightAfter (height ip)) :
    i.Fits f height ip := by
  have hsize : k < f.code.constants.size := (Array.getElem?_eq_some_iff.mp hk).1
  have hconst : forall k', i.constant? = some k' -> k' < f.code.constants.size := by
    intro k' hk'
    have hkk : k = k' := by
      cases i <;> simp_all [constant?, name?]
    rw [← hkk]
    exact hsize
  have hnames : forall k', i.name? = some k' ->
      exists s, f.code.constants[k']? = some (.text s) := by
    intro k' hk'
    have hkk : k = k' := by simpa [hi] using hk'
    rw [← hkk]
    exact ⟨s, hk⟩
  cases i <;> first
    | (cases hi; done)
    | exact
        { operands := hreach
          inside := List.forall_mem_singleton.mpr hin
          flow := List.forall_mem_singleton.mpr hnext
          back := nofun
          slots := nofun
          loopVars := nofun
          constants := hconst
          names := hnames }

/-- Instructions that read or write one local. -/
theorem fits_of_slot {slot : Nat} (hi : i.slots = [slot]) (hvars : i.loopVariables? = none)
    (hslot : slot < height ip) (hreach : i.reach < height ip)
    (hin : ip + 1 < f.code.size) (hnext : height (ip + 1) = i.heightAfter (height ip)) :
    i.Fits f height ip := by
  have hslots : forall s, s ∈ i.slots -> s < height ip := by
    intro s hs
    have hss : s = slot := by simpa [hi] using hs
    rw [hss]
    exact hslot
  cases i <;> first
    | (cases hi; done)
    | (cases hvars; done)
    | exact
        { operands := hreach
          inside := List.forall_mem_singleton.mpr hin
          flow := List.forall_mem_singleton.mpr hnext
          back := nofun
          slots := hslots
          loopVars := nofun
          constants := nofun
          names := nofun }

/-- Instructions that jump if the topmost value says so; it stays. -/
theorem fits_branch {offset : Nat} (hi : i = jumpIfFalse offset ∨ i = jumpIfTrue offset)
    (hpos : 1 < height ip) (hin : ip + 1 + offset < f.code.size)
    (hnext : height (ip + 1) = height ip) (hjump : height (ip + 1 + offset) = height ip) :
    i.Fits f height ip := by
  rcases hi with rfl | rfl <;> exact
    { operands := hpos
      inside := by
        simp only [successors, continues, jumpTarget?, if_true, Option.toList_some,
          List.cons_append, List.nil_append, List.mem_cons, List.not_mem_nil, or_false]
        rintro t (rfl | rfl) <;> lia
      flow := by simp [successors, continues, jumpTarget?, heightAfter, taken, given, hnext,
        hjump]
      back := nofun
      slots := nofun
      loopVars := nofun
      constants := nofun
      names := nofun }

theorem fits_jump {offset : Nat} (hpos : 0 < height ip) (hin : ip + 1 + offset < f.code.size)
    (hjump : height (ip + 1 + offset) = height ip) : (jump offset).Fits f height ip where
  operands := hpos
  inside := List.forall_mem_singleton.mpr hin
  flow := List.forall_mem_singleton.mpr hjump
  back := nofun
  slots := nofun
  loopVars := nofun
  constants := nofun
  names := nofun

theorem fits_loop {offset : Nat} (hpos : 0 < height ip) (hback : offset <= ip + 1)
    (hin : ip + 1 - offset < f.code.size)
    (hjump : height (ip + 1 - offset) = height ip) : (loop offset).Fits f height ip where
  operands := hpos
  inside := by simpa [successors, continues, jumpTarget?, hback] using hin
  flow := by
    simpa [successors, continues, jumpTarget?, hback, heightAfter, taken, given] using hjump
  back := by simpa [backOffset?] using hback
  slots := nofun
  loopVars := nofun
  constants := nofun
  names := nofun

theorem fits_forBegin {slot vars offset : Nat} (hslot : slot < height ip)
    (hvars : vars = 1 ∨ vars = 2) (hin : ip + 1 + offset < f.code.size)
    (hnext : height (ip + 1) = height ip + (vars + 2))
    (hjump : height (ip + 1 + offset) = height ip + (vars + 2)) :
    (forBegin slot vars offset).Fits f height ip where
  operands := by
    show 0 < height ip
    lia
  inside := by
    simp only [successors, continues, jumpTarget?, if_true, Option.toList_some,
      List.cons_append, List.nil_append, List.mem_cons, List.not_mem_nil, or_false]
    rintro t (rfl | rfl) <;> lia
  flow := by simp [successors, continues, jumpTarget?, heightAfter, taken, given, hnext, hjump]
  back := nofun
  slots := by simpa [Instr.slots] using hslot
  loopVars := by simpa [loopVariables?] using hvars
  constants := nofun
  names := nofun

theorem fits_forNext {slot vars offset : Nat} (hslot : slot + vars + 2 < height ip)
    (hvars : vars = 1 ∨ vars = 2) (hback : offset <= ip + 1) (hin : ip + 1 < f.code.size)
    (hnext : height (ip + 1) = height ip)
    (hjump : height (ip + 1 - offset) = height ip) :
    (forNext slot vars offset).Fits f height ip where
  operands := by
    show 0 < height ip
    lia
  inside := by
    simp only [successors, continues, jumpTarget?, hback, if_true, Option.toList_some,
      List.cons_append, List.nil_append, List.mem_cons, List.not_mem_nil, or_false]
    rintro t (rfl | rfl) <;> lia
  flow := by
    simp [successors, continues, jumpTarget?, hback, heightAfter, taken, given, hnext, hjump]
  back := by simpa [backOffset?] using hback
  slots := by
    intro s hs
    have hs' : slot <= s ∧ s < slot + (vars + 3) := by
      simpa [Instr.slots, List.mem_range'_1] using hs
    lia
  loopVars := by simpa [loopVariables?] using hvars
  constants := nofun
  names := nofun

/-- Instructions after which control does not go on. -/
theorem fits_of_last (hi : i = ret ∨ i = throw) (hpos : 1 < height ip) :
    i.Fits f height ip := by
  rcases hi with rfl | rfl <;> exact
    { operands := hpos
      inside := by simp [successors, continues, jumpTarget?]
      flow := by simp [successors, continues, jumpTarget?]
      back := nofun
      slots := nofun
      loopVars := nofun
      constants := nofun
      names := nofun }

end Instr

end StackScript
