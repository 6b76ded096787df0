import Mathlib.Data.List.Nodup
import StackScript.Proofs.Reading.Heights

/-!
# Scopes as stacks of blocks

A text opens and closes blocks, and each block has its own declarations.  The reader keeps one
list of locals instead and tells the blocks apart by depths.  Whatever it does to that list, the
list stands for the blocks that are open: a name can be declared once in each block, it stands
for its declaration in the innermost block that has one, and leaving a block forgets what was
declared in it and nothing else.
-/

namespace StackScript

/-! ## Blocks -/

structure Declaration where
  name : String
  slot : Nat
  /-- Whether the local has its value. -/
  settled : Bool
  deriving DecidableEq, Repr

/-- The open blocks of a function, each with its declarations, newest first. -/
structure Blocks where
  current : List Declaration
  /-- The blocks around the current one, innermost first. -/
  outer : List (List Declaration)
  deriving DecidableEq, Repr

namespace Scope

/-- What reading a function does to its scope. -/
inductive Operation where
  | enter
  | declare (name : String)
  /-- The newest local gets its value. -/
  | settle
  | hide (name : String)
  | exit
  deriving DecidableEq, Repr

/-- Operations that leave each block they enter, and no other. -/
inductive Balanced : List Operation -> Prop where
  | nil : Balanced []
  | declare (name : String) {rest : List Operation} :
      Balanced rest -> Balanced (.declare name :: rest)
  | settle {rest : List Operation} : Balanced rest -> Balanced (.settle :: rest)
  | hide (name : String) {rest : List Operation} : Balanced rest -> Balanced (.hide name :: rest)
  | block {inner rest : List Operation} : Balanced inner -> Balanced rest ->
      Balanced (.enter :: inner ++ .exit :: rest)

end Scope

namespace Blocks

def script : Blocks :=
  ⟨[⟨"", 0, true⟩], []⟩

/-- The blocks of a function: around its body stands the function itself. -/
def function : Blocks :=
  ⟨[], [[⟨"", 0, true⟩]]⟩

def all (b : Blocks) : List (List Declaration) :=
  b.current :: b.outer

def declarations (b : Blocks) : List Declaration :=
  b.all.flatten

def Idle (b : Blocks) : Prop :=
  forall d, d ∈ b.declarations -> d.settled = true

instance (b : Blocks) : Decidable b.Idle :=
  inferInstanceAs (Decidable (forall d, d ∈ b.declarations -> d.settled = true))

def names (b : Blocks) : List String :=
  b.current.map Declaration.name

def add (b : Blocks) (name : String) (settled : Bool) : Blocks :=
  { b with current := ⟨name, b.declarations.length, settled⟩ :: b.current }

def enter (b : Blocks) : Blocks :=
  ⟨[], b.all⟩

def settle? : Blocks -> Option Blocks
  | ⟨⟨name, slot, false⟩ :: rest, outer⟩ => some ⟨⟨name, slot, true⟩ :: rest, outer⟩
  | _ => none

/-- The blocks behind the end of the current one, if there is one around it. -/
def exit? : Blocks -> Option Blocks
  | ⟨_, c :: outer⟩ => some ⟨c, outer⟩
  | ⟨_, []⟩ => none

/-- The blocks after an operation.  Nothing if it is not its turn: a local gets its value before
anything else happens to the scope.  Nothing either if the current block has the name already, or
if there is no block to leave. -/
def perform? (b : Blocks) : Scope.Operation -> Option Blocks
  | .enter => if b.Idle then some b.enter else none
  | .declare name => if b.Idle ∧ name ∉ b.names then some (b.add name false) else none
  | .settle => b.settle?
  | .hide name => if b.Idle ∧ name ∉ b.names then some (b.add name true) else none
  | .exit => if b.Idle then b.exit? else none

def performAll? (b : Blocks) (ops : List Scope.Operation) : Option Blocks :=
  ops.foldlM perform? b

/-- The declaration is that of the name in the innermost block that has one. -/
def Innermost (b : Blocks) (name : String) (d : Declaration) : Prop :=
  exists inner block outer, b.all = inner ++ block :: outer ∧ d ∈ block ∧ d.name = name ∧
    forall c, c ∈ inner -> forall e, e ∈ c -> e.name ≠ name

/-! ## The list of locals -/

/-- A declaration in a block of the given depth, as the reader keeps it. -/
def toLocal (depth : Nat) (d : Declaration) : Local :=
  ⟨d.name, if d.settled then some depth else none⟩

/-- The declarations of blocks, as the reader keeps them. -/
def toLocals : List (List Declaration) -> List Local
  | [] => []
  | block :: outer => block.map (toLocal outer.length) ++ toLocals outer

def flat (b : Blocks) : Scope :=
  ⟨toLocals b.all, b.outer.length⟩

/-- Each declaration has the number of older ones as its slot. -/
def Numbered : List Declaration -> Prop
  | [] => True
  | d :: older => d.slot = older.length ∧ Numbered older

/-- What holds of the blocks at any time. -/
structure Sound (b : Blocks) : Prop where
  numbered : Numbered b.declarations
  /-- At most the newest local waits for its value. -/
  settled : forall d, d ∈ b.current.tail ++ b.outer.flatten -> d.settled = true
  distinct : forall c, c ∈ b.all -> (c.map Declaration.name).Nodup

/-! ## Lists of locals -/

section Lists

theorem length_toLocals (blocks : List (List Declaration)) :
    (toLocals blocks).length = blocks.flatten.length := by
  induction blocks with
  | nil => rfl
  | cons block outer ih => simp [toLocals, ih]

theorem outside_toLocals {blocks : List (List Declaration)}
    (h : forall d, d ∈ blocks.flatten -> d.settled = true) :
    forall l, l ∈ toLocals blocks -> exists d, l.depth = some d ∧ d < blocks.length := by
  induction blocks with
  | nil => exact nofun
  | cons block outer ih =>
      rw [List.flatten_cons] at h
      intro l hl
      rcases List.mem_append.mp hl with hmem | hmem
      · rcases List.mem_map.mp hmem with ⟨d, hd, rfl⟩
        exact ⟨outer.length, by simp [toLocal, h d (List.mem_append_left _ hd)],
          Nat.lt_succ_self _⟩
      · have hsettled := fun d hd => h d (List.mem_append_right block hd)
        rcases ih hsettled l hmem with ⟨d, hd, hlt⟩
        exact ⟨d, hd, Nat.lt_succ_of_lt hlt⟩

/-- A test that holds of the first locals and of no other one takes just these. -/
theorem takeWhile_append {p : Local -> Bool} {a b : List Local}
    (ha : forall l, l ∈ a -> p l = true) (hb : forall l, l ∈ b -> p l = false) :
    (a ++ b).takeWhile p = a := by
  rw [List.takeWhile_append_of_pos ha]
  cases b with
  | nil => simp
  | cons l b => simp [hb l List.mem_cons_self]

/-- The first declaration of a name is the one that the list of locals finds. -/
theorem resolveIn_toLocals {blocks : List (List Declaration)} (h : Numbered blocks.flatten)
    (name : String) :
    Scope.resolveIn name (toLocals blocks) =
      match blocks.flatten.find? fun d => d.name == name with
      | some d => if d.settled then .slot d.slot else .unsettled
      | none => .global := by
  induction blocks with
  | nil => rfl
  | cons block outer ih =>
      rw [toLocals, List.flatten_cons] at *
      induction block with
      | nil => exact ih h
      | cons d block ihd =>
          rw [List.map_cons, List.cons_append, Scope.resolveIn, List.cons_append, List.find?_cons]
          by_cases hname : d.name = name
          · have hslot : d.slot = (block ++ outer.flatten).length := h.1
            cases hs : d.settled <;> simp [toLocal, hname, hs, hslot, length_toLocals]
          · have htest : (d.name == name) = false := by simpa using hname
            rw [if_neg (by exact hname), htest]
            exact ihd h.2

end Lists

/-! ## What the list says of the blocks -/

section Flat

variable {b : Blocks}

theorem size_flat (b : Blocks) : b.flat.size = b.declarations.length :=
  length_toLocals b.all

theorem Sound.outer_settled (hb : b.Sound) : forall d, d ∈ b.outer.flatten -> d.settled = true :=
  fun d hd => hb.settled d (List.mem_append_right _ hd)

theorem current_depth {l : Local} (h : l ∈ b.current.map (toLocal b.outer.length)) :
    l.depth = some b.outer.length ∨ l.depth = none := by
  rcases List.mem_map.mp h with ⟨d, -, rfl⟩
  cases hd : d.settled <;> simp [toLocal, hd]

theorem declares_flat (hb : b.Sound) (name : String) :
    b.flat.declares name = true ↔ name ∈ b.names := by
  have htake : (toLocals b.all).takeWhile (fun l => !l.outside b.outer.length) =
      b.current.map (toLocal b.outer.length) := by
    refine takeWhile_append ?_ ?_
    · intro l hl
      rcases current_depth hl with hd | hd <;> simp [Local.outside, hd]
    · intro l hl
      rcases outside_toLocals hb.outer_settled l hl with ⟨d, hd, hlt⟩
      simp [Local.outside, hd, hlt]
  unfold Scope.declares
  rw [show b.flat.locals = toLocals b.all from rfl, show b.flat.depth = b.outer.length from rfl,
    htake]
  simp [names, toLocal]

theorem declare?_flat (hb : b.Sound) (name : String) :
    b.flat.declare? name =
      if name ∈ b.names then none else some (b.add name false).flat := by
  unfold Scope.declare?
  by_cases h : name ∈ b.names
  · rw [if_pos h, if_pos ((declares_flat hb name).mpr h)]
  · rw [if_neg h, if_neg (mt (declares_flat hb name).mp h)]
    rfl

theorem above_flat {c : List Declaration} {outer : List (List Declaration)} (hb : b.Sound)
    (ho : b.outer = c :: outer) : b.flat.above (b.flat.depth - 1) = b.current.length := by
  have hdepth : b.flat.depth - 1 = outer.length := by simp [flat, ho]
  have htake : (toLocals b.all).takeWhile (fun l => l.deeper outer.length) =
      b.current.map (toLocal b.outer.length) := by
    refine takeWhile_append ?_ ?_
    · intro l hl
      rcases current_depth hl with hd | hd <;> simp [Local.deeper, hd, ho]
    · intro l hl
      rcases outside_toLocals hb.outer_settled l hl with ⟨d, hd, hlt⟩
      simp only [ho, List.length_cons] at hlt
      simpa [Local.deeper, hd] using Nat.le_of_lt_succ hlt
  rw [hdepth, Scope.above, show b.flat.locals = toLocals b.all from rfl, htake]
  simp

theorem exit_flat {c : List Declaration} {outer : List (List Declaration)} (hb : b.Sound)
    (ho : b.outer = c :: outer) : b.flat.exit = (⟨c, outer⟩ : Blocks).flat := by
  unfold Scope.exit
  rw [above_flat hb ho]
  have hlength : (b.current.map (toLocal b.outer.length)).length = b.current.length := by simp
  have hdrop : b.flat.locals.drop b.current.length = toLocals b.outer := by
    rw [← hlength]
    exact List.drop_left
  rw [hdrop]
  simp [flat, all, ho]

/-- The declaration in the innermost block is the first one of its name. -/
theorem find?_eq_of_innermost (hb : b.Sound) {name : String} {d : Declaration}
    (h : b.Innermost name d) : (b.declarations.find? fun d => d.name == name) = some d := by
  rcases h with ⟨inner, block, outer, hall, hd, hname, hinner⟩
  have hnodup := hb.distinct block (by simp [hall])
  have hbefore : (inner.flatten.find? fun d => d.name == name) = none := by
    rw [List.find?_eq_none]
    intro e he
    rcases List.mem_flatten.mp he with ⟨c, hc, he⟩
    simpa using hinner c hc e he
  have hblock : (block.find? fun d => d.name == name) = some d := by
    cases hfind : block.find? fun d => d.name == name with
    | none =>
        have := List.find?_eq_none.mp hfind d hd
        simp [hname] at this
    | some e =>
        have hename : e.name = d.name := by
          rw [hname]
          simpa using List.find?_some hfind
        rw [List.inj_on_of_nodup_map hnodup (List.mem_of_find?_eq_some hfind) hd hename]
  rw [declarations, hall, List.flatten_append, List.flatten_cons, List.find?_append, hbefore,
    Option.none_or, List.find?_append, hblock, Option.some_or]

theorem innermost_of_find? {name : String} {d : Declaration}
    (h : (b.declarations.find? fun d => d.name == name) = some d) : b.Innermost name d := by
  unfold declarations at h
  unfold Innermost
  generalize b.all = blocks at h
  induction blocks with
  | nil => cases h
  | cons block outer ih =>
      rw [List.flatten_cons, List.find?_append] at h
      cases hfind : block.find? fun d => d.name == name with
      | some e =>
          rw [hfind, Option.some_or] at h
          cases h
          exact ⟨[], block, outer, rfl, List.mem_of_find?_eq_some hfind,
            by simpa using List.find?_some hfind, nofun⟩
      | none =>
          rw [hfind, Option.none_or] at h
          rcases ih h with ⟨inner, block', outer', hall, hd, hname, hinner⟩
          refine ⟨block :: inner, block', outer', by rw [hall]; rfl, hd, hname, ?_⟩
          intro c hc e he
          rcases List.mem_cons.mp hc with rfl | hc
          · simpa using List.find?_eq_none.mp hfind e he
          · exact hinner c hc e he

/-- A name has one declaration in the innermost block that has one. -/
theorem Innermost.unique (hb : b.Sound) {name : String} {d e : Declaration}
    (hd : b.Innermost name d) (he : b.Innermost name e) : d = e :=
  Option.some.inj ((find?_eq_of_innermost hb hd).symm.trans (find?_eq_of_innermost hb he))

theorem Innermost.mem {name : String} {d : Declaration} (h : b.Innermost name d) :
    d ∈ b.declarations ∧ d.name = name := by
  rcases h with ⟨inner, block, outer, hall, hd, hname, -⟩
  refine ⟨?_, hname⟩
  rw [declarations, hall]
  exact List.mem_flatten_of_mem (by simp) hd

/-- What a name stands for, by the blocks. -/
theorem resolve_flat (hb : b.Sound) (name : String) :
    (exists d, b.Innermost name d ∧
      b.flat.resolve name = if d.settled then .slot d.slot else .unsettled) ∨
    ((forall d, d ∈ b.declarations -> d.name ≠ name) ∧ b.flat.resolve name = .global) := by
  have hresolve := resolveIn_toLocals hb.numbered name
  cases hfind : b.declarations.find? fun d => d.name == name with
  | some d =>
      refine Or.inl ⟨d, innermost_of_find? hfind, hresolve.trans ?_⟩
      rw [show b.all.flatten = b.declarations from rfl, hfind]
  | none =>
      refine Or.inr ⟨?_, hresolve.trans ?_⟩
      · intro d hd
        simpa using List.find?_eq_none.mp hfind d hd
      · rw [show b.all.flatten = b.declarations from rfl, hfind]

end Flat

/-! ## What an operation keeps -/

section Steps

variable {b b' : Blocks}

theorem Sound.add {name : String} {settled : Bool} (hb : b.Sound) (hidle : b.Idle)
    (hname : name ∉ b.names) : (b.add name settled).Sound where
  numbered := ⟨rfl, hb.numbered⟩
  settled := hidle
  distinct := by
    intro c hc
    rcases List.mem_cons.mp hc with rfl | hc
    · exact List.nodup_cons.mpr ⟨hname, hb.distinct _ List.mem_cons_self⟩
    · exact hb.distinct c (List.mem_cons_of_mem _ hc)

theorem sound_script : script.Sound where
  numbered := ⟨rfl, trivial⟩
  settled := nofun
  distinct := by simp [script, all]

theorem sound_function : function.Sound where
  numbered := ⟨rfl, trivial⟩
  settled := by simp [function]
  distinct := by simp [function, all]

theorem Sound.enter (hb : b.Sound) (hidle : b.Idle) : b.enter.Sound where
  numbered := hb.numbered
  settled := hidle
  distinct := by
    intro c hc
    rcases List.mem_cons.mp hc with rfl | hc
    · exact .nil
    · exact hb.distinct c hc

theorem Sound.settle (hb : b.Sound) (h : b.settle? = some b') : b'.Sound := by
  unfold settle? at h
  split at h
  · cases h
    have hcurrent := hb.distinct _ List.mem_cons_self
    refine ⟨hb.numbered, hb.settled, ?_⟩
    intro c hc
    rcases List.mem_cons.mp hc with rfl | hc
    · exact hcurrent
    · exact hb.distinct c (List.mem_cons_of_mem _ hc)
  · cases h

theorem Numbered.drop {ds older : List Declaration} (h : Numbered (ds ++ older)) :
    Numbered older := by
  induction ds with
  | nil => exact h
  | cons d ds ih => exact ih h.2

theorem Sound.exit (hb : b.Sound) (h : b.exit? = some b') : b'.Sound := by
  unfold exit? at h
  split at h
  · rename_i current c outer
    cases h
    have hnumbered : Numbered (current ++ (c ++ outer.flatten)) := hb.numbered
    refine ⟨hnumbered.drop, ?_, ?_⟩
    · intro d hd
      refine hb.outer_settled d ?_
      rcases List.mem_append.mp hd with hd | hd
      · exact List.mem_append_left _ (List.mem_of_mem_tail hd)
      · exact List.mem_append_right _ hd
    · exact fun d hd => hb.distinct d (List.mem_cons_of_mem _ hd)
  · cases h

theorem Sound.perform (hb : b.Sound) {o : Scope.Operation} (h : b.perform? o = some b') :
    b'.Sound := by
  cases o with
  | enter =>
      simp only [perform?, Option.ite_none_right_eq_some, Option.some.injEq] at h
      rw [← h.2]
      exact hb.enter h.1
  | declare name =>
      simp only [perform?, Option.ite_none_right_eq_some, Option.some.injEq] at h
      rw [← h.2]
      exact hb.add h.1.1 h.1.2
  | hide name =>
      simp only [perform?, Option.ite_none_right_eq_some, Option.some.injEq] at h
      rw [← h.2]
      exact hb.add h.1.1 h.1.2
  | settle => exact hb.settle h
  | exit =>
      simp only [perform?, Option.ite_none_right_eq_some] at h
      exact hb.exit h.2

theorem Sound.performAll (hb : b.Sound) {ops : List Scope.Operation}
    (h : b.performAll? ops = some b') : b'.Sound := by
  induction ops generalizing b with
  | nil =>
      cases h
      exact hb
  | cons o ops ih =>
      rcases Option.bind_eq_some_iff.mp h with ⟨c, ho, hops⟩
      exact ih (hb.perform ho) hops

theorem performAll?_append {ops ops' : List Scope.Operation} :
    b.performAll? (ops ++ ops') = (b.performAll? ops).bind fun c => c.performAll? ops' := by
  rw [performAll?, List.foldlM_append]
  rfl

/-- Behind a block the blocks are those from before it. -/
theorem performAll?_block {inner rest : List Scope.Operation}
    (hinner : forall {c c' : Blocks}, c.performAll? inner = some c' -> c'.outer = c.outer)
    (h : b.performAll? (.enter :: inner ++ .exit :: rest) = some b') :
    b.performAll? rest = some b' := by
  rw [performAll?_append] at h
  rcases Option.bind_eq_some_iff.mp h with ⟨c, hblock, hrest⟩
  rcases Option.bind_eq_some_iff.mp hblock with ⟨e, henter, hops⟩
  rcases Option.bind_eq_some_iff.mp hrest with ⟨d, hexit, hrest⟩
  simp only [perform?, Option.ite_none_right_eq_some, Option.some.injEq] at henter hexit
  have houter : c.outer = b.all := by
    rw [hinner hops, ← henter.2]
    rfl
  have hd : d = b := by
    rcases c with ⟨current, outer⟩
    subst houter
    exact (Option.some.inj hexit.2).symm
  rw [← hd]
  exact hrest

/-- Between the beginning and the end of a block nothing happens to the blocks around it. -/
theorem outer_of_balanced {ops : List Scope.Operation} (hops : Scope.Balanced ops)
    (h : b.performAll? ops = some b') : b'.outer = b.outer := by
  induction hops generalizing b b' with
  | nil =>
      cases h
      rfl
  | declare name _ ih | hide name _ ih =>
      rcases Option.bind_eq_some_iff.mp h with ⟨c, ho, hrest⟩
      simp only [perform?, Option.ite_none_right_eq_some, Option.some.injEq] at ho
      rw [ih hrest, ← ho.2]
      rfl
  | settle _ ih =>
      rcases Option.bind_eq_some_iff.mp h with ⟨c, ho, hrest⟩
      rw [perform?, settle?.eq_def] at ho
      split at ho
      · cases ho
        rw [ih hrest]
      · cases ho
  | block _ _ ihinner ihrest => exact ihrest (performAll?_block ihinner h)

/-- Declarations that have their values stay below the ones that are added to the block. -/
theorem current_of_balanced {ops : List Scope.Operation} (hops : Scope.Balanced ops)
    {new old : List Declaration} (hold : forall d, d ∈ old -> d.settled = true)
    (hb : b.current = new ++ old) (h : b.performAll? ops = some b') :
    exists new', b'.current = new' ++ old := by
  induction hops generalizing b b' new with
  | nil =>
      cases h
      exact ⟨new, hb⟩
  | declare name _ ih | hide name _ ih =>
      rcases Option.bind_eq_some_iff.mp h with ⟨c, ho, hrest⟩
      simp only [perform?, Option.ite_none_right_eq_some, Option.some.injEq] at ho
      have hcurrent : exists d, c.current = d :: new ++ old := by
        rw [← ho.2, add, hb]
        exact ⟨_, rfl⟩
      rcases hcurrent with ⟨d, hd⟩
      exact ih hd hrest
  | settle _ ih =>
      rcases Option.bind_eq_some_iff.mp h with ⟨c, ho, hrest⟩
      rw [perform?, settle?.eq_def] at ho
      split at ho
      · rename_i name slot rest outer
        cases ho
        cases new with
        | nil =>
            have hwaiting := hold ⟨name, slot, false⟩ (by rw [← List.nil_append old, ← hb]; simp)
            cases hwaiting
        | cons d new =>
            injection hb with _ htail
            have hcurrent : ⟨name, slot, true⟩ :: rest = (⟨name, slot, true⟩ :: new) ++ old := by
              rw [htail]
              rfl
            exact ih hcurrent hrest
      · cases ho
  | block hinner _ _ ihrest =>
      exact ihrest hb (performAll?_block (fun hc => outer_of_balanced hinner hc) h)

/-- The blocks after operations that leave what they enter, with no local waiting for its value. -/
def Reaches (b b' : Blocks) : Prop :=
  exists ops, Scope.Balanced ops ∧ b.performAll? ops = some b' ∧ b'.Idle

theorem balanced_append {ops ops' : List Scope.Operation}
    (h : Scope.Balanced ops) (h' : Scope.Balanced ops') : Scope.Balanced (ops ++ ops') := by
  induction h with
  | nil => exact h'
  | declare name _ ih => exact .declare name ih
  | settle _ ih => exact .settle ih
  | hide name _ ih => exact .hide name ih
  | block hinner _ _ ih =>
      rw [List.append_assoc]
      exact .block hinner ih

namespace Reaches

theorem refl (hb : b.Idle) : b.Reaches b :=
  ⟨[], .nil, rfl, hb⟩

theorem trans {c : Blocks} (h : b.Reaches b') (h' : b'.Reaches c) : b.Reaches c := by
  rcases h with ⟨ops, hops, hb', -⟩
  rcases h' with ⟨ops', hops', hc, hidle⟩
  refine ⟨ops ++ ops', balanced_append hops hops', ?_, hidle⟩
  rw [performAll?_append, hb']
  exact hc

theorem sound (h : b.Reaches b') (hb : b.Sound) : b'.Sound := by
  rcases h with ⟨ops, -, hops, -⟩
  exact hb.performAll hops

theorem idle (h : b.Reaches b') : b'.Idle := by
  rcases h with ⟨ops, -, -, hidle⟩
  exact hidle

theorem outer (h : b.Reaches b') : b'.outer = b.outer := by
  rcases h with ⟨ops, hops, hb', -⟩
  exact outer_of_balanced hops hb'

theorem mem (h : b.Reaches b') (hidle : b.Idle) {d : Declaration} (hd : d ∈ b.declarations) :
    d ∈ b'.declarations := by
  have houter := h.outer
  rcases h with ⟨ops, hops, hb', -⟩
  have hsettled : forall d, d ∈ b.current -> d.settled = true :=
    fun d hd => hidle d (List.mem_append_left _ hd)
  have hempty : b.current = [] ++ b.current := rfl
  rcases current_of_balanced hops hsettled hempty hb' with ⟨new, hcurrent⟩
  rcases List.mem_append.mp hd with hd | hd
  · exact List.mem_append_left _ (by simp [hcurrent, hd])
  · exact List.mem_append_right _ (by rwa [houter])

end Reaches

theorem Idle.add (hb : b.Idle) (name : String) : (b.add name true).Idle := by
  intro d hd
  rcases List.mem_cons.mp hd with rfl | hd
  · rfl
  · exact hb d hd

theorem reaches_hide (hb : b.Idle) {name : String} (hname : name ∉ b.names) :
    b.Reaches (b.add name true) := by
  refine ⟨[.hide name], .hide name .nil, ?_, hb.add name⟩
  show (b.perform? (.hide name)).bind some = _
  rw [perform?, if_pos ⟨hb, hname⟩]
  rfl

/-- A local that is declared and then gets its value. -/
theorem reaches_declare (hb : b.Idle) {name : String} (hname : name ∉ b.names) :
    b.Reaches (b.add name true) := by
  refine ⟨[.declare name, .settle], .declare name (.settle .nil), ?_, hb.add name⟩
  show (b.perform? (.declare name)).bind _ = _
  rw [perform?, if_pos ⟨hb, hname⟩]
  rfl

end Steps
end Blocks

/-! ## What the reader does -/

namespace Parser

def perform : Scope.Operation -> Parser Unit
  | .enter => modifyScope Scope.enter
  | .declare name => declare name
  | .settle => modifyScope Scope.settle
  | .hide name => modifyScope fun s => s.hide name
  | .exit => discard exitScope

section Perform

open Blocks

variable {b b' : Blocks} {r : Reading}

theorem perform_flat (hb : b.Sound) {o : Scope.Operation} (h : b.perform? o = some b')
    (hr : r.scope = b.flat) : perform o r = .ok ((), { r with scope := b'.flat }) := by
  cases o with
  | enter =>
      simp only [perform?, Option.ite_none_right_eq_some, Option.some.injEq] at h
      rw [← h.2, perform, modifyScope, hr]
      rfl
  | declare name =>
      simp only [perform?, Option.ite_none_right_eq_some, Option.some.injEq] at h
      rw [← h.2, perform, declare, hr, declare?_flat hb, if_neg h.1.2]
  | settle =>
      rw [perform?, settle?.eq_def] at h
      split at h
      · cases h
        rw [perform, modifyScope, hr]
        rfl
      · cases h
  | hide name =>
      simp only [perform?, Option.ite_none_right_eq_some, Option.some.injEq] at h
      rw [← h.2, perform, modifyScope, hr]
      rfl
  | exit =>
      simp only [perform?, Option.ite_none_right_eq_some] at h
      rcases b with ⟨current, outer⟩
      cases outer with
      | nil => cases h.2
      | cons c outer =>
          cases h.2
          show Except.ok ((), { r with scope := r.scope.exit }) = _
          rw [hr, exit_flat hb rfl]

theorem performAll_flat (hb : b.Sound) {ops : List Scope.Operation}
    (h : b.performAll? ops = some b') (hr : r.scope = b.flat) :
    ops.forM perform r = .ok ((), { r with scope := b'.flat }) := by
  induction ops generalizing b r with
  | nil =>
      cases h
      rw [← hr]
      rfl
  | cons o ops ih =>
      rcases Option.bind_eq_some_iff.mp h with ⟨c, ho, hops⟩
      have hrest := ih (hb.perform ho) hops (r := { r with scope := c.flat }) rfl
      show (perform o >>= fun _ => ops.forM perform) r = _
      exact bind_eq_ok.mpr ⟨_, _, perform_flat hb ho hr, hrest⟩

/-- Declaring a name fails if the current block has it, and adds it otherwise. -/
theorem declare_flat (hb : b.Sound) (hr : r.scope = b.flat) (name : String) :
    declare name r =
      if name ∈ b.names then .error (.fault (.duplicateVariable name) r.previous.start)
      else .ok ((), { r with scope := (b.add name false).flat }) := by
  rw [declare, hr, declare?_flat hb]
  by_cases h : name ∈ b.names
  · rw [if_pos h, if_pos h]
  · rw [if_neg h, if_neg h]

/-- What resolving a name gives, and what it says of the blocks. -/
theorem resolve_cases (hb : b.Sound) (hr : r.scope = b.flat) (name : String) :
    (exists d, b.Innermost name d ∧ d.settled = true ∧
      resolve name r = .ok (.slot d.slot, r)) ∨
    (exists d, b.Innermost name d ∧ d.settled = false ∧
      resolve name r = .error (.fault (.unsettledVariable name) r.previous.start)) ∨
    ((forall d, d ∈ b.declarations -> d.name ≠ name) ∧
      resolve name r = .ok (.global name, r)) := by
  have hstep (f : Scope -> Parser Variable) : (scope >>= f) r = f b.flat r := by
    rw [← hr]
    rfl
  rcases resolve_flat hb name with ⟨d, hd, h⟩ | ⟨hnone, h⟩
  · cases hs : d.settled with
    | true =>
        rw [hs, if_pos rfl] at h
        refine Or.inl ⟨d, hd, hs, ?_⟩
        rw [resolve, hstep, h]
        rfl
    | false =>
        rw [hs, if_neg Bool.false_ne_true] at h
        refine Or.inr (Or.inl ⟨d, hd, hs, ?_⟩)
        rw [resolve, hstep, h]
        rfl
  · refine Or.inr (Or.inr ⟨hnone, ?_⟩)
    rw [resolve, hstep, h]
    rfl

end Perform
end Parser
end StackScript
