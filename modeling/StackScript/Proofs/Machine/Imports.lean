import StackScript.Files.Observed
import StackScript.Interpreter
import StackScript.Proofs.Heap.Operation
import StackScript.Proofs.Machine.Turns

/-!
# Imports happen once

A `use` looks for its path in the list of what has been imported, and puts it there before it
reads the script.  So however deep imports are nested, and whether they succeed, fail or are
given up, a path that was imported stays in the list, and a later `use` of it does nothing.
-/

namespace StackScript

/-! ## The list of imports -/

namespace Machine

def Lists (m : Machine) (path : String) : Prop :=
  exists id, m.globals[Import.importsName]? = some (.array id) ∧
    Value.text path ∈ m.heap.items id

/-- The array that the global with the list holds is an object of the heap. -/
def Stores (m : Machine) : Prop :=
  forall id, m.globals[Import.importsName]? = some (.array id) -> id < m.heap.arrays.size

/-- The global with the list holds what it held, and if that is an array then it has the same
items. -/
structure SameImports (m m' : Machine) : Prop where
  global : m'.globals[Import.importsName]? = m.globals[Import.importsName]?
  items : forall id, m.globals[Import.importsName]? = some (.array id) ->
    m'.heap.arrays[id]? = m.heap.arrays[id]?

/-- The list has only got longer. -/
structure Lengthens (m m' : Machine) : Prop where
  stores : m.Stores -> m'.Stores
  lists : m.Stores -> forall path, m.Lists path -> m'.Lists path

section Lists

variable {m m' m'' : Machine} {path : String}

theorem Lengthens.trans (h : m.Lengthens m') (h' : m'.Lengthens m'') : m.Lengthens m'' where
  stores := fun hm => h'.stores (h.stores hm)
  lists := fun hm path hlists => h'.lists (h.stores hm) path (h.lists hm path hlists)

theorem items_of_getElem? {h h' : Heap} {id : Nat} (harray : h'.arrays[id]? = h.arrays[id]?) :
    h'.items id = h.items id := by
  rw [Heap.items, Heap.items, Array.getD_eq_getD_getElem?, Array.getD_eq_getD_getElem?, harray]

theorem SameImports.lengthens (h : m.SameImports m') : m.Lengthens m' where
  stores := by
    intro hm id hid
    rw [h.global] at hid
    have hlt : id < m.heap.arrays.size := hm id hid
    have harray := h.items id hid
    rw [Array.getElem?_eq_getElem hlt] at harray
    exact (Array.getElem?_eq_some_iff.mp harray).1
  lists := by
    rintro - path ⟨id, hid, hmem⟩
    refine ⟨id, by rw [h.global, hid], ?_⟩
    rw [items_of_getElem? (h.items id hid)]
    exact hmem

theorem lengthens_of_eq (hglobals : m'.globals = m.globals)
    (harrays : m'.heap.arrays = m.heap.arrays) : m.Lengthens m' := by
  have hsame : m.SameImports m' := ⟨by rw [hglobals], fun _ _ => by rw [harrays]⟩
  exact hsame.lengthens

theorem isListed_iff {id : Nat} (hid : m.globals[Import.importsName]? = some (.array id)) :
    Import.isListed m.heap (.array id) path = true ↔ m.Lists path := by
  have htext (v : Value) : Import.text? v = some path ↔ v = .text path := by
    cases v <;> simp [Import.text?]
  have hlisted : Import.isListed m.heap (.array id) path = true ↔
      Value.text path ∈ m.heap.items id := by
    simp [Import.isListed, Import.texts, htext]
  rw [hlisted]
  constructor
  · exact fun hmem => ⟨id, hid, hmem⟩
  · rintro ⟨id', hid', hmem⟩
    rw [hid] at hid'
    cases hid'
    exact hmem

end Lists
end Machine

/-! ## What a `use` does to the list -/

namespace Exec

def runScript (path : String) : Exec Unit := do
  let id ← compileScript path (← readScript path)
  push (.function id)
  enter id 0

/-- What a `use` does with a path and the list that it has looked up. -/
def importFrom (path : String) (imports : Value) : Exec Unit := do
  if Import.isListed (← get).heap imports path then
    push .none
  else
    let _ ← perform fun h => h.push imports (.text path)
    runScript path

/-- The machine after a piece, whether it was completed or failed. -/
def left {α : Type} : EStateM.Result Raised Machine α -> Machine
  | .ok _ m => m
  | .error _ m => m

/-- A piece that only looks at the machine. -/
def Reads {α : Type} (x : Exec α) : Prop :=
  forall m, left (x m) = m

/-- A piece that only makes the list longer. -/
def Lengthens {α : Type} (x : Exec α) : Prop :=
  forall m : Machine, m.Lengthens (left (x m))

section Pieces

variable {α β : Type} {x : Exec α} {g : α -> Exec β} {m m' : Machine}

/-- What two pieces both keep of a machine, one after the other they keep. -/
theorem left_bind_of {R : Machine -> Machine -> Prop}
    (htrans : forall {m m' m''}, R m m' -> R m' m'' -> R m m'')
    (hx : forall m, R m (left (x m))) (hg : forall v m, R m (left (g v m))) (m : Machine) :
    R m (left ((x >>= g) m)) := by
  have hxm := hx m
  cases hr : x m with
  | ok v m' =>
      rw [hr] at hxm
      rw [bind_ok hr]
      exact htrans hxm (hg v m')
  | error e m' =>
      rw [hr] at hxm
      rw [bind_error hr]
      exact hxm

theorem reads_get : Reads get := fun _ => rfl

theorem reads_fail {f : Fault} : Reads (fail f : Exec α) := fun _ => rfl

theorem reads_locate {target : String} : Reads (locate target) := by
  intro m
  unfold locate
  rw [bind_ok get_apply]
  cases Import.resolve m.files (m.candidates target) <;> rfl

theorem reads_readScript {path : String} : Reads (readScript path) := by
  intro m
  unfold readScript
  rw [bind_ok get_apply]
  cases m.files.read path <;> rfl

theorem Lengthens.bind (hx : Lengthens x) (hg : forall v, Lengthens (g v)) :
    Lengthens (x >>= g) :=
  left_bind_of (R := Machine.Lengthens) Machine.Lengthens.trans hx hg

theorem Lengthens.of_ok {v : α} (hx : Lengthens x) (hok : x m = .ok v m') : m.Lengthens m' := by
  have hxm := hx m
  rwa [hok] at hxm

theorem Reads.lengthens (hx : Reads x) : Lengthens x := by
  intro m
  rw [hx m]
  exact Machine.lengthens_of_eq rfl rfl

theorem lengthens_push {v : Value} : Lengthens (push v) :=
  fun _ => Machine.lengthens_of_eq rfl rfl

theorem lengthens_compileScript {path source : String} :
    Lengthens (compileScript path source) := by
  intro m
  cases hc : m.heap.compile (some path) source with
  | error e =>
      rw [compileScript_rejected hc]
      exact Machine.lengthens_of_eq rfl rfl
  | ok found =>
      rcases found with ⟨id, h⟩
      rw [compileScript_apply hc]
      rcases Heap.compile_eq_ok hc with ⟨p, -, -, rfl⟩
      exact Machine.lengthens_of_eq rfl rfl

theorem lengthens_enter {id count : Nat} : Lengthens (enter id count) := by
  intro m
  by_cases harity : (m.heap.function id).arity = count
  · by_cases hfull : Full m
    · rw [enter_full harity hfull]
      exact Machine.lengthens_of_eq rfl rfl
    · rw [enter_apply harity hfull]
      exact Machine.lengthens_of_eq rfl rfl
  · rw [enter_wrongArity harity]
    exact Machine.lengthens_of_eq rfl rfl

theorem importList_array {id : Nat}
    (hid : m.globals[Import.importsName]? = some (.array id)) :
    importList m = .ok (.array id) m := by
  unfold importList
  rw [bind_ok get_apply, hid]
  rfl

def withList (m : Machine) : Machine :=
  { m with
    heap := (m.heap.newArray #[]).2
    globals := m.globals.insert Import.importsName (.array m.heap.arrays.size) }

theorem importList_new
    (hnone : forall id, m.globals[Import.importsName]? ≠ some (.array id)) :
    importList m = .ok (.array m.heap.arrays.size) (withList m) := by
  unfold importList
  rw [bind_ok get_apply]
  cases hglobal : m.globals[Import.importsName]? with
  | none => rfl
  | some v =>
      cases v with
      | array id => exact absurd hglobal (hnone id)
      | _ => rfl

theorem global_withList :
    (withList m).globals[Import.importsName]? = some (.array m.heap.arrays.size) :=
  Table.getElem?_insert_self

/-- Where the global holds no array there is no list that could get shorter. -/
theorem lengthens_withList
    (hnone : forall id, m.globals[Import.importsName]? ≠ some (.array id)) :
    m.Lengthens (withList m) where
  stores := by
    rintro - id hid
    rw [global_withList] at hid
    cases hid
    show m.heap.arrays.size < (m.heap.arrays.push #[]).size
    rw [Array.size_push]
    exact Nat.lt_succ_self _
  lists := by
    rintro - path ⟨id, hid, -⟩
    exact absurd hid (hnone id)

/-- The list that is looked up is the one that the global holds then. -/
theorem importList_ok (m : Machine) :
    exists id m', importList m = .ok (.array id) m' ∧
      m'.globals[Import.importsName]? = some (.array id) ∧ m.Lengthens m' := by
  by_cases harray : exists id, m.globals[Import.importsName]? = some (.array id)
  · rcases harray with ⟨id, hid⟩
    exact ⟨id, m, importList_array hid, hid, Machine.lengthens_of_eq rfl rfl⟩
  · have hnone : forall id, m.globals[Import.importsName]? ≠ some (.array id) :=
      fun id hid => harray ⟨id, hid⟩
    exact ⟨_, _, importList_new hnone, global_withList, lengthens_withList hnone⟩

theorem append_apply {id : Nat} {v : Value} : perform (fun h => h.push (.array id) v) m =
    .ok v { m with heap := m.heap.setItems id ((m.heap.items id).push v) } :=
  perform_ok rfl

/-- A new item goes behind the others. -/
theorem lengthens_append {array v : Value} : Lengthens (perform fun h => h.push array v) := by
  intro m
  cases array with
  | array id =>
      rw [append_apply]
      constructor
      · intro hm id' hid'
        show id' < (m.heap.arrays.setIfInBounds id _).size
        rw [Array.size_setIfInBounds]
        exact hm id' hid'
      · rintro hm path ⟨id', hid', hmem⟩
        refine ⟨id', hid', ?_⟩
        show Value.text path ∈ (m.heap.setItems id ((m.heap.items id).push v)).items id'
        by_cases heq : id = id'
        · subst heq
          rw [Heap.items_setItems (hm id hid')]
          exact Array.mem_push_of_mem v hmem
        · rw [Heap.items_setItems_ne heq]
          exact hmem
  | _ => exact Machine.lengthens_of_eq rfl rfl

/-- The list holds a path that was put there. -/
theorem lists_append {id : Nat} {path : String} {v : Value} (hm : m.Stores)
    (hid : m.globals[Import.importsName]? = some (.array id))
    (hok : perform (fun h => h.push (.array id) (.text path)) m = .ok v m') : m'.Lists path := by
  rw [append_apply] at hok
  cases hok
  refine ⟨id, hid, ?_⟩
  show Value.text path ∈ (m.heap.setItems id ((m.heap.items id).push _)).items id
  rw [Heap.items_setItems (hm id hid)]
  exact Array.mem_push_self

theorem lengthens_pop : Lengthens pop := by
  intro m
  unfold pop
  rw [bind_ok get_apply]
  cases m.stack.back? <;> exact Machine.lengthens_of_eq rfl rfl

/-- Looking for the list changes nothing or brings in a new list. -/
theorem importList_leaves {imports : Value} (h : importList m = .ok imports m') :
    m' = m ∨ m' = withList m := by
  by_cases harray : exists id, m.globals[Import.importsName]? = some (.array id)
  · rcases harray with ⟨id, hid⟩
    rw [importList_array hid] at h
    cases h
    exact Or.inl rfl
  · rw [importList_new fun id hid => harray ⟨id, hid⟩] at h
    cases h
    exact Or.inr rfl

theorem lengthens_importList : Lengthens importList := by
  intro m
  rcases importList_ok m with ⟨id, m', hok, -, hlonger⟩
  rw [hok]
  exact hlonger

theorem lengthens_runScript {path : String} : Lengthens (runScript path) := by
  refine reads_readScript.lengthens.bind fun source => ?_
  refine lengthens_compileScript.bind fun id => ?_
  exact lengthens_push.bind fun _ => lengthens_enter

theorem lengthens_use : Lengthens use := by
  refine lengthens_pop.bind fun v => ?_
  cases v with
  | text target =>
      refine reads_locate.lengthens.bind fun path => ?_
      refine lengthens_importList.bind fun imports => ?_
      refine reads_get.lengthens.bind fun m => ?_
      split
      · exact lengthens_push
      · exact lengthens_append.bind fun _ => lengthens_runScript
  | _ => exact reads_fail.lengthens

end Pieces

/-! ## A `use` of a path -/

section Use

variable {m m' : Machine} {s : Array Value} {target path : String}

theorem locate_apply (h : Import.resolve m.files (m.candidates target) = .ok path) :
    locate target m = .ok path m := by
  unfold locate
  rw [bind_ok get_apply, h]
  rfl

theorem locate_missing {tried : List String}
    (h : Import.resolve m.files (m.candidates target) = .error tried) :
    locate target m = .error (.fault (.importNotFound target tried)) m := by
  unfold locate
  rw [bind_ok get_apply, h]
  rfl

theorem use_apply {imports : Value} (hs : m.stack = s.push (.text target))
    (hpath : Import.resolve m.files (m.candidates target) = .ok path)
    (himports : importList { m with stack := s } = .ok imports m') :
    use m = importFrom path imports m' := by
  have hlocate : locate target { m with stack := s } = .ok path { m with stack := s } :=
    locate_apply hpath
  unfold use
  rw [bind_ok (pop_apply hs)]
  exact (bind_ok hlocate).trans (bind_ok himports)

/-- A path that is in the list gives nothing, and nothing else happens. -/
theorem use_listed (hs : m.stack = s.push (.text target))
    (hpath : Import.resolve m.files (m.candidates target) = .ok path) (hlists : m.Lists path) :
    use m = .ok () { m with stack := s.push .none } := by
  rcases hlists with ⟨id, hid, hmem⟩
  have hlisted : Import.isListed m.heap (.array id) path = true :=
    (Machine.isListed_iff hid).mpr ⟨id, hid, hmem⟩
  rw [use_apply hs hpath (importList_array hid)]
  unfold importFrom
  rw [bind_ok get_apply, if_pos hlisted]
  rfl

/-- Whoever opens a call with a script has compiled it under its path. -/
theorem runScript_ok (hok : runScript path m = .ok () m') :
    exists f, m'.frames = f :: m.frames ∧ (m'.heap.function f.function).script = some path := by
  rcases of_bind_ok hok with ⟨source, m1, hread, hok1⟩
  rcases of_bind_ok hok1 with ⟨id, m2, hcompile, hok2⟩
  rcases of_bind_ok hok2 with ⟨_, m3, hpush, henter⟩
  cases hpush
  rw [enter_ok henter]
  rcases of_compileScript_ok hcompile with ⟨h, hc, rfl⟩
  rcases of_readScript_ok hread with ⟨-, rfl⟩
  exact ⟨_, rfl, Heap.script_of_compile hc⟩

/-- A `use` that is completed has found its path. -/
theorem of_use_ok (hok : use m = .ok () m') : exists (s : Array Value) (target path : String),
    m.stack = s.push (.text target) ∧
      Import.resolve m.files (m.candidates target) = .ok path := by
  rcases of_bind_ok hok with ⟨v, m1, hpop, hok1⟩
  rcases of_pop_ok hpop with ⟨s, hs, rfl⟩
  cases v with
  | text target =>
      rcases of_bind_ok hok1 with ⟨path, m2, hlocate, -⟩
      refine ⟨s, target, path, hs, ?_⟩
      cases hpath : Import.resolve m.files (m.candidates target) with
      | ok path' =>
          have hfound : locate target { m with stack := s } = .ok path' { m with stack := s } :=
            locate_apply hpath
          rw [hfound] at hlocate
          cases hlocate
          rfl
      | error tried =>
          have hmissing : locate target { m with stack := s } =
              .error (.fault (.importNotFound target tried)) { m with stack := s } :=
            locate_missing hpath
          rw [hmissing] at hlocate
          cases hlocate
  | _ => cases hok1

/-- A path that opens a call was not in the list and is in it then. -/
theorem use_opens (hs : m.stack = s.push (.text target))
    (hpath : Import.resolve m.files (m.candidates target) = .ok path)
    (hok : use m = .ok () m') (hframes : m.frames.length < m'.frames.length) (hm : m.Stores) :
    ¬ m.Lists path ∧ m'.Lists path ∧
      exists f, m'.frames = f :: m.frames ∧ (m'.heap.function f.function).script = some path := by
  have hnew : ¬ m.Lists path := by
    intro hlists
    rw [use_listed hs hpath hlists] at hok
    cases hok
    exact absurd hframes (Nat.lt_irrefl _)
  rcases importList_ok { m with stack := s } with ⟨id, m2, himports, hid, hlonger⟩
  rw [use_apply hs hpath himports] at hok
  have hframes2 : m2.frames = m.frames := by
    rcases importList_leaves himports with rfl | rfl <;> rfl
  unfold importFrom at hok
  rw [bind_ok get_apply] at hok
  split at hok
  · cases hok
    exact absurd hframes (by rw [hframes2]; exact Nat.lt_irrefl _)
  · rcases of_bind_ok hok with ⟨v, m3, happend, hrun⟩
    have hlists : m3.Lists path := lists_append (hlonger.stores hm) hid happend
    rcases runScript_ok hrun with ⟨f, hf, hscript⟩
    have hframes3 : m3.frames = m2.frames := by
      rw [append_apply] at happend
      cases happend
      rfl
    have hstores3 : m3.Stores := (lengthens_append.of_ok happend).stores (hlonger.stores hm)
    refine ⟨hnew, (lengthens_runScript.of_ok hrun).lists hstores3 path hlists, f, ?_, hscript⟩
    rw [hf, hframes3, hframes2]

end Use
end Exec

/-! ## Turns that import -/

namespace Machine

def Uses (m : Machine) : Prop :=
  m.frames.head?.bind m.fetch? = some .use

/-- The path for which the next turn opens a call, if it is a `use` that does so. -/
def importing? (m : Machine) : Option String :=
  match m.pendingImport? with
  | none => none
  | some target =>
    match Import.resolve m.files (m.candidates target) with
    | .error _ => none
    | .ok path => if m.frames.length < m.tick.2.frames.length then some path else none

section Turns

variable {m : Machine} {target path : String}

theorem of_uses (h : m.Uses) :
    exists f rest, m.frames = f :: rest ∧ m.fetch? f = some .use := by
  unfold Uses at h
  cases hf : m.frames with
  | nil =>
      rw [hf] at h
      cases h
  | cons f rest =>
      rw [hf] at h
      exact ⟨f, rest, rfl, h⟩

theorem of_pendingImport? (h : m.pendingImport? = some target) :
    m.Uses ∧ exists s : Array Value, m.stack = s.push (.text target) := by
  unfold pendingImport? at h
  split at h
  · rename_i t huse htop
    cases h
    refine ⟨huse, ?_⟩
    rcases Nat.eq_zero_or_pos m.stack.size with hzero | hpos
    · rw [Array.eq_empty_of_size_eq_zero hzero] at htop
      cases htop
    · rcases Array.exists_push_of_size_pos hpos with ⟨s, v, hs⟩
      rw [hs, Array.back?_push] at htop
      cases htop
      exact ⟨s, hs⟩
  · cases h

theorem candidates_advance (m : Machine) (target : String) :
    m.advance.candidates target = m.candidates target := by
  cases hf : m.frames with
  | nil => rw [advance_idle hf]
  | cons f rest =>
      rw [advance_apply hf]
      simp only [candidates, scriptParent?, hf, List.findSome?_cons]

theorem lists_advance : m.advance.Lists path ↔ m.Lists path := by
  unfold Lists
  rw [advance_globals, advance_heap]

theorem stores_advance : m.advance.Stores ↔ m.Stores := by
  unfold Stores
  rw [advance_globals, advance_heap]

theorem lengthens_unwind (m : Machine) (thrown : Value) :
    m.Lengthens (m.unwind thrown).2 := by
  unfold unwind
  split <;> exact lengthens_of_eq rfl rfl

theorem length_unwind (m : Machine) (thrown : Value) :
    (m.unwind thrown).2.frames.length <= m.frames.length := by
  unfold unwind
  split
  · rename_i f r rest hhandler
    rcases of_handler?_some hhandler with ⟨above, hsplit, -, -⟩
    rw [hsplit, List.length_append]
    exact Nat.le_add_left _ _
  · exact Nat.zero_le _

/-- However a `use` ends, the list has only got longer. -/
theorem Uses.lengthens (h : m.Uses) : m.Lengthens m.tick.2 := by
  rcases of_uses h with ⟨f, rest, hf, hi⟩
  have hadvance : m.Lengthens m.advance :=
    lengthens_of_eq (advance_globals m) (by rw [advance_heap])
  have huse := hadvance.trans (Exec.lengthens_use m.advance)
  cases hstep : Exec.use m.advance with
  | ok u m' =>
      rw [hstep] at huse
      rw [tick_of_ok hf hi hstep]
      exact huse
  | error e m' =>
      rw [hstep] at huse
      rw [tick_of_error hf hi hstep]
      exact huse.trans (lengthens_unwind m' _)

/-- A `use` of a path that is in the list gives nothing and does nothing else. -/
theorem tick_listed (h : m.pendingImport? = some target)
    (hpath : Import.resolve m.files (m.candidates target) = .ok path) (hlists : m.Lists path) :
    m.tick = (.running, { m.advance with stack := m.stack.pop.push .none }) := by
  rcases of_pendingImport? h with ⟨huses, s, hs⟩
  rcases of_uses huses with ⟨f, rest, hf, hi⟩
  have hs' : m.advance.stack = s.push (.text target) := by rw [advance_stack, hs]
  have hpath' : Import.resolve m.advance.files (m.advance.candidates target) = .ok path := by
    rw [advance_files, candidates_advance, hpath]
  rw [tick_of_ok hf hi (Exec.use_listed hs' hpath' (lists_advance.mpr hlists)), hs,
    Array.pop_push]

/-- A turn that imports a path opens a call of the script there.  The path was not in the list
before and is in it afterwards. -/
theorem of_importing? (h : m.importing? = some path) (hm : m.Stores) :
    m.Uses ∧ ¬ m.Lists path ∧ m.tick.2.Lists path ∧
      exists f, m.tick.2.frames = f :: m.advance.frames ∧
        (m.tick.2.heap.function f.function).script = some path := by
  unfold importing? at h
  split at h
  · cases h
  · rename_i target hpending
    split at h
    · cases h
    · rename_i path' hpath
      split at h
      · rename_i hlonger
        cases h
        rcases of_pendingImport? hpending with ⟨huses, s, hs⟩
        rcases of_uses huses with ⟨f, rest, hf, hi⟩
        have hs' : m.advance.stack = s.push (.text target) := by rw [advance_stack, hs]
        have hpath' : Import.resolve m.advance.files (m.advance.candidates target) = .ok path := by
          rw [advance_files, candidates_advance, hpath]
        cases hstep : Exec.use m.advance with
        | error e m' =>
            -- A call that is given up on the way to a handler is not a new one.
            have hsame := frames_of_failed (i := .use) hf hstep
            have hfewer := length_unwind m' e.toValue
            rw [tick_of_error hf hi hstep] at hlonger
            rw [hsame, length_advance] at hfewer
            exact absurd hlonger (Nat.not_lt.mpr hfewer)
        | ok u m' =>
            rw [tick_of_ok hf hi hstep] at hlonger ⊢
            rw [← length_advance] at hlonger
            rcases Exec.use_opens hs' hpath' hstep hlonger (stores_advance.mpr hm) with
              ⟨hnew, hlists, hopens⟩
            exact ⟨huses, fun hold => hnew (lists_advance.mpr hold), hlists, hopens⟩
      · cases h

/-- Every call that a `use` opens is opened for a path. -/
theorem Uses.importing? (h : m.Uses) (hlonger : m.frames.length < m.tick.2.frames.length) :
    exists path, m.importing? = some path := by
  rcases of_uses h with ⟨f, rest, hf, hi⟩
  cases hstep : Exec.use m.advance with
  | error e m' =>
      have hfewer := length_unwind m' e.toValue
      rw [frames_of_failed (i := .use) hf hstep, length_advance] at hfewer
      rw [tick_of_error hf hi hstep] at hlonger
      exact absurd hlonger (Nat.not_lt.mpr hfewer)
  | ok u m' =>
      rcases Exec.of_use_ok hstep with ⟨s, target, path, hs, hpath⟩
      rw [advance_files, candidates_advance] at hpath
      rw [advance_stack] at hs
      have hpending : m.pendingImport? = some target := by
        unfold pendingImport?
        rw [show m.frames.head?.bind m.fetch? = some .use from h, hs, Array.back?_push]
      refine ⟨path, ?_⟩
      unfold Machine.importing?
      simp only [hpending, hpath]
      rw [if_pos hlonger]

end Turns

/-! ## Histories -/

/-- A machine after turns and what has happened between them: scripts that were loaded, and
whatever else the host does.  The turns are listed with the machines that they began with.  Only
a `use` touches the list of imports. -/
inductive History (m : Machine) : List Machine -> Machine -> Prop where
  | start : History m [] m
  | turn {turns : List Machine} {m' : Machine} : History m turns m' ->
      m'.Uses ∨ m'.SameImports m'.tick.2 -> History m (turns ++ [m']) m'.tick.2
  | load {turns : List Machine} {m' m'' : Machine} {script : Option String} {source : String}
      {listing : Bool} : History m turns m' ->
      Interpreter.load m' script source listing = .ok m'' -> History m turns m''
  | host {turns : List Machine} {m' m'' : Machine} : History m turns m' ->
      m'.SameImports m'' -> History m turns m''

theorem lengthens_load {m m' : Machine} {script : Option String} {source : String}
    {listing : Bool} (hload : Interpreter.load m script source listing = .ok m') :
    m.Lengthens m' := by
  rcases Interpreter.load_ok hload with ⟨id, h, output, hc, rfl⟩
  rcases Heap.compile_eq_ok hc with ⟨p, -, -, rfl⟩
  exact lengthens_of_eq rfl rfl

theorem History.lengthens {m m' : Machine} {turns : List Machine} (h : m.History turns m') :
    m.Lengthens m' := by
  induction h with
  | start => exact lengthens_of_eq rfl rfl
  | turn _ hturn ih =>
      rcases hturn with huses | hsame
      · exact ih.trans huses.lengthens
      · exact ih.trans hsame.lengthens
  | load _ hload ih => exact ih.trans (lengthens_load hload)
  | host _ hsame ih => exact ih.trans hsame.lengthens

/-- What has been imported is in the list. -/
theorem History.lists {m m' : Machine} {turns : List Machine} (h : m.History turns m')
    (hm : m.Stores) : forall path, path ∈ turns.filterMap importing? -> m'.Lists path := by
  induction h with
  | start => exact nofun
  | @turn turns m' hbefore hturn ih =>
      intro path hpath
      have hstores := hbefore.lengthens.stores hm
      rw [List.filterMap_append, List.mem_append] at hpath
      rcases hpath with hold | hnew
      · rcases hturn with huses | hsame
        · exact huses.lengthens.lists hstores path (ih path hold)
        · exact hsame.lengthens.lists hstores path (ih path hold)
      · have himporting : m'.importing? = some path := by simpa using hnew
        exact (of_importing? himporting hstores).2.2.1
  | load hbefore hload ih =>
      intro path hpath
      exact (lengthens_load hload).lists (hbefore.lengthens.stores hm) path (ih path hpath)
  | host hbefore hsame ih =>
      intro path hpath
      exact hsame.lengthens.lists (hbefore.lengthens.stores hm) path (ih path hpath)

theorem History.nodup {m m' : Machine} {turns : List Machine} (h : m.History turns m')
    (hm : m.Stores) : (turns.filterMap importing?).Nodup := by
  induction h with
  | start => exact .nil
  | @turn turns m' hbefore hturn ih =>
      cases himporting : m'.importing? with
      | none => simpa [List.filterMap_append, himporting] using ih
      | some path =>
          have hnew := (of_importing? himporting (hbefore.lengthens.stores hm)).2.1
          have hfresh : path ∉ turns.filterMap importing? :=
            fun hold => hnew (hbefore.lists hm path hold)
          rw [List.filterMap_append, List.filterMap_cons_some himporting]
          refine List.nodup_append.mpr ⟨ih, by simp, ?_⟩
          rintro p hp q hq rfl
          rw [List.mem_singleton.mp hq] at hp
          exact hfresh hp
  | load _ _ ih => exact ih
  | host _ _ ih => exact ih

theorem History.stores {m m' : Machine} {turns : List Machine} (h : m.History turns m')
    (hm : m.Stores) : forall t, t ∈ turns -> t.Stores := by
  induction h with
  | start => exact nofun
  | turn hbefore _ ih =>
      intro t ht
      rcases List.mem_append.mp ht with hold | hnew
      · exact ih t hold
      · rw [List.mem_singleton.mp hnew]
        exact hbefore.lengthens.stores hm
  | load _ _ ih => exact ih
  | host _ _ ih => exact ih

/-- As long as nothing else touches the list of imports, no path is imported twice: the paths for
which a `use` has opened a call are all different.  Every call that a `use` opens is one of them
and runs the script at its path, and a `use` that finds a path in the list gives nothing and
changes nothing else but the index of the next instruction. -/
theorem imports_happen_once {m m' : Machine} {turns : List Machine} (hm : m.Stores)
    (h : m.History turns m') :
    (turns.filterMap importing?).Nodup ∧
    (forall t, t ∈ turns -> t.Uses -> t.frames.length < t.tick.2.frames.length ->
      exists path f, t.importing? = some path ∧ t.tick.2.frames = f :: t.advance.frames ∧
        (t.tick.2.heap.function f.function).script = some path) ∧
    forall t target path, t ∈ turns -> t.pendingImport? = some target ->
      Import.resolve t.files (t.candidates target) = .ok path -> t.Lists path ->
        t.tick = (.running, { t.advance with stack := t.stack.pop.push .none }) := by
  refine ⟨h.nodup hm, ?_, ?_⟩
  · intro t ht huses hlonger
    rcases huses.importing? hlonger with ⟨path, hpath⟩
    rcases of_importing? hpath (h.stores hm t ht) with ⟨-, -, -, f, hframes, hscript⟩
    exact ⟨path, f, hpath, hframes, hscript⟩
  · intro t target path _ hpending hpath hlists
    exact tick_listed hpending hpath hlists

/-! ## A script that imports itself -/

def turns : Nat -> Machine -> List Machine
  | 0, _ => []
  | n + 1, m => m :: turns n m.tick.2

def later : Nat -> Machine -> Machine
  | 0, m => m
  | n + 1, m => later n m.tick.2

theorem History.append {m m' : Machine} {ts : List Machine} (h : m.History ts m') (n : Nat)
    (hturns : forall t, t ∈ turns n m' -> t.Uses ∨ t.SameImports t.tick.2) :
    m.History (ts ++ turns n m') (later n m') := by
  induction n generalizing ts m' with
  | zero => simpa [turns, later] using h
  | succ n ih =>
      have hfirst := h.turn (hturns m' List.mem_cons_self)
      have hrest := ih hfirst fun t ht => hturns t (List.mem_cons_of_mem _ ht)
      rwa [List.append_assoc] at hrest

instance (m : Machine) : Decidable m.Uses :=
  inferInstanceAs (Decidable (_ = _))

/-- The number of the array with the list. -/
def listId? (m : Machine) : Option Nat :=
  match m.globals[Import.importsName]? with
  | some (.array id) => some id
  | _ => none

theorem listId?_eq_some {m : Machine} {id : Nat} :
    m.listId? = some id ↔ m.globals[Import.importsName]? = some (.array id) := by
  unfold listId?
  split <;> simp_all

instance (m m' : Machine) : Decidable (m.SameImports m') :=
  decidable_of_iff
    (m'.globals[Import.importsName]? = m.globals[Import.importsName]? ∧
      forall id, id ∈ m.listId? -> m'.heap.arrays[id]? = m.heap.arrays[id]?)
    ⟨fun h => ⟨h.1, fun id hid => h.2 id (listId?_eq_some.mpr hid)⟩,
      fun h => ⟨h.global, fun id hid => h.items id (listId?_eq_some.mp hid)⟩⟩

/-- A file that is found under three spellings and imports itself. -/
def selfImport : Files :=
  Observed.files
    { places := [("./a.hm", "/a.hm"), ("././a.hm", "/a.hm"), ("//a.hm", "/a.hm")]
      texts := [("/a.hm", .ok "use \"a\"")] }

def selfImporter : Machine :=
  (Interpreter.new {} selfImport).machine

/-- Behind loading a script that imports the file under two of its names. -/
def selfImporting : Machine :=
  (Interpreter.load selfImporter none "use \"a\" use \"./a\"" false).toOption.getD default

/-- The script imports the file, the file finds itself in the list, and so does the script when it
comes to the second name. -/
theorem selfImport_happens_once :
    selfImporter.Stores ∧ selfImporter.History (turns 13 selfImporting) (later 13 selfImporting) ∧
      (turns 13 selfImporting).filterMap importing? = ["/a.hm"] ∧
      ((turns 13 selfImporting).filter fun t => decide t.Uses).length = 3 ∧
      ((turns 13 selfImporting).filterMap importing?).Nodup := by
  have hstores : selfImporter.Stores := by
    intro id hid
    have hlist : selfImporter.globals[Import.importsName]? = some (.array 1) := by
      decide +kernel
    rw [hlist] at hid
    cases hid
    decide +kernel
  have hload : Interpreter.load selfImporter none "use \"a\" use \"./a\"" false =
      .ok selfImporting := by
    have hok : (Interpreter.load selfImporter none "use \"a\" use \"./a\"" false).isOk = true := by
      decide +kernel
    rcases exists_of_isOk hok with ⟨m, hm⟩
    rw [selfImporting, hm]
    rfl
  have hhistory : selfImporter.History (turns 13 selfImporting) (later 13 selfImporting) := by
    have hloaded : selfImporter.History [] selfImporting := .load .start hload
    exact hloaded.append 13 (by decide +kernel)
  exact ⟨hstores, hhistory, by decide +kernel, by decide +kernel,
    (imports_happen_once hstores hhistory).1⟩

end Machine
end StackScript
