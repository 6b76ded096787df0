import StackScript.Proofs.Machine.Imports

/-!
# Imports that fail

A `use` puts its path in the list of imports before it reads the script, and nothing takes it
out again.  So a `use` that throws has left the list alone only where it has found no file.
Where it fails later on, because the file cannot be read, does not compile or finds no room for
a call, the import counts as done: the next `use` of the path does nothing and says nothing.
-/

namespace StackScript
namespace Machine

/-! ## The contents of the list -/

/-- The items of the list of imports; none where the global holds no array. -/
def imported (m : Machine) : Array Value :=
  match m.listId? with
  | some id => m.heap.items id
  | none => #[]

/-- The path of the script that the topmost value names, if there is one. -/
def located? (m : Machine) : Option String :=
  match m.stack.back? with
  | some (.text target) => (Import.resolve m.files (m.candidates target)).toOption
  | _ => none

/-- Why an import fails that has found its path. -/
inductive FailsBehind (path : String) : Raised -> Prop where
  | unreadable (reason : String) : FailsBehind path (.fault (.importUnreadable path reason))
  | rejected (report : String) : FailsBehind path (.fault (.importRejected report))
  | overflow : FailsBehind path (.fault .stackOverflow)

section Contents

variable {m m' m'' : Machine} {path : String}

theorem imported_of_global {id : Nat}
    (hid : m.globals[Import.importsName]? = some (.array id)) :
    m.imported = m.heap.items id := by
  rw [imported, listId?_eq_some.mpr hid]

theorem listId?_eq_none (hnone : forall id, m.globals[Import.importsName]? ≠ some (.array id)) :
    m.listId? = none := by
  cases hid : m.listId? with
  | none => rfl
  | some id => exact absurd (listId?_eq_some.mp hid) (hnone id)

theorem SameImports.refl (m : Machine) : m.SameImports m :=
  ⟨rfl, fun _ _ => rfl⟩

theorem SameImports.trans (h : m.SameImports m') (h' : m'.SameImports m'') :
    m.SameImports m'' where
  global := h'.global.trans h.global
  items := fun id hid => (h'.items id (h.global.trans hid)).trans (h.items id hid)

theorem sameImports_of_eq (hglobals : m'.globals = m.globals)
    (harrays : m'.heap.arrays = m.heap.arrays) : m.SameImports m' :=
  ⟨by rw [hglobals], fun _ _ => by rw [harrays]⟩

theorem SameImports.imported (h : m.SameImports m') : m'.imported = m.imported := by
  have hlist : m'.listId? = m.listId? := by
    unfold listId?
    rw [h.global]
  unfold Machine.imported
  rw [hlist]
  cases hid : m.listId? with
  | none => rfl
  | some id => exact items_of_getElem? (h.items id (listId?_eq_some.mp hid))

theorem lists_iff : m.Lists path ↔ Value.text path ∈ m.imported := by
  constructor
  · rintro ⟨id, hid, hmem⟩
    rwa [imported_of_global hid]
  · intro hmem
    cases hid : m.listId? with
    | none =>
        rw [imported, hid] at hmem
        cases hmem
        contradiction
    | some id =>
        have hglobal := listId?_eq_some.mp hid
        rw [imported_of_global hglobal] at hmem
        exact ⟨id, hglobal, hmem⟩

theorem located?_push {s : Array Value} {target : String}
    (hs : m.stack = s.push (.text target)) :
    m.located? = (Import.resolve m.files (m.candidates target)).toOption := by
  unfold Machine.located?
  rw [hs, Array.back?_push]

theorem of_located? (h : m.located? = some path) :
    exists (s : Array Value) (target : String), m.stack = s.push (.text target) ∧
      Import.resolve m.files (m.candidates target) = .ok path := by
  rcases Nat.eq_zero_or_pos m.stack.size with hzero | hpos
  · rw [Machine.located?, Array.eq_empty_of_size_eq_zero hzero] at h
    cases h
  · rcases Array.exists_push_of_size_pos hpos with ⟨s, v, hs⟩
    cases v with
    | text target =>
        rw [located?_push hs] at h
        refine ⟨s, target, hs, ?_⟩
        cases hr : Import.resolve m.files (m.candidates target) with
        | ok found =>
            rw [hr] at h
            cases h
            rfl
        | error tried =>
            rw [hr] at h
            cases h
    | _ =>
        rw [Machine.located?, hs, Array.back?_push] at h
        cases h

theorem sameImports_unwind (m : Machine) (thrown : Value) :
    m.SameImports (m.unwind thrown).2 := by
  unfold unwind
  split <;> exact sameImports_of_eq rfl rfl

theorem located?_advance (m : Machine) : m.advance.located? = m.located? := by
  unfold located?
  rw [advance_stack, advance_files]
  split
  · rw [candidates_advance]
  · rfl

end Contents
end Machine

/-! ## What a `use` that throws has done -/

namespace Exec

/-- A piece that leaves the list of imports as it is. -/
def SparesImports {α : Type} (x : Exec α) : Prop :=
  forall m : Machine, m.SameImports (left (x m))

section Throws

variable {α β : Type} {x : Exec α} {g : α -> Exec β} {m m' : Machine} {e : Raised}
variable {path : String}

theorem SparesImports.bind (hx : SparesImports x) (hg : forall v, SparesImports (g v)) :
    SparesImports (x >>= g) :=
  left_bind_of (R := Machine.SameImports) Machine.SameImports.trans hx hg

theorem Reads.sparesImports (hx : Reads x) : SparesImports x := by
  intro m
  rw [hx m]
  exact .refl m

theorem sparesImports_pop : SparesImports pop := by
  intro m
  unfold pop
  rw [bind_ok get_apply]
  cases m.stack.back? <;> exact Machine.sameImports_of_eq rfl rfl

theorem sparesImports_compileScript {source : String} :
    SparesImports (compileScript path source) := by
  intro m
  cases hc : m.heap.compile (some path) source with
  | error e =>
      rw [compileScript_rejected hc]
      exact .refl m
  | ok found =>
      rcases found with ⟨id, h⟩
      rw [compileScript_apply hc]
      rcases Heap.compile_eq_ok hc with ⟨p, -, -, rfl⟩
      exact Machine.sameImports_of_eq rfl rfl

theorem sparesImports_enter {id count : Nat} : SparesImports (enter id count) := by
  intro m
  by_cases harity : (m.heap.function id).arity = count
  · by_cases hfull : Full m
    · rw [enter_full harity hfull]
      exact .refl m
    · rw [enter_apply harity hfull]
      exact Machine.sameImports_of_eq rfl rfl
  · rw [enter_wrongArity harity]
    exact .refl m

theorem sparesImports_runScript : SparesImports (runScript path) := by
  refine reads_readScript.sparesImports.bind fun source => ?_
  refine sparesImports_compileScript.bind fun id => ?_
  have hpush : SparesImports (push (.function id)) := fun _ => Machine.sameImports_of_eq rfl rfl
  exact hpush.bind fun _ => sparesImports_enter

theorem readScript_error (h : readScript path m = .error e m') :
    Machine.FailsBehind path e := by
  cases hr : m.files.read path with
  | ok source =>
      rw [readScript_apply hr] at h
      cases h
  | error reason =>
      rw [readScript_unread hr] at h
      cases h
      exact .unreadable _

theorem compileScript_error {source : String} (h : compileScript path source m = .error e m') :
    Machine.FailsBehind path e := by
  cases hc : m.heap.compile (some path) source with
  | ok found =>
      rw [compileScript_apply hc] at h
      cases h
  | error reason =>
      rw [compileScript_rejected hc] at h
      cases h
      exact .rejected _

/-- A script fails to be run in three ways. -/
theorem runScript_error (h : runScript path m = .error e m') : Machine.FailsBehind path e := by
  rcases of_bind_error h with hread | ⟨source, m1, -, h1⟩
  · exact readScript_error hread
  rcases of_bind_error h1 with hcompile | ⟨id, m2, hcompile, h2⟩
  · exact compileScript_error hcompile
  rcases of_bind_error h2 with hpush | ⟨_, m3, hpush, henter⟩
  · cases hpush
  · cases hpush
    rcases of_compileScript_ok hcompile with ⟨heap, hc, rfl⟩
    have hscript := Heap.arity_of_compile hc
    by_cases hfull : Full { m1 with heap := heap, stack := m1.stack.push (.function id) }
    · rw [enter_full hscript hfull] at henter
      cases henter
      exact .overflow
    · rw [enter_apply hscript hfull] at henter
      cases henter

/-- A new list is empty. -/
theorem importList_imported {id : Nat} (h : importList m = .ok (.array id) m') :
    m'.imported = m.imported := by
  by_cases harray : exists id, m.globals[Import.importsName]? = some (.array id)
  · rcases harray with ⟨id', hid'⟩
    rw [importList_array hid'] at h
    cases h
    rfl
  · have hnone : forall id, m.globals[Import.importsName]? ≠ some (.array id) :=
      fun id hid => harray ⟨id, hid⟩
    rw [importList_new hnone] at h
    cases h
    rw [Machine.imported_of_global global_withList, Machine.imported,
      Machine.listId?_eq_none hnone]
    simp [withList, Heap.items, Heap.newArray]

theorem imported_append {id : Nat} {v : Value} (hm : m.Stores)
    (hid : m.globals[Import.importsName]? = some (.array id))
    (h : perform (fun h => h.push (.array id) (.text path)) m = .ok v m') :
    m'.imported = m.imported.push (.text path) := by
  rw [append_apply] at h
  cases h
  have hglobal : ({ m with heap := m.heap.setItems id ((m.heap.items id).push (.text path)) } :
      Machine).globals[Import.importsName]? = some (.array id) := hid
  rw [Machine.imported_of_global hid]
  exact (Machine.imported_of_global hglobal).trans (Heap.items_setItems (hm id hid))

theorem use_unlocated {s : Array Value} {target : String} {tried : List String}
    (hs : m.stack = s.push (.text target))
    (htried : Import.resolve m.files (m.candidates target) = .error tried) :
    use m = .error (.fault (.importNotFound target tried)) { m with stack := s } := by
  have hlocate : locate target { m with stack := s } =
      .error (.fault (.importNotFound target tried)) { m with stack := s } :=
    locate_missing htried
  unfold use
  rw [bind_ok (pop_apply hs)]
  exact bind_error hlocate

/-- A `use` that throws without a path has not come to the list. -/
theorem use_missing (hmissing : m.located? = none) (h : use m = .error e m') :
    m.SameImports m' := by
  rcases of_bind_error h with hpop | ⟨v, m1, hpop, h1⟩
  · have hspares := sparesImports_pop m
    rwa [hpop] at hspares
  rcases of_pop_ok hpop with ⟨s, hs, rfl⟩
  cases v with
  | text target =>
      cases hr : Import.resolve m.files (m.candidates target) with
      | ok path =>
          rw [Machine.located?_push hs, hr] at hmissing
          cases hmissing
      | error tried =>
          rw [use_unlocated hs hr] at h
          cases h
          exact Machine.sameImports_of_eq rfl rfl
  | _ =>
      cases h1
      exact Machine.sameImports_of_eq rfl rfl

/-- A `use` that throws behind its path has put the path in the list. -/
theorem use_located (hm : m.Stores) (hpath : m.located? = some path)
    (h : use m = .error e m') :
    Machine.FailsBehind path e ∧ ¬ m.Lists path ∧
      m'.imported = m.imported.push (.text path) := by
  rcases Machine.of_located? hpath with ⟨s, target, hs, hfound⟩
  have hnew : ¬ m.Lists path := by
    intro hlists
    rw [use_listed hs hfound hlists] at h
    cases h
  rcases importList_ok { m with stack := s } with ⟨id, m2, himports, hid, hlonger⟩
  have hsame : m2.imported = m.imported := (importList_imported himports).trans rfl
  rw [use_apply hs hfound himports] at h
  unfold importFrom at h
  rw [bind_ok get_apply] at h
  split at h
  · cases h
  · rcases of_bind_error h with happend | ⟨v, m3, happend, hrun⟩
    · rw [append_apply] at happend
      cases happend
    · have hlisted := imported_append (hlonger.stores hm) hid happend
      have hkept : m'.imported = m3.imported := by
        have hscript : SparesImports (runScript path) := sparesImports_runScript
        have hspares := hscript m3
        rw [hrun] at hspares
        exact hspares.imported
      exact ⟨runScript_error hrun, hnew, by rw [hkept, hlisted, hsame]⟩

end Throws
end Exec

/-! ## Turns in which a `use` throws -/

namespace Machine

/-- A `use` that throws has opened no call.  It has left the list of imports as it was exactly
where it has found no file.  Otherwise the file could not be read, did not compile or there was
no room for a call, and the list has one item more, the path.  From then on, whatever happens,
as long as nothing else touches the list, a `use` of the path gives nothing and does nothing
else. -/
theorem failed_import_counts_as_done {m : Machine} {e : Raised} (hm : m.Stores)
    (huses : m.Uses) (he : m.raised? = some e) :
    (exists m', Exec.use m.advance = .error e m' ∧ m'.frames = m.advance.frames ∧
      m.tick = m'.unwind e.toValue) ∧
    (m.tick.2.imported = m.imported ↔ m.located? = none) ∧
    forall path, m.located? = some path ->
      FailsBehind path e ∧ Value.text path ∉ m.imported ∧
      m.tick.2.imported = m.imported.push (.text path) ∧
      forall turns t target, m.tick.2.History turns t -> t.pendingImport? = some target ->
        Import.resolve t.files (t.candidates target) = .ok path ->
        t.tick = (.running, { t.advance with stack := t.stack.pop.push .none }) := by
  rcases of_uses huses with ⟨f, rest, hf, hi⟩
  have hadvance : m.SameImports m.advance :=
    sameImports_of_eq (advance_globals m) (by rw [advance_heap])
  cases hstep : Exec.use m.advance with
  | ok u m' =>
      have hexecute : execute (m.fetch? f) m.advance = .ok u m' := by
        rw [hi]
        exact hstep
      unfold raised? at he
      rw [hf] at he
      simp only [hexecute] at he
      cases he
  | error e' m' =>
      rw [raised?_of_error hf hi hstep] at he
      cases he
      have htick := tick_of_error hf hi hstep
      have hunwound : m.tick.2.imported = m'.imported := by
        rw [htick]
        exact (sameImports_unwind m' _).imported
      have hopens := frames_of_failed (i := .use) hf hstep
      have hlocated (path : String) (hpath : m.located? = some path) :
          FailsBehind path e ∧ Value.text path ∉ m.imported ∧
            m.tick.2.imported = m.imported.push (.text path) := by
        rcases Exec.use_located (stores_advance.mpr hm) ((located?_advance m).trans hpath) hstep
          with ⟨hfails, hnew, hlisted⟩
        refine ⟨hfails, fun hmem => hnew (lists_advance.mpr (lists_iff.mpr hmem)), ?_⟩
        rw [hunwound, hlisted, hadvance.imported]
      refine ⟨⟨m', rfl, hopens, htick⟩, ⟨?_, ?_⟩, ?_⟩
      · intro hsame
        cases hpath : m.located? with
        | none => rfl
        | some path =>
            have hsize := congrArg Array.size (hsame.symm.trans (hlocated path hpath).2.2)
            rw [Array.size_push] at hsize
            lia
      · intro hmissing
        have hspared := Exec.use_missing ((located?_advance m).trans hmissing) hstep
        rw [hunwound, (hadvance.trans hspared).imported]
      · intro path hpath
        rcases hlocated path hpath with ⟨hfails, hnew, hlisted⟩
        refine ⟨hfails, hnew, hlisted, ?_⟩
        intro turns t target hhistory hpending hresolve
        have hlists : m.tick.2.Lists path := by
          rw [lists_iff, hlisted]
          exact Array.mem_push_self
        have hstores : m.tick.2.Stores := huses.lengthens.stores hm
        exact tick_listed hpending hresolve (hhistory.lengthens.lists hstores path hlists)

/-! ## A script that does not compile -/

def unreadable : Files :=
  Observed.files
    { places := [("./bad.hm", "/bad.hm")], texts := [("/bad.hm", .ok "let = 1")] }

/-- In front of the first of two attempts to import the file, whose failure is caught. -/
def importingTwice : Machine :=
  let source := "try \x7b use 'bad' \x7d except e \x7b \x7d use 'bad'"
  let loaded := Interpreter.load (Interpreter.new {} unreadable).machine none source false
  later 1 (loaded.toOption.getD default)

/-- What is seen in front of the first attempt. -/
theorem importingTwice_begins :
    importingTwice.globals[Import.importsName]? = some (.array 1) ∧
      1 < importingTwice.heap.arrays.size ∧ importingTwice.Uses ∧
      importingTwice.raised?.isSome = true ∧ importingTwice.located? = some "/bad.hm" ∧
      importingTwice.imported = #[] := by
  decide +kernel

theorem importingTwice_stores : importingTwice.Stores := by
  intro id hid
  rw [importingTwice_begins.1] at hid
  cases hid
  exact importingTwice_begins.2.1

/-- The rejected file is in the list, which was empty. -/
theorem importingTwice_counts_as_done :
    importingTwice.Stores ∧ importingTwice.Uses ∧
      exists e, importingTwice.raised? = some e ∧ FailsBehind "/bad.hm" e ∧
        importingTwice.imported = #[] ∧
        importingTwice.tick.2.imported = #[.text "/bad.hm"] := by
  rcases importingTwice_begins with ⟨-, -, huses, hraised, hpath, hempty⟩
  rcases Option.isSome_iff_exists.mp hraised with ⟨e, he⟩
  have hdone := failed_import_counts_as_done importingTwice_stores huses he
  rcases hdone.2.2 "/bad.hm" hpath with ⟨hfails, -, hlisted, -⟩
  refine ⟨importingTwice_stores, huses, e, he, hfails, hempty, ?_⟩
  rw [hlisted, hempty]
  rfl

/-- The first attempt throws, opens no call and changes the list all the same, and the second
attempt throws nothing. -/
theorem second_attempt_is_silent :
    importingTwice.Uses ∧ importingTwice.raised?.isSome = true ∧
      importingTwice.tick.2.frames.length = importingTwice.frames.length ∧
      importingTwice.tick.2.imported ≠ importingTwice.imported ∧
      (later 3 importingTwice).Uses ∧ (later 3 importingTwice).raised? = none := by
  decide +kernel

end Machine
end StackScript
