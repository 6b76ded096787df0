import StackScript.Proofs.Collections.Items
import StackScript.Proofs.Heap.Copies
import StackScript.Proofs.Heap.Rendering
import StackScript.Proofs.Value.Comparison

/-!
# What can be seen of a table

A table is a map from keys to values.  Whatever is asked of it, the answer depends on that map
alone and not on how the entries came or how they are kept: the keys are given, searched, written
and iterated over in the order of the language, which lists them in one way only.
-/

namespace StackScript
namespace Heap

/-! ## Changing a table -/

def tableMap (h : Heap) (id : Nat) (key : String) : Option Value :=
  (h.entries id)[key]?

def SameMap (h h' : Heap) (id id' : Nat) : Prop :=
  forall key, h'.tableMap id' key = h.tableMap id key

namespace Operation

/-- The operation stores into the table, takes from it or empties it. -/
def ChangesTable (x : Value) : Operation -> Prop
  | set object _ _ | setProperty object _ _ | delete object _ | clear object => object = x
  | _ => False

/-- What an operation on a table makes of its map. -/
def onMap (f : String -> Option Value) : Operation -> String -> Option Value
  | set _ (.text key) v => Function.update f key (some v)
  | setProperty _ key v => Function.update f key (some v)
  | delete _ (.text key) => Function.update f key none
  | clear _ => fun _ => none
  | _ => f

end Operation

/-- What operations one after another make of the map of a table. -/
def mapAfter (f : String -> Option Value) (ops : List Operation) : String -> Option Value :=
  ops.foldl Operation.onMap f

section Changing

variable {h : Heap} {id : Nat} {t : Table} {op : Operation} {ops : List Operation}

theorem tableMap_setEntries (hid : id < h.tables.size) :
    (h.setEntries id t).tableMap id = (t[·]?) := by
  funext key
  rw [tableMap, entries_setEntries hid]

theorem getElem?_insert_eq_update (t : Table) (key : String) (v : Value) :
    ((t.insert key v)[·]?) = Function.update (t[·]?) key (some v) := by
  funext k
  rw [Table.getElem?_insert, Function.update_apply]
  simp only [@eq_comm _ k key]

theorem getElem?_erase_eq_update (t : Table) (key : String) :
    ((t.erase key)[·]?) = Function.update (t[·]?) key none := by
  funext k
  rw [Table.getElem?_erase, Function.update_apply]
  simp only [@eq_comm _ k key]

theorem after_changesTable (hid : id < h.tables.size) (hop : op.ChangesTable (.table id)) :
    exists t : Table, h.after op = h.setEntries id t ∧ (t[·]?) = op.onMap (h.tableMap id) := by
  have hsame : exists t : Table, h = h.setEntries id t ∧ (t[·]?) = h.tableMap id :=
    ⟨h.entries id, (setEntries_entries hid).symm, rfl⟩
  cases op with
  | setProperty object key v =>
      cases hop
      exact ⟨_, rfl, getElem?_insert_eq_update _ key v⟩
  | set object key v =>
      cases hop
      cases key with
      | text k => exact ⟨_, rfl, getElem?_insert_eq_update _ k v⟩
      | _ => exact hsame
  | delete object key =>
      cases hop
      cases key with
      | text k => exact ⟨_, rfl, getElem?_erase_eq_update _ k⟩
      | _ => exact hsame
  | clear object =>
      cases hop
      exact ⟨{}, rfl, rfl⟩
  | _ => cases hop

/-- Whatever is done to a table, only its entries change, and its map is the one that the
operations make of the map before. -/
theorem afterAll_changesTable (hid : id < h.tables.size)
    (hops : forall op, op ∈ ops -> op.ChangesTable (.table id)) :
    exists t : Table, h.afterAll ops = h.setEntries id t ∧
      (t[·]?) = mapAfter (h.tableMap id) ops := by
  induction ops generalizing h with
  | nil => exact ⟨h.entries id, (setEntries_entries hid).symm, rfl⟩
  | cons op ops ih =>
      obtain ⟨t, hnext, ht⟩ := after_changesTable hid (hops op List.mem_cons_self)
      have hid' : id < (h.setEntries id t).tables.size := by
        simpa [setEntries] using hid
      obtain ⟨t', hall, ht'⟩ := ih hid' fun o ho => hops o (List.mem_cons_of_mem _ ho)
      refine ⟨t', ?_, ?_⟩
      · show (h.after op).afterAll ops = _
        rw [hnext, hall, setEntries_setEntries]
      · rw [ht', tableMap_setEntries hid, ht]
        rfl

theorem tableMap_afterAll (hid : id < h.tables.size)
    (hops : forall op, op ∈ ops -> op.ChangesTable (.table id)) :
    (h.afterAll ops).tableMap id = mapAfter (h.tableMap id) ops := by
  obtain ⟨t, hall, ht⟩ := afterAll_changesTable hid hops
  rw [hall, tableMap_setEntries hid, ht]

end Changing

/-! ## Answers -/

/-- Two tables give the same answers. -/
structure AnswersAlike (h h' : Heap) (id id' : Nat) : Prop where
  keys : exists ks, h.keys (.table id) = .of (h.newArray ks) ∧
    h'.keys (.table id') = .of (h'.newArray ks)
  len : h'.len (.table id') = h.len (.table id)
  has : forall key, h'.has (.table id') key = h.has (.table id) key
  getProperty : forall key, h'.getProperty (.table id') key = h.getProperty (.table id) key
  get : forall key, h'.get (.table id') key = h.get (.table id) key
  index : forall v, h'.index (.table id') v = h.index (.table id) v
  falsy : h'.falsy (.table id') = h.falsy (.table id)
  order : forall m m' : Machine, m.heap = h -> m'.heap = h' ->
    exists ks ks' n n', Exec.iterationKeys (.table id) m = .ok ks n ∧
      Exec.iterationKeys (.table id') m' = .ok ks' n' ∧
      forall i, n'.heap.iteration (.table id') ks' i = n.heap.iteration (.table id) ks i

section Answers

variable {h h' : Heap} {id id' : Nat}

theorem SameMap.same (hmap : SameMap h h' id id') : (h.entries id).Same (h'.entries id') :=
  hmap

/-- An iteration that begins has the keys in order, each with its value. -/
theorem iteration_keep (h : Heap) (id i : Nat) :
    (h.keep (.table id)).2.iteration (.table id) (h.keep (.table id)).1 i =
      (h.entries id).orderedKeys[i]?.map fun k => (.text k, (h.tableMap id k).getD .none) := by
  have hkeys : (h.keep (.table id)).2.items h.arrays.size = sortedKeys (h.entries id) := by
    simp [keep, newArray, items]
  show ((h.keep (.table id)).2.items h.arrays.size)[i]?.map _ = _
  rw [hkeys, sortedKeys]
  simp only [List.getElem?_toArray, List.getElem?_map, Option.map_map]
  rfl

/-- The keys with a value, in whatever order the entries come, are the same in order. -/
theorem SameMap.sortTexts_eq (hmap : SameMap h h' id id') (p : Value -> Bool) :
    sortTexts (((h'.entries id').toList.filter fun e => p e.2).map Prod.fst) =
      sortTexts (((h.entries id).toList.filter fun e => p e.2).map Prod.fst) :=
  sortTexts_eq_of_perm (((Table.same_iff_perm.mp hmap.same).filter _).map Prod.fst)

theorem SameMap.answersAlike (hmap : SameMap h h' id id') : AnswersAlike h h' id id' := by
  have hproperty (key : String) :
      h'.getProperty (.table id') key = h.getProperty (.table id) key := by
    have hvalue : (h'.entries id')[key]? = (h.entries id)[key]? := hmap key
    simp only [Heap.getProperty, hvalue]
  have hcontains (key : String) : (h'.entries id').contains key = (h.entries id).contains key :=
    hmap.same.contains key
  constructor
  · refine ⟨sortedKeys (h.entries id), rfl, ?_⟩
    rw [Heap.keys, sortedKeys, hmap.same.orderedKeys_eq]
    rfl
  · simp only [Heap.len, hmap.same.size_eq]
  · intro key
    simp only [Heap.has, hcontains]
  · exact hproperty
  · intro key
    simp only [Heap.get, hproperty]
  · intro v
    simp only [Heap.index, hmap.sortTexts_eq (·.equal v)]
  · simp only [Heap.falsy, hmap.same.isEmpty_eq]
  · rintro m m' rfl rfl
    refine ⟨_, _, _, _, Exec.iterationKeys_apply rfl, Exec.iterationKeys_apply rfl, ?_⟩
    intro i
    show (m'.heap.keep (.table id')).2.iteration _ _ i = (m.heap.keep (.table id)).2.iteration _ _ i
    rw [iteration_keep, iteration_keep, hmap.same.orderedKeys_eq]
    exact congrArg (Option.map · _) (funext fun k => by rw [hmap k])

end Answers

/-! ## Texts -/

/-- Two heaps have the same objects but for the way in which the entries of tables are kept. -/
structure SameObjects (h h' : Heap) : Prop where
  arrays : h'.arrays = h.arrays
  tables : h'.tables.size = h.tables.size
  functions : h'.functions = h.functions
  entries : forall id, (h.entries id).Same (h'.entries id)

section Texts

variable {h h' : Heap} {id id' : Nat} {v : Value} {path path' : List Value}

theorem SameMap.children_eq (hmap : SameMap h h' id id') :
    h'.children (.table id') = h.children (.table id) := by
  simp only [children, hmap.same.orderedKeys_eq, hmap.same _]

theorem SameMap.labels_eq (hmap : SameMap h h' id id') :
    h'.labels (.table id') = h.labels (.table id) :=
  hmap.same.orderedKeys_eq

theorem SameObjects.sameMap (hsame : SameObjects h h') (id : Nat) : SameMap h h' id id :=
  hsame.entries id

theorem SameObjects.children_eq (hsame : SameObjects h h') : h'.children = h.children := by
  funext v
  cases v with
  | array id => simp only [children, items, hsame.arrays]
  | table id => exact (hsame.sameMap id).children_eq
  | _ => rfl

theorem SameObjects.wholeText_eq (hsame : SameObjects h h') : h'.wholeText = h.wholeText := by
  funext parts v
  cases v with
  | table id => simp only [wholeText, (hsame.sameMap id).labels_eq]
  | _ => rfl

theorem SameObjects.leafText_eq (hsame : SameObjects h h') : h'.leafText = h.leafText := by
  funext inside v
  cases v with
  | function id => simp only [leafText, function, hsame.functions]
  | _ => rfl

theorem SameObjects.write_eq (hsame : SameObjects h h') (fuel : Nat) (inside : Bool)
    (path : List Value) (v : Value) : h'.write fuel inside path v = h.write fuel inside path v := by
  induction fuel generalizing inside path v with
  | zero => rfl
  | succ fuel ih =>
      cases hcollection : v.isCollection with
      | false => rw [write_leaf hcollection, write_leaf hcollection, hsame.leafText_eq]
      | true =>
          by_cases hseen : v ∈ path
          · rw [write_seen hcollection hseen, write_seen hcollection hseen]
          · rw [write_new hcollection hseen, write_new hcollection hseen, hsame.wholeText_eq,
              hsame.children_eq, funext (ih true (v :: path))]

theorem SameObjects.render_eq (hsame : SameObjects h h') (v : Value) :
    h'.render v = h.render v := by
  have hsize : h'.size = h.size := by
    rw [size, size, hsame.arrays, hsame.tables]
  rw [render, render, hsize, hsame.write_eq]

theorem sameObjects_setEntries {t t' : Table} (hid : id < h.tables.size)
    (ht : t.Same t') : SameObjects (h.setEntries id t) (h.setEntries id t') where
  arrays := rfl
  tables := by simp [setEntries]
  functions := rfl
  entries := by
    intro id'
    by_cases heq : id = id'
    · cases heq
      rw [entries_setEntries hid, entries_setEntries hid]
      exact ht
    · intro key
      simp only [entries, setEntries, Array.getD_eq_getD_getElem?,
        Array.getElem?_setIfInBounds_ne heq]

/-- The text of a value depends on the collections around it only as far as the value leads to
them. -/
theorem write_congr (fuel : Nat) (inside : Bool)
    (hpaths : forall u, Relation.ReflTransGen h.Encloses v u -> (u ∈ path ↔ u ∈ path')) :
    h.write fuel inside path v = h.write fuel inside path' v := by
  induction fuel generalizing inside path path' v with
  | zero => rfl
  | succ fuel ih =>
      cases hcollection : v.isCollection with
      | false => rw [write_leaf hcollection, write_leaf hcollection]
      | true =>
          by_cases hseen : v ∈ path
          · rw [write_seen hcollection hseen, write_seen hcollection ((hpaths v .refl).mp hseen)]
          · have hseen' : v ∉ path' := fun hv => hseen ((hpaths v .refl).mpr hv)
            rw [write_new hcollection hseen, write_new hcollection hseen']
            refine congrArg (h.wholeText · v) (List.map_congr_left fun w hw => ih true ?_)
            intro u hu
            simp only [List.mem_cons, hpaths u (.head hw hu)]

/-- Two tables with the same map that do not contain themselves have the same text. -/
theorem SameMap.render_table_eq (hmap : SameMap h h id id')
    (hid : ¬ Relation.TransGen h.Encloses (.table id) (.table id))
    (hid' : ¬ Relation.TransGen h.Encloses (.table id') (.table id')) :
    h.render (.table id') = h.render (.table id) := by
  have hchildren := hmap.children_eq
  have hwhole (parts : List String) :
      h.wholeText parts (.table id') = h.wholeText parts (.table id) := by
    simp only [wholeText, hmap.labels_eq]
  rw [render, render, write_new rfl List.not_mem_nil, write_new rfl List.not_mem_nil, hwhole,
    hchildren]
  refine congrArg (h.wholeText · (.table id)) (List.map_congr_left fun w hw => ?_)
  -- Nothing inside leads back to either table, so it does not matter which one is outside.
  apply write_congr
  intro u hu
  have hw' : h.Encloses (.table id') w := by
    rw [Encloses, hchildren]
    exact hw
  have hne : u ≠ .table id := by
    rintro rfl
    exact hid (.head' hw hu)
  have hne' : u ≠ .table id' := by
    rintro rfl
    exact hid' (.head' hw' hu)
  simp only [List.mem_singleton, hne, hne']

end Texts

/-! ## The keys in order -/

def HasValue (h : Heap) (id : Nat) (v : Value) (key : String) : Prop :=
  exists w, h.getProperty (.table id) key = .ok w ∧ Comparison.equal.Holds w v

/-- What is seen of a table goes by its keys in order. -/
structure SeenInOrder (h : Heap) (id : Nat) (ks : List String) : Prop where
  keys : h.keys (.table id) = .of (h.newArray (ks.map Value.text).toArray)
  increasing : ks.Pairwise fun a b => Comparison.less.Holds (.text a) (.text b)
  /-- In whatever order the entries come, sorting the keys gives this list. -/
  sorted : forall l : List (String × Value), l.Perm (h.entries id).toList ->
    sortTexts (l.map Prod.fst) = ks
  has : forall key, h.has (.table id) (.text key) = .ok (.bool (decide (key ∈ ks)))
  getProperty : forall key, key ∈ ks ↔ exists v, h.getProperty (.table id) key = .ok v
  len : h.len (.table id) = .ok (.integer (Int64.ofNat ks.length))
  /-- The key of a value is the first one in order that has it. -/
  index : forall v,
    (exists key, h.index (.table id) v = .ok (.text key) ∧ h.HasValue id v key ∧
      exists before after, ks = before ++ key :: after ∧
        forall k, k ∈ before -> ¬ h.HasValue id v k) ∨
    (h.index (.table id) v = .ok .none ∧ forall k, k ∈ ks -> ¬ h.HasValue id v k)
  order : forall m : Machine, m.heap = h -> exists kept n,
    Exec.iterationKeys (.table id) m = .ok kept n ∧
    forall i, n.heap.iteration (.table id) kept i =
      ks[i]?.map fun key => (.text key, (h.tableMap id key).getD .none)

section Order

variable {h : Heap} {id : Nat} {v w : Value} {key : String} {l : List (String × Value)}

theorem holds_less_texts {a b : String} :
    Comparison.less.Holds (.text a) (.text b) ↔ compare a b = .lt := by
  simp [Comparison.Holds, Comparison.apply, Value.ordered, Value.order?, Instr.order?]

theorem getProperty_table_eq_ok :
    h.getProperty (.table id) key = .ok v ↔ (h.entries id)[key]? = some v := by
  simp only [Heap.getProperty]
  cases (h.entries id)[key]? <;> simp

theorem hasValue_iff : h.HasValue id v key ↔
    key ∈ ((h.entries id).toList.filter fun e => e.2.equal v).map Prod.fst := by
  simp only [HasValue, getProperty_table_eq_ok, Table.getElem?_eq_some_iff_mem,
    Value.holds_equal_iff, List.mem_map, List.mem_filter, Prod.exists, exists_and_right,
    exists_eq_right]

/-- The first key in order among those that have a value is the first one of all keys in order
that has it. -/
theorem index_table (h : Heap) (id : Nat) (v : Value) :
    (exists key, h.index (.table id) v = .ok (.text key) ∧ h.HasValue id v key ∧
      exists before after, (h.entries id).orderedKeys = before ++ key :: after ∧
        forall k, k ∈ before -> ¬ h.HasValue id v k) ∨
    (h.index (.table id) v = .ok .none ∧
      forall k, k ∈ (h.entries id).orderedKeys -> ¬ h.HasValue id v k) := by
  rw [Heap.index]
  cases hhead : (sortTexts (((h.entries id).toList.filter fun e => e.2.equal v).map
      Prod.fst)).head? with
  | none =>
      refine Or.inr ⟨rfl, fun k _ hk => ?_⟩
      rw [List.head?_eq_none_iff] at hhead
      rw [hasValue_iff, ← (sortTexts_perm _).mem_iff, hhead] at hk
      cases hk
  | some key =>
      rcases le_of_head?_sortTexts hhead with ⟨hmem, hleast⟩
      have hvalue : h.HasValue id v key := hasValue_iff.mpr hmem
      have hkey : key ∈ (h.entries id).orderedKeys := by
        rcases hvalue with ⟨w, hw, -⟩
        exact Table.mem_orderedKeys_iff.mpr ⟨w, getProperty_table_eq_ok.mp hw⟩
      rcases List.append_of_mem hkey with ⟨before, after, hsplit⟩
      refine Or.inl ⟨key, rfl, hvalue, before, after, hsplit, fun k hk hvalue' => ?_⟩
      have hincreasing := (h.entries id).orderedKeys_increasing
      rw [hsplit, List.pairwise_append] at hincreasing
      have hless : k < key := compare_texts.mp (hincreasing.2.2 k hk key List.mem_cons_self)
      exact String.not_le.mpr hless (hleast k (hasValue_iff.mp hvalue'))

theorem seenInOrder (h : Heap) (id : Nat) : SeenInOrder h id (h.entries id).orderedKeys where
  keys := rfl
  increasing := (h.entries id).keysInOrder.increasing.imp holds_less_texts.mpr
  sorted := fun _ hperm => sortTexts_eq_of_perm (hperm.map Prod.fst)
  has := by
    intro key
    have hcontains : (h.entries id).contains key = decide (key ∈ (h.entries id).orderedKeys) := by
      rw [Bool.eq_iff_iff, decide_eq_true_eq, (h.entries id).keysInOrder.complete]
    rw [← hcontains]
    rfl
  getProperty := by
    intro key
    simp only [getProperty_table_eq_ok]
    exact Table.mem_orderedKeys_iff
  len := by
    rw [Heap.len, Table.length_orderedKeys]
  index := index_table h id
  order := by
    rintro m rfl
    exact ⟨_, _, Exec.iterationKeys_apply rfl, iteration_keep m.heap id⟩

end Order

/-- All that can be seen of a table is its map, whatever operations made it.  Two histories of a
table that leave the same map leave all answers and all texts the same, and so does putting the
entries in another order.  Two tables with the same map give the same answers, and have the same
text unless one of them contains itself: it is cut short where it stands inside itself, so its text
shows which table it is.  The keys stand in the one order that the language has for texts, and the
first of them that has a value is its key. -/
theorem tables_show_their_maps {h : Heap} {id : Nat} (hid : id < h.tables.size) :
    (forall ops, (forall op, op ∈ ops -> op.ChangesTable (.table id)) ->
      (h.afterAll ops).tableMap id = mapAfter (h.tableMap id) ops) ∧
    (forall ops ops', (forall op, op ∈ ops -> op.ChangesTable (.table id)) ->
      (forall op, op ∈ ops' -> op.ChangesTable (.table id)) ->
      mapAfter (h.tableMap id) ops' = mapAfter (h.tableMap id) ops ->
      AnswersAlike (h.afterAll ops) (h.afterAll ops') id id ∧
        forall v, (h.afterAll ops').render v = (h.afterAll ops).render v) ∧
    (forall t : Table, t.toList.Perm (h.entries id).toList ->
      AnswersAlike h (h.setEntries id t) id id ∧
        forall v, (h.setEntries id t).render v = h.render v) ∧
    (forall h' id', (h'.entries id').toList.Perm (h.entries id).toList ↔ SameMap h h' id id') ∧
    (forall h' id', SameMap h h' id id' -> AnswersAlike h h' id id') ∧
    (forall id', SameMap h h id id' ->
      ¬ Relation.TransGen h.Encloses (.table id) (.table id) ->
      ¬ Relation.TransGen h.Encloses (.table id') (.table id') ->
      h.render (.table id') = h.render (.table id)) ∧
    exists ks, SeenInOrder h id ks := by
  refine ⟨fun ops => tableMap_afterAll hid, ?_, ?_, fun _ _ => Table.same_iff_perm.symm,
    fun _ _ => SameMap.answersAlike, fun _ => SameMap.render_table_eq, _, seenInOrder h id⟩
  · intro ops ops' hops hops' hmaps
    constructor
    · apply SameMap.answersAlike
      intro key
      rw [tableMap_afterAll hid hops, tableMap_afterAll hid hops', hmaps]
    · obtain ⟨t, hall, ht⟩ := afterAll_changesTable hid hops
      obtain ⟨t', hall', ht'⟩ := afterAll_changesTable hid hops'
      have hlookups : (t'[·]?) = (t[·]? : String -> Option Value) := by
        rw [ht, ht', hmaps]
      rw [hall, hall']
      exact (sameObjects_setEntries hid fun key => congrFun hlookups key).render_eq
  · intro t hperm
    have hsame : (h.entries id).Same t := Table.same_iff_perm.mpr hperm
    constructor
    · apply SameMap.answersAlike
      intro key
      rw [tableMap_setEntries hid]
      exact hsame key
    · have hobjects := sameObjects_setEntries hid hsame
      rw [setEntries_entries hid] at hobjects
      exact hobjects.render_eq

def blankPair : Heap where
  tables := #[{}, {}]

/-- What was deleted or cleared away leaves no trace, in the order of the entries neither. -/
theorem blankPair_forgets :
    0 < blankPair.tables.size ∧
      let ops : List Operation := [.setProperty (.table 0) "b" (.table 0), .clear (.table 0),
        .set (.table 0) (.text "b") .none, .setProperty (.table 0) "a" (.table 0)]
      let ops' : List Operation := [.setProperty (.table 0) "a" (.table 0),
        .set (.table 0) (.text "c") .none, .delete (.table 0) (.text "c"),
        .setProperty (.table 0) "b" .none]
      (blankPair.afterAll ops').render (.table 0) = (blankPair.afterAll ops).render (.table 0) ∧
        (blankPair.afterAll ops).render (.table 0) = "\x7b a: \x7b .. \x7d, b: none \x7d" := by
  refine ⟨by decide, ?_, by decide +kernel⟩
  obtain ⟨-, hhistories, -⟩ := @tables_show_their_maps blankPair 0 (by decide)
  refine (hhistories _ _ ?_ ?_ ?_).2 _
  · simp [Operation.ChangesTable]
  · simp [Operation.ChangesTable]
  · have hempty : blankPair.tableMap 0 = fun _ => none := by
      rfl
    funext key
    simp only [mapAfter, List.foldl_cons, List.foldl_nil, Operation.onMap, Function.update_apply,
      hempty]
    grind

/-- Two tables that were both empty hold the first of them under one key.  The text of the first
one is cut short a level earlier. -/
theorem blankPair_cut_apart :
    let ops : List Operation := [.setProperty (.table 0) "self" (.table 0)]
    let ops' : List Operation := [.setProperty (.table 1) "self" (.table 0)]
    let h := (blankPair.afterAll ops).afterAll ops'
    (forall key, blankPair.tableMap 0 key = none ∧ blankPair.tableMap 1 key = none) ∧
      mapAfter (blankPair.tableMap 0) ops = mapAfter (blankPair.tableMap 1) ops' ∧
      SameMap h h 0 1 ∧
      h.render (.table 0) = "\x7b self: \x7b .. \x7d \x7d" ∧
      h.render (.table 1) = "\x7b self: \x7b self: \x7b .. \x7d \x7d \x7d" := by
  refine ⟨fun _ => ⟨rfl, rfl⟩, rfl, fun _ => rfl, by decide +kernel, by decide +kernel⟩

end Heap
end StackScript
