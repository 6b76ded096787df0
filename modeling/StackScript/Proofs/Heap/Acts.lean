import StackScript.Machine.Step
import StackScript.Proofs.Value.Table

/-!
# What an operation does

An operation that fails has left the heap alone.  One that succeeds gives back a value that it was
supplied with: one that names no object, an argument or something a collection holds.  It may have
written such values into the object that its first argument names, or have made one new object out
of them.  This is shown here for each operation, and whatever else is to be known of all operations
follows from it.
-/

namespace StackScript

/-! ## Faults of broken code -/

/-- Whether only code that fails the static stack check can raise a fault. -/
def Fault.internal : Fault -> Bool
  | .stackUnderflow | .instructionOutOfBounds | .constantOutOfRange _ => true
  | .jumpBeforeStart | .noActiveFrame => true
  | .expected operation _ _ => operation == "Name"
  | _ => false

/-! ## Values at hand -/

/-- A value that names no object. -/
def Value.Plain : Value -> Prop
  | .none | .bool _ | .integer _ | .float _ | .text _ => True
  | _ => False

theorem mem_of_mem_extract {vs : Array Value} {v : Value} {i j : Nat} (hv : v ∈ vs.extract i j) :
    v ∈ vs := by
  rcases Array.mem_extract_iff_getElem.mp hv with ⟨k, hk, rfl⟩
  exact Array.getElem_mem _

theorem mem_of_mem_pop {vs : Array Value} {v : Value} (hv : v ∈ vs.pop) : v ∈ vs := by
  rw [Array.mem_def, Array.toList_pop] at hv
  exact Array.mem_def.mpr (List.dropLast_subset _ hv)

namespace Heap

/-- An item is one of an array on the heap. -/
theorem of_mem_items {h : Heap} {id : Nat} {v : Value} (hv : v ∈ h.items id) :
    exists items, items ∈ h.arrays ∧ v ∈ items := by
  rw [items, Array.getD_eq_getD_getElem?] at hv
  cases hitems : h.arrays[id]? with
  | none =>
      rw [hitems] at hv
      simp at hv
  | some items =>
      rw [hitems] at hv
      exact ⟨items, Array.mem_of_getElem? hitems, hv⟩

theorem of_getElem?_entries {h : Heap} {id : Nat} {key : String} {v : Value}
    (hv : (h.entries id)[key]? = some v) : exists t, t ∈ h.tables ∧ t[key]? = some v := by
  rw [entries, Array.getD_eq_getD_getElem?] at hv
  cases ht : h.tables[id]? with
  | none =>
      rw [ht] at hv
      simp at hv
  | some t =>
      rw [ht] at hv
      exact ⟨t, Array.mem_of_getElem? ht, hv⟩

/-- A value that an operation has at hand, without making up a name. -/
inductive Supplied (h : Heap) (args : List Value) (v : Value) : Prop where
  | plain : v.Plain -> Supplied h args v
  | argument : v ∈ args -> Supplied h args v
  | item {id : Nat} : v ∈ h.items id -> Supplied h args v
  | entry {id : Nat} {key : String} : (h.entries id)[key]? = some v -> Supplied h args v

/-- What an operation that only looks at the heap may find. -/
def Finds (h : Heap) (args : List Value) : Except Fault Value -> Prop
  | .ok v => h.Supplied args v
  | .error f => f.internal = false

/-- What an operation with the given arguments may answer; `writes` says whether it may change the
object that its first argument names. -/
inductive Acts (h : Heap) (writes : Bool) (args : List Value) : Answer -> Prop where
  | fails {f : Fault} : f.internal = false -> Acts h writes args (.error f h)
  | gives {v : Value} : h.Supplied args v -> Acts h writes args (.ok v h)
  | setsItems {id : Nat} {items : Array Value} {v : Value} : writes = true ->
      args.head? = some (.array id) -> (forall w, w ∈ items -> h.Supplied args w) ->
      h.Supplied args v -> Acts h writes args (.ok v (h.setItems id items))
  | setsEntries {id : Nat} {t : Table} {v : Value} : writes = true ->
      args.head? = some (.table id) ->
      (forall (key : String) w, t[key]? = some w -> h.Supplied args w) ->
      h.Supplied args v -> Acts h writes args (.ok v (h.setEntries id t))
  | makesArray {items : Array Value} : (forall w, w ∈ items -> h.Supplied args w) ->
      Acts h writes args (.of (h.newArray items))
  | makesTable {t : Table} :
      (forall (key : String) w, t[key]? = some w -> h.Supplied args w) ->
      Acts h writes args (.of (h.newTable t))

section Acts

variable {h : Heap} {writes : Bool} {args : List Value} {v a b c : Value}

/-- An operation that fails has left the heap alone. -/
theorem Acts.of_error {h' : Heap} {f : Fault} (hx : h.Acts writes args (.error f h')) :
    h' = h ∧ f.internal = false := by
  cases hx with
  | fails hf => exact ⟨rfl, hf⟩

theorem Finds.answer {r : Except Fault Value} (hr : h.Finds args r) :
    h.Acts false args (answer h r) := by
  cases r with
  | error f => exact .fails hr
  | ok v => exact .gives hr

theorem finds_bind {α : Type} {r : Except Fault α} {k : α -> Except Fault Value}
    (hr : forall f, r = .error f -> f.internal = false)
    (hk : forall x, r = .ok x -> h.Finds args (k x)) : h.Finds args (r >>= k) := by
  cases hx : r with
  | error f => exact hr f hx
  | ok x => exact hk x hx

theorem acts_check {α : Type} {r : Except Fault α} {k : α -> Answer}
    (hr : forall f, r = .error f -> f.internal = false)
    (hk : forall x, r = .ok x -> h.Acts writes args (k x)) :
    h.Acts writes args (h.check r k) := by
  cases hx : r with
  | error f => exact .fails (hr f hx)
  | ok x => exact hk x hx

theorem supplied_back? {items : Array Value} {id : Nat} (hitems : items = h.items id) :
    h.Supplied args (items.back?.getD .none) := by
  cases hback : items.back? with
  | none => exact .plain trivial
  | some v => exact .item (hitems ▸ Array.mem_of_back? hback)

theorem supplied_getD (id place : Nat) : h.Supplied args ((h.items id).getD place .none) := by
  rw [Array.getD_eq_getD_getElem?]
  cases hv : (h.items id)[place]? with
  | none => exact .plain trivial
  | some v => exact .item (Array.mem_of_getElem? hv)

theorem supplied_entry (id : Nat) (key : String) :
    h.Supplied args ((h.entries id)[key]?.getD .none) := by
  cases hv : (h.entries id)[key]? with
  | none => exact .plain trivial
  | some v => exact .entry hv

end Acts

/-! ## Checks of arguments -/

section Checks

variable {h : Heap} {args : List Value} {a b : Value} {operation : String}

theorem toIndex_error (hop : (operation == "Name") = false) :
    forall f, a.toIndex operation = .error f -> f.internal = false := by
  intro f hf
  cases a <;> cases hf <;> exact hop

theorem toKey_error (hop : (operation == "Name") = false) :
    forall f, a.toKey operation = .error f -> f.internal = false := by
  intro f hf
  cases a <;> cases hf <;> exact hop

theorem orOutOfBounds_error {α : Type} {index : Int64} {size : Nat} {o : Option α} :
    forall f, Value.orOutOfBounds index size o = .error f -> f.internal = false := by
  intro f hf
  cases o <;> cases hf
  rfl

theorem finds_orOutOfBounds {index : Int64} {size : Nat} {o : Option Value}
    (ho : forall v, o = some v -> h.Supplied args v) :
    h.Finds args (Value.orOutOfBounds index size o) := by
  cases o with
  | none => rfl
  | some v => exact ho v rfl

theorem sliceBounds_error {size : Nat} :
    forall f, sliceBounds a b size = .error f -> f.internal = false := by
  intro f hf
  unfold sliceBounds at hf
  cases hlow : a.toIndex "Slice" with
  | error e =>
      rw [hlow] at hf
      cases hf
      exact toIndex_error rfl f hlow
  | ok low =>
      rw [hlow] at hf
      cases b <;> cases hf <;> rfl

end Checks

/-! ## Arithmetic -/

section Arithmetic

variable {h : Heap} {args : List Value} {a b : Value}

theorem finds_floatOp (operation : String) (f : Binary64 -> Binary64 -> Binary64) :
    h.Finds args (Value.floatOp operation f a b) := by
  unfold Value.floatOp
  split
  · exact .plain trivial
  · rfl

theorem finds_bitwise (i : Instr) : h.Finds args (Value.bitwise i a b) := by
  unfold Value.bitwise
  split
  · exact .plain trivial
  · rfl

theorem finds_operator (op : Operator) : h.Finds args (op.apply h a b) := by
  cases op with
  | add =>
      simp only [Operator.apply, Value.add]
      split
      · exact .plain trivial
      · exact .plain trivial
      · exact .plain trivial
      · exact finds_floatOp _ _
  | subtract =>
      simp only [Operator.apply, Value.subtract]
      split
      · exact .plain trivial
      · exact finds_floatOp _ _
  | multiply =>
      simp only [Operator.apply, Value.multiply]
      split
      · exact .plain trivial
      · exact finds_floatOp _ _
  | divide =>
      simp only [Operator.apply, Value.divide]
      split
      · split
        · rfl
        · exact .plain trivial
      · rfl
  | modulo =>
      simp only [Operator.apply, Value.modulo]
      split
      · split
        · rfl
        · exact .plain trivial
      · rfl
  | bitAnd | bitOr | bitXor | shiftLeft | shiftRight => exact finds_bitwise _

theorem finds_ordered (i : Instr) : h.Finds args (Value.ordered i a b) := by
  unfold Value.ordered
  split
  · exact .plain trivial
  · exact .plain trivial
  · rfl

theorem finds_comparison (op : Comparison) : h.Finds args (op.apply a b) := by
  cases op with
  | equal | notEqual => exact .plain trivial
  | less | lessEqual | greater | greaterEqual => exact finds_ordered _

theorem plain_ofTruncated (x : Binary64) : (Value.ofTruncated x).Plain := by
  unfold Value.ofTruncated
  split <;> trivial

theorem finds_toInteger : h.Finds args a.toInteger := by
  unfold Value.toInteger
  split
  · exact .plain trivial
  · exact .plain (plain_ofTruncated _)
  · dsimp only
    split
    · exact .plain trivial
    · exact .plain (plain_ofTruncated _)
    · exact .plain trivial
  · rfl

theorem finds_toFloat : h.Finds args a.toFloat := by
  unfold Value.toFloat
  split
  · exact .plain trivial
  · exact .plain trivial
  · split
    · exact .plain trivial
    · exact .plain trivial
  · rfl

end Arithmetic

/-! ## Looking -/

section Looking

variable {h : Heap} {args : List Value} {a b : Value}

theorem finds_getProperty (key : String) : h.Finds args (h.getProperty a key) := by
  unfold getProperty
  split
  · split
    · rename_i v hv
      exact .entry hv
    · rfl
  · rfl

theorem finds_get : h.Finds args (h.get a b) := by
  unfold get
  split
  · refine finds_bind (toIndex_error rfl) fun index _ => finds_orOutOfBounds fun v hv => ?_
    rcases Option.bind_eq_some_iff.mp hv with ⟨i, -, hi⟩
    exact .item (Array.mem_of_getElem? hi)
  · refine finds_bind (toIndex_error rfl) fun index _ => finds_orOutOfBounds fun v hv => ?_
    rcases Option.map_eq_some_iff.mp hv with ⟨x, -, rfl⟩
    exact .plain trivial
  · exact finds_bind (toKey_error rfl) fun key _ => finds_getProperty key
  · rfl

theorem finds_len : h.Finds args (h.len a) := by
  cases a with
  | text | array | table => exact .plain trivial
  | _ => rfl

theorem finds_has : h.Finds args (h.has a b) := by
  unfold has
  split
  · exact finds_bind (toKey_error rfl) fun key _ => .plain trivial
  · rfl

theorem plain_positionValue (o : Option Nat) : (positionValue o).Plain := by
  cases o <;> trivial

theorem finds_index : h.Finds args (h.index a b) := by
  unfold index
  split
  · exact finds_bind (toKey_error rfl) fun key _ => .plain (plain_positionValue _)
  · exact .plain (plain_positionValue _)
  · dsimp only
    split
    · exact .plain trivial
    · exact .plain trivial
  · rfl

end Looking

/-! ## Changing an object -/

section Changing

variable {h : Heap} {more : List Value} {a b c : Value} {key : String}

theorem acts_setProperty (hb : b ∈ more) :
    h.Acts true (a :: more) (h.setProperty a key b) := by
  have hvalue : h.Supplied (a :: more) b := .argument (List.mem_cons_of_mem _ hb)
  cases a with
  | table id =>
    exact .setsEntries rfl rfl
      (Table.of_getElem?_insert hvalue fun _ _ hw => .entry hw) hvalue
  | _ => exact .fails rfl

theorem acts_set (hc : c ∈ more) : h.Acts true (a :: more) (h.set a b c) := by
  have hvalue : h.Supplied (a :: more) c := .argument (List.mem_cons_of_mem _ hc)
  cases a with
  | array id =>
      refine acts_check (toIndex_error rfl) fun index _ => ?_
      refine acts_check orOutOfBounds_error fun place _ => ?_
      refine .setsItems rfl rfl (fun w hw => ?_) hvalue
      split at hw
      · rcases Array.mem_push.mp hw with hold | rfl
        · exact .item hold
        · exact hvalue
      · rcases Array.mem_or_eq_of_mem_setIfInBounds hw with hold | rfl
        · exact .item hold
        · exact hvalue
  | table id => exact acts_check (toKey_error rfl) fun key _ => acts_setProperty hc
  | _ => exact .fails rfl

theorem acts_push (hb : b ∈ more) : h.Acts true (a :: more) (h.push a b) := by
  have hvalue : h.Supplied (a :: more) b := .argument (List.mem_cons_of_mem _ hb)
  cases a with
  | array id =>
      refine .setsItems rfl rfl (fun w hw => ?_) hvalue
      rcases Array.mem_push.mp hw with hold | rfl
      · exact .item hold
      · exact hvalue
  | _ => exact .fails rfl

theorem acts_pop : h.Acts true (a :: more) (h.pop a) := by
  cases a with
  | array id =>
      exact .setsItems rfl rfl (fun w hw => .item (mem_of_mem_pop hw)) (supplied_back? rfl)
  | _ => exact .fails rfl

theorem acts_insert (hc : c ∈ more) : h.Acts true (a :: more) (h.insert a b c) := by
  have hvalue : h.Supplied (a :: more) c := .argument (List.mem_cons_of_mem _ hc)
  cases a with
  | array id =>
      refine acts_check (toIndex_error rfl) fun index _ => ?_
      refine acts_check orOutOfBounds_error fun place _ => ?_
      refine .setsItems rfl rfl (fun w hw => ?_) hvalue
      have hcases : (w ∈ (h.items id).take place ∨ w = c) ∨ w ∈ (h.items id).drop place := by
        simpa [insertAt] using hw
      rcases hcases with (hold | rfl) | hold
      · exact .item (mem_of_mem_extract hold)
      · exact hvalue
      · exact .item (mem_of_mem_extract hold)
  | _ => exact .fails rfl

theorem acts_delete : h.Acts true (a :: more) (h.delete a b) := by
  cases a with
  | array id =>
      refine acts_check (toIndex_error rfl) fun index _ => ?_
      refine acts_check orOutOfBounds_error fun place _ => ?_
      refine .setsItems rfl rfl (fun w hw => ?_) (supplied_getD id place)
      have hcases : w ∈ (h.items id).take place ∨ w ∈ (h.items id).drop (place + 1) := by
        simpa [eraseAt] using hw
      rcases hcases with hold | hold
      · exact .item (mem_of_mem_extract hold)
      · exact .item (mem_of_mem_extract hold)
  | table id =>
      refine acts_check (toKey_error rfl) fun key _ => ?_
      refine .setsEntries rfl rfl (fun k w hw => ?_) (supplied_entry id key)
      rw [Table.getElem?_erase] at hw
      split at hw
      · cases hw
      · exact .entry hw
  | _ => exact .fails rfl

theorem acts_clear : h.Acts true (a :: more) (.of (h.clear a)) := by
  have hself : h.Supplied (a :: more) a := .argument List.mem_cons_self
  cases a with
  | array id => exact .setsItems rfl rfl (fun w hw => by simp at hw) hself
  | table id => exact .setsEntries rfl rfl (fun k w hw => by simp at hw) hself
  | _ => exact .gives (.plain trivial)

end Changing

/-! ## Making a new object -/

section Making

variable {h : Heap} {more : List Value} {a b c : Value}

theorem plain_sortedKeys (t : Table) : forall w, w ∈ sortedKeys t -> w.Plain := by
  intro w hw
  have hkey : exists k, k ∈ t.orderedKeys ∧ Value.text k = w := by
    simpa [sortedKeys] using hw
  rcases hkey with ⟨k, -, rfl⟩
  trivial

theorem acts_keys : h.Acts false (a :: more) (h.keys a) := by
  cases a with
  | table id => exact .makesArray fun w hw => .plain (plain_sortedKeys _ w hw)
  | _ => exact .fails rfl

theorem acts_slice : h.Acts false (a :: more) (h.slice a b c) := by
  cases a with
  | text s => exact acts_check sliceBounds_error fun bounds _ => .gives (.plain trivial)
  | array id =>
      exact acts_check sliceBounds_error fun bounds _ =>
        .makesArray fun w hw => .item (mem_of_mem_extract hw)
  | _ => exact .fails rfl

theorem acts_copy : h.Acts false (a :: more) (.of (h.copy a)) := by
  cases a with
  | array id => exact .makesArray fun w hw => .item hw
  | table id => exact .makesTable fun k w hw => .entry hw
  | _ => exact .gives (.argument List.mem_cons_self)

theorem tableOfPairs_supplied {args vs : List Value} {t : Table}
    (hvs : forall v, v ∈ vs -> v ∈ args)
    (ht : forall (k : String) w, t[k]? = some w -> h.Supplied args w) :
    (forall f, tableOfPairs vs t = .error f -> f.internal = false) ∧
      forall t', tableOfPairs vs t = .ok t' ->
        forall (k : String) w, t'[k]? = some w -> h.Supplied args w := by
  fun_induction tableOfPairs vs t with
  | case1 key value rest t ih =>
      refine ih (fun v hv => hvs v (by simp [hv])) (Table.of_getElem?_insert ?_ ht)
      exact .argument (hvs value (by simp))
  | case2 key value rest t hkey =>
      constructor
      · intro f hf
        cases hf
        rfl
      · intro t' ht'
        cases ht'
  | case3 =>
      constructor
      · intro f hf
        cases hf
      · intro t' ht'
        cases ht'
        exact ht

theorem acts_tableOf {vs : List Value} : h.Acts false vs (h.tableOf vs) := by
  have hempty : forall (k : String) w, ({} : Table)[k]? = some w -> h.Supplied vs w := by
    intro k w hw
    simp at hw
  have hpairs := tableOfPairs_supplied (fun v hv => hv) hempty
  exact acts_check hpairs.1 fun t ht => .makesTable (hpairs.2 t ht)

end Making

/-! ## Iterations -/

theorem plain_characters (s : String) : forall w, w ∈ characters s -> w.Plain := by
  intro w hw
  have hchar : exists c, c ∈ s.toList ∧ Value.text (String.ofList [c]) = w := by
    simpa [characters] using hw
  rcases hchar with ⟨c, -, rfl⟩
  trivial

/-- The items of an iteration come from collections. -/
theorem supplied_iteration {h : Heap} {object keys key value : Value} {index : Nat}
    (hitem : h.iteration object keys index = some (key, value)) :
    h.Supplied [] key ∧ h.Supplied [] value := by
  unfold iteration at hitem
  split at hitem
  · rcases Option.map_eq_some_iff.mp hitem with ⟨v, hv, heq⟩
    cases heq
    exact ⟨.plain trivial, .item (Array.mem_of_getElem? hv)⟩
  · rcases Option.map_eq_some_iff.mp hitem with ⟨k, hk, heq⟩
    split at heq
    · cases heq
      exact ⟨.plain trivial, supplied_entry _ _⟩
    · cases heq
      exact ⟨.item (Array.mem_of_getElem? hk), .plain trivial⟩
  · rcases Option.map_eq_some_iff.mp hitem with ⟨v, hv, heq⟩
    cases heq
    exact ⟨.plain trivial, .item (Array.mem_of_getElem? hv)⟩
  · cases hitem

end Heap

/-! ## Operations by name -/

section ByName

variable {h : Heap} {a b c : Value}

def UnaryOp.writes : UnaryOp -> Bool
  | pop | clear => true
  | _ => false

def BinaryOp.writes : BinaryOp -> Bool
  | push | delete => true
  | _ => false

def TernaryOp.writes : TernaryOp -> Bool
  | set | insert => true
  | slice => false

theorem UnaryOp.acts (op : UnaryOp) : h.Acts op.writes [a] (op.apply h a) := by
  cases op with
  | negate | bitNot =>
      apply Heap.Finds.answer
      cases a <;> first
        | rfl
        | exact .plain trivial
  | not | type | toText => exact .gives (.plain trivial)
  | pop => exact Heap.acts_pop
  | len => exact Heap.finds_len.answer
  | keys => exact Heap.acts_keys
  | clear => exact Heap.acts_clear
  | copy => exact Heap.acts_copy
  | toInteger => exact Heap.finds_toInteger.answer
  | toFloat => exact Heap.finds_toFloat.answer

theorem BinaryOp.acts (op : BinaryOp) : h.Acts op.writes [a, b] (op.apply h a b) := by
  cases op with
  | arith op => exact (Heap.finds_operator op).answer
  | compare op => exact (Heap.finds_comparison op).answer
  | get => exact Heap.finds_get.answer
  | push => exact Heap.acts_push List.mem_cons_self
  | delete => exact Heap.acts_delete
  | has => exact Heap.finds_has.answer
  | index => exact Heap.finds_index.answer

theorem TernaryOp.acts (op : TernaryOp) : h.Acts op.writes [a, b, c] (op.apply h a b c) := by
  cases op with
  | set => exact Heap.acts_set (by simp)
  | insert => exact Heap.acts_insert (by simp)
  | slice => exact Heap.acts_slice

end ByName
end StackScript
