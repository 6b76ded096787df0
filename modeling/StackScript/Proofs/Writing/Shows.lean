import StackScript.Proofs.Writing.Sheet

/-!
# What a sheet shows

A sheet shows a text, a pool and ranges.  Each operation on it adds a few lines, and some of the
forward jumps in them are filled in while the others wait.  Taking code back is safe: no jump that
has been filled in and no end of a range lies behind what is left, and constants and lines stay
where they are.
-/

namespace StackScript

/-! ## Pools -/

/-- Each constant has its place in the pool as soon as it has been mentioned. -/
def Places (k : Variable.Index) (cs : List Value) : Prop :=
  forall xs ys, cs = xs ++ ys -> forall v, v ∈ xs -> k v < (poolOf xs).size

theorem Places.left {k : Variable.Index} {cs ds : List Value} (h : Places k (cs ++ ds)) :
    Places k cs := by
  rintro xs ys rfl
  exact h xs (ys ++ ds) (List.append_assoc xs ys ds)

theorem Places.lt {k : Variable.Index} {cs : List Value} (h : Places k cs) {v : Value}
    (hv : v ∈ cs) : k v < (poolOf cs).size :=
  h cs [] (List.append_nil cs).symm v hv

theorem places_poolOf (cs : List Value) : Places (poolOf cs).idxOf cs := by
  rintro xs ys rfl v hv
  rcases poolOf_prefix xs ys with ⟨rest, hrest⟩
  have hmem : v ∈ (poolOf xs).toList := by simpa using mem_poolOf.mpr hv
  have hlt := List.idxOf_lt_length_of_mem hmem
  have hindex (pool : Array Value) : pool.idxOf v = pool.toList.idxOf v := by
    rw [← List.idxOf_toArray]
  show (poolOf (xs ++ ys)).idxOf v < _
  rw [hindex, ← hrest, List.idxOf_append_of_mem hmem]
  exact hlt

/-! ## Texts of sheets -/

structure Cut.Clean (c : Cut) : Prop where
  /-- Just the read of the local and the integer are taken back, with their lines. -/
  removed : exists readLine line,
    c.code.instrs = (c.code.truncate c.mark).instrs ++
      #[.getLocal c.slot, .literal (.int c.amount)] ∧
    c.code.lines = (c.code.truncate c.mark).lines ++ #[readLine, line]
  aligned : (c.code.truncate c.mark).instrs.size = c.mark ∧
    (c.code.truncate c.mark).lines.size = c.mark
  constants : (c.code.truncate c.mark).constants = c.code.constants ∧
    forall i, i ∈ c.code.instrs -> forall j, i.constant? = some j -> j < c.code.constants.size
  targets : forall ip (i : Instr) t, c.code.instrs[ip]? = some i -> i.jumpTarget? ip = some t ->
    t <= c.mark
  bounds : forall r, r ∈ c.ranges -> r.start <= c.mark ∧ r.stop <= c.mark

/-- The sheet has the text, the pool of the constants so far and the ranges so far.  Nothing leads
behind its end, and it has an increment where code was taken back and nowhere else. -/
structure Sheet.Shows (s : Sheet) (text : Lines) (cs : List Value) (rs : List TryRange) : Prop where
  instrs : s.code.instrs.toList = text.map Prod.fst
  lines : s.code.lines.toList = text.map Prod.snd
  pool : s.code.constants = poolOf cs
  ranges : s.ranges = chain rs
  head : s.head = before? rs.length
  targets : forall ip (x : Instr × Nat) t, text[ip]? = some x -> x.1.jumpTarget? ip = some t ->
    t <= text.length
  bounds : forall r, r ∈ rs -> r.start <= text.length ∧ r.stop <= text.length
  known : forall x, x ∈ text -> forall j, x.1.constant? = some j -> j < (poolOf cs).size
  clean : forall c, c ∈ s.cuts -> c.Clean ∧ c.code.constants.toList <+: (poolOf cs).toList
  increments : forall ip slot n, (exists line, text[ip]? = some (.increment slot n, line)) ↔
    exists c, c ∈ s.cuts ∧ c.mark = ip ∧ c.slot = slot ∧ c.amount = n

/-- An instruction that leads no further than behind itself, whatever its offset, that uses no
constant behind the end of the pool and that is no increment. -/
structure Instr.Settles (pool : Nat) (i : Instr) : Prop where
  forward : i.isForward = false
  target : forall ip t, i.jumpTarget? ip = some t -> t <= ip + 1
  constant : forall j, i.constant? = some j -> j < pool
  increment : forall slot n, i ≠ .increment slot n

/-- Whether an instruction is settled in front of any pool. -/
def Instr.isPlain : Instr -> Bool
  | constant _ | defineGlobal _ | getGlobal _ | setGlobal _ | getProperty _ | setProperty _
  | increment _ _ | jump _ | jumpIfFalse _ | jumpIfTrue _ | forBegin _ _ _ => false
  | _ => true

theorem Instr.jumpTarget?_le {i : Instr} (h : i.isForward = false) {ip t : Nat}
    (ht : i.jumpTarget? ip = some t) : t <= ip + 1 := by
  cases i with
  | loop | forNext =>
      simp only [jumpTarget?, Option.ite_none_right_eq_some, Option.some.injEq] at ht
      lia
  | jump | jumpIfFalse | jumpIfTrue | forBegin => cases h
  | _ => cases ht

theorem Instr.settles_of_isPlain {i : Instr} (h : i.isPlain = true) (pool : Nat) :
    i.Settles pool := by
  have hforward : i.isForward = false := by cases i <;> first | rfl | cases h
  refine ⟨hforward, fun _ _ => jumpTarget?_le hforward, ?_, ?_⟩
  · cases i <;> first | (cases h; done) | exact nofun
  · rintro slot n rfl
    cases h

theorem Instr.settles_of_constant {i : Instr} {j pool : Nat} (hi : i.constant? = some j)
    (hj : j < pool) : i.Settles pool := by
  have hforward : i.isForward = false := by cases i <;> first | rfl | cases hi
  refine ⟨hforward, fun _ _ => jumpTarget?_le hforward, ?_, ?_⟩
  · intro j' hj'
    rw [hi] at hj'
    cases hj'
    exact hj
  · rintro slot n rfl
    cases hi

theorem Instr.jumpTarget?_aim (i : Instr) (n ip : Nat) :
    (i.aim n).jumpTarget? ip = if i.isForward then some (ip + 1 + n) else i.jumpTarget? ip := by
  cases i <;> rfl

@[simp] theorem Instr.constant?_aim (i : Instr) (n : Nat) : (i.aim n).constant? = i.constant? := by
  cases i <;> rfl

theorem Instr.aim_eq_increment_iff {i : Instr} {n slot : Nat} {amount : Int64} :
    i.aim n = .increment slot amount ↔ i = .increment slot amount := by
  cases i <;> simp [Instr.aim]

theorem Variable.settles_get {k : Variable.Index} {v : Variable} {pool : Nat}
    (h : forall c, c ∈ v.constants -> k c < pool) : (v.get k).Settles pool := by
  cases v with
  | slot n => exact Instr.settles_of_isPlain rfl pool
  | global name => exact Instr.settles_of_constant rfl (h _ (List.mem_singleton_self _))

theorem Variable.settles_set {k : Variable.Index} {v : Variable} {pool : Nat}
    (h : forall c, c ∈ v.constants -> k c < pool) : (v.set k).Settles pool := by
  cases v with
  | slot n => exact Instr.settles_of_isPlain rfl pool
  | global name => exact Instr.settles_of_constant rfl (h _ (List.mem_singleton_self _))

theorem forwardJumps_eq_nil {ip : Nat} {lines : Lines}
    (h : forall x, x ∈ lines -> x.1.isForward = false) : forwardJumps ip lines = [] := by
  refine List.eq_nil_iff_forall_not_mem.mpr fun j hj => ?_
  rcases (mem_forwardJumps.mp hj).2 with ⟨i, line, hi, hforward⟩
  rw [h _ (List.mem_of_getElem? hi)] at hforward
  cases hforward

theorem Code.foldl_write_eq (lines : Lines) (c : Code) :
    lines.foldl (fun c x => c.write x.1 x.2) c = { c with
      instrs := c.instrs ++ (lines.map Prod.fst).toArray
      lines := c.lines ++ (lines.map Prod.snd).toArray } := by
  induction lines generalizing c with
  | nil => simp
  | cons x lines ih =>
      rw [List.foldl_cons, ih]
      simp [Code.write]

namespace Sheet.Shows

variable {s t : Sheet} {text : Lines} {cs : List Value} {rs : List TryRange}

theorem size (h : s.Shows text cs rs) : s.size = text.length := by
  have hlength := congrArg List.length h.instrs
  simpa [Sheet.size, Code.size] using hlength

theorem ranges_size (h : s.Shows text cs rs) : s.ranges.size = rs.length := by
  rw [h.ranges]
  simp [chain]

/-- New lines lead no further than behind themselves. -/
theorem write (h : s.Shows text cs rs) {lines : Lines}
    (htargets : forall x, x ∈ lines -> forall ip t, x.1.jumpTarget? ip = some t -> t <= ip + 1)
    (hknown : forall x, x ∈ lines -> forall j, x.1.constant? = some j -> j < (poolOf cs).size)
    (hother : forall x, x ∈ lines -> forall slot n, x.1 ≠ .increment slot n) :
    (s.write lines).Shows (text ++ lines) cs rs := by
  have hgrows : text.length <= (text ++ lines).length := by simp
  refine ⟨?_, ?_, ?_, h.ranges, h.head, ?_, ?_, ?_, h.clean, ?_⟩
  · rw [Sheet.write, Code.foldl_write_eq]
    simp [h.instrs]
  · rw [Sheet.write, Code.foldl_write_eq]
    simp [h.lines]
  · rw [Sheet.write, Code.foldl_write_eq]
    exact h.pool
  · intro ip x t hx ht
    have hip : ip < (text ++ lines).length := (List.getElem?_eq_some_iff.mp hx).1
    rw [List.getElem?_append] at hx
    split at hx
    · exact Nat.le_trans (h.targets ip x t hx ht) hgrows
    · exact Nat.le_trans (htargets x (List.mem_of_getElem? hx) ip t ht) hip
  · intro r hr
    have hbounds := h.bounds r hr
    exact ⟨Nat.le_trans hbounds.1 hgrows, Nat.le_trans hbounds.2 hgrows⟩
  · exact List.forall_mem_append.mpr ⟨h.known, hknown⟩
  · intro ip slot n
    refine Iff.trans ?_ (h.increments ip slot n)
    rw [List.getElem?_append]
    split
    · rfl
    · rename_i hip
      have hnone : text[ip]? = none := List.getElem?_eq_none (Nat.le_of_not_lt hip)
      rw [hnone]
      refine ⟨?_, by rintro ⟨line, ⟨⟩⟩⟩
      rintro ⟨line, hx⟩
      exact absurd rfl (hother _ (List.mem_of_getElem? hx) slot n)

theorem hole (h : s.Shows text cs rs) {i : Instr} (hi : i.isForward = true)
    (haim : i.aim 0 = i) (line : Nat) : (s.hole i line).Shows (text ++ [(i, line)]) cs rs := by
  have htarget (ip : Nat) : i.jumpTarget? ip = some (ip + 1) := by
    rw [← haim, Instr.jumpTarget?_aim, if_pos hi]
  have hconstant : i.constant? = none := by cases i <;> first | rfl | cases hi
  have hwrite : (s.write [(i, line)]).Shows (text ++ [(i, line)]) cs rs := by
    refine h.write ?_ ?_ ?_ <;> rw [List.forall_mem_singleton]
    · intro ip t ht
      rw [htarget] at ht
      cases ht
      exact Nat.le_refl _
    · rw [hconstant]
      exact nofun
    · rintro slot n rfl
      cases hi
  exact { hwrite with }

theorem fill (h : s.Shows text cs rs) (ip : Nat) :
    (s.fill ip).Shows (aimAt text.length text ip) cs rs := by
  have hentry (j : Nat) : (aimAt text.length text ip)[j]? = text[j]?.map fun x =>
      if ip = j then (x.1.aim (text.length - (ip + 1)), x.2) else x := by
    simp only [aimAt, List.getElem?_modify]
    cases text[j]? with
    | none => rfl
    | some x => by_cases hj : ip = j <;> simp [hj]
  refine ⟨?_, ?_, h.pool, h.ranges, h.head, ?_, ?_, ?_, h.clean, ?_⟩
  · refine List.ext_getElem? fun j => ?_
    have hold := congrArg (fun l => l[j]?) h.instrs
    simp only [List.getElem?_map] at hold
    rw [List.getElem?_map, hentry]
    simp only [Sheet.fill, Array.toList_modify, List.getElem?_modify, hold, h.size]
    cases text[j]? with
    | none => rfl
    | some x => by_cases hj : ip = j <;> simp [hj]
  · refine List.ext_getElem? fun j => ?_
    have hold := congrArg (fun l => l[j]?) h.lines
    simp only [List.getElem?_map] at hold
    rw [List.getElem?_map, hentry]
    refine hold.trans ?_
    cases text[j]? with
    | none => rfl
    | some x => by_cases hj : ip = j <;> simp [hj]
  · intro j x t hx ht
    rw [length_aimAt]
    rw [hentry] at hx
    rcases Option.map_eq_some_iff.mp hx with ⟨y, hy, rfl⟩
    have hlt : j < text.length := (List.getElem?_eq_some_iff.mp hy).1
    split at ht
    · rename_i hj
      subst hj
      rw [Instr.jumpTarget?_aim] at ht
      split at ht
      · cases ht
        lia
      · exact h.targets ip y t hy ht
    · exact h.targets j y t hy ht
  · rw [length_aimAt]
    exact h.bounds
  · intro x hx j hj
    rcases List.mem_iff_getElem?.mp hx with ⟨place, hplace⟩
    rw [hentry] at hplace
    rcases Option.map_eq_some_iff.mp hplace with ⟨y, hy, rfl⟩
    refine h.known y (List.mem_of_getElem? hy) j ?_
    split at hj
    · rwa [Instr.constant?_aim] at hj
    · exact hj
  · intro j slot n
    refine Iff.trans ?_ (h.increments j slot n)
    rw [hentry]
    cases text[j]? with
    | none => simp
    | some x =>
        rcases x with ⟨i, line⟩
        by_cases hj : ip = j <;> simp [hj, Instr.aim_eq_increment_iff]

theorem fillAll (ips : List Nat) (h : s.Shows text cs rs) :
    (s.fillAll ips).Shows (ips.foldl (aimAt text.length) text) cs rs := by
  induction ips generalizing s text with
  | nil => exact h
  | cons ip ips ih =>
      have hall := ih (h.fill ip)
      rw [length_aimAt] at hall
      exact hall

theorem mention (h : s.Shows text cs rs) (vs : List Value) :
    (s.mention vs).Shows text (cs ++ vs) rs := by
  have hcode := Code.foldl_addConstant_eq vs s.code
  have hpool : (s.mention vs).code.constants = poolOf (cs ++ vs) := by
    rw [Sheet.mention, hcode, poolOf_append, h.pool]
  have hgrows : (poolOf cs).toList <+: (poolOf (cs ++ vs)).toList := poolOf_prefix cs vs
  have hle : (poolOf cs).size <= (poolOf (cs ++ vs)).size := by simpa using hgrows.length_le
  have hinstrs : (s.mention vs).code.instrs.toList = text.map Prod.fst := by
    rw [Sheet.mention, hcode]
    exact h.instrs
  have hlines : (s.mention vs).code.lines.toList = text.map Prod.snd := by
    rw [Sheet.mention, hcode]
    exact h.lines
  exact { h with
    instrs := hinstrs
    lines := hlines
    pool := hpool
    known := fun x hx j hj => Nat.lt_of_lt_of_le (h.known x hx j hj) hle
    clean := fun c hc => ⟨(h.clean c hc).1, (h.clean c hc).2.trans hgrows⟩ }

/-! ### Ranges -/

theorem chain_append_singleton (rs : List TryRange) (r : TryRange) :
    chain (rs ++ [r]) = (chain rs).push { r with next := before? rs.length } := by
  simp [chain]

theorem openRange (h : s.Shows text cs rs) (depth : Nat) :
    (s.openRange depth).Shows text cs (rs ++ [⟨text.length, 0, depth, none⟩]) := by
  have hranges : (s.openRange depth).ranges = chain (rs ++ [⟨text.length, 0, depth, none⟩]) := by
    rw [chain_append_singleton, ← h.ranges, ← h.head, ← h.size]
    rfl
  have hhead : (s.openRange depth).head =
      before? (rs ++ [(⟨text.length, 0, depth, none⟩ : TryRange)]).length := by
    show some s.ranges.size = _
    rw [h.ranges_size, List.length_append]
    rfl
  refine { h with
    ranges := hranges
    head := hhead
    bounds := List.forall_mem_append.mpr ⟨h.bounds, List.forall_mem_singleton.mpr ?_⟩ }
  exact ⟨Nat.le_refl _, Nat.zero_le _⟩

theorem closeRange {inner : List TryRange} {r : TryRange}
    (h : s.Shows text cs (rs ++ r :: inner)) :
    (s.closeRange rs.length).Shows text cs (rs ++ { r with stop := text.length } :: inner) := by
  have hranges : (s.closeRange rs.length).ranges =
      chain (rs ++ { r with stop := text.length } :: inner) := by
    apply Array.ext_getElem?
    intro j
    show (s.ranges.modify rs.length fun r => { r with stop := s.size })[j]? = _
    rw [Array.getElem?_modify, h.ranges, chain_getElem?, chain_getElem?, h.size]
    rcases Nat.lt_trichotomy j rs.length with hlt | rfl | hgt
    · have hne : rs.length ≠ j := fun heq => Nat.lt_irrefl j (heq ▸ hlt)
      simp [List.getElem?_append_left hlt, hne]
    · simp
    · have hne : rs.length ≠ j := fun heq => Nat.lt_irrefl j (heq ▸ hgt)
      have hpos : j - rs.length = (j - rs.length - 1) + 1 := by lia
      rw [List.getElem?_append_right (Nat.le_of_lt hgt),
        List.getElem?_append_right (Nat.le_of_lt hgt), hpos]
      simp [hne]
  have hhead : s.head = before? (rs ++ { r with stop := text.length } :: inner).length := by
    rw [h.head]
    simp
  have hold := List.forall_mem_append.mp h.bounds
  have hinner := List.forall_mem_cons.mp hold.2
  refine { h with
    ranges := hranges
    head := hhead
    bounds := List.forall_mem_append.mpr ⟨hold.1, List.forall_mem_cons.mpr ⟨?_, hinner.2⟩⟩ }
  exact ⟨hinner.1.1, Nat.le_refl _⟩

/-! ### Code that is taken back -/

section Cut

variable {n readLine intLine : Nat} {i : Int64}

/-- What stands in front of the read of a local and an integer. -/
theorem truncate_eq
    (ht : t.Shows (text ++ [(.getLocal n, readLine), (.literal (.int i), intLine)]) cs rs) :
    t.code.truncate text.length = { t.code with
      instrs := (text.map Prod.fst).toArray, lines := (text.map Prod.snd).toArray } ∧
    t.code.instrs = (text.map Prod.fst).toArray ++ #[Instr.getLocal n, .literal (.int i)] ∧
    t.code.lines = (text.map Prod.snd).toArray ++ #[readLine, intLine] := by
  have hinstrs : t.code.instrs =
      (text.map Prod.fst).toArray ++ #[Instr.getLocal n, .literal (.int i)] := by
    apply Array.toList_inj.mp
    rw [ht.instrs]
    simp
  have hlines : t.code.lines = (text.map Prod.snd).toArray ++ #[readLine, intLine] := by
    apply Array.toList_inj.mp
    rw [ht.lines]
    simp
  refine ⟨?_, hinstrs, hlines⟩
  simp [Code.truncate, hinstrs, hlines]

theorem clean_cut (h : s.Shows text cs rs)
    (ht : t.Shows (text ++ [(.getLocal n, readLine), (.literal (.int i), intLine)]) cs rs) :
    Cut.Clean ⟨text.length, n, i, t.code, t.ranges⟩ := by
  rcases ht.truncate_eq with ⟨hfront, hinstrs, hlines⟩
  refine ⟨⟨readLine, intLine, ?_, ?_⟩, ?_, ⟨rfl, ?_⟩, ?_, ?_⟩
  · rw [hfront]
    exact hinstrs
  · rw [hfront]
    exact hlines
  · rw [hfront]
    simp
  · intro x hx j hj
    show j < t.code.constants.size
    rw [ht.pool]
    rw [← Array.mem_toList_iff, ht.instrs] at hx
    rcases List.mem_map.mp hx with ⟨y, hy, rfl⟩
    exact ht.known y hy j hj
  · intro ip x target hx htarget
    have hx' : (t.code.instrs.toList)[ip]? = some x := by simpa using hx
    rw [ht.instrs, List.getElem?_map] at hx'
    rcases Option.map_eq_some_iff.mp hx' with ⟨y, hy, rfl⟩
    rw [List.getElem?_append] at hy
    split at hy
    · exact h.targets ip y target hy htarget
    · have hmem := List.mem_of_getElem? hy
      simp only [List.mem_cons, List.not_mem_nil, or_false] at hmem
      rcases hmem with rfl | rfl <;> cases htarget
  · intro r hr
    rw [ht.ranges] at hr
    rcases Array.mem_iff_getElem?.mp hr with ⟨j, hj⟩
    rw [chain_getElem?] at hj
    rcases Option.map_eq_some_iff.mp hj with ⟨r', hr', rfl⟩
    exact h.bounds r' (List.mem_of_getElem? hr')

/-- An increment at the end is one more cut. -/
theorem increments_cut (h : s.Shows text cs rs) (hcuts : t.cuts = s.cuts) (line ip slot : Nat)
    (amount : Int64) :
    (exists line', (text ++ [((.increment n i : Instr), line)])[ip]? =
      some (.increment slot amount, line')) ↔
    exists c, c ∈ (t.cut text.length n i).cuts ∧ c.mark = ip ∧ c.slot = slot ∧
      c.amount = amount := by
  have hcons : (exists c, c ∈ (t.cut text.length n i).cuts ∧ c.mark = ip ∧ c.slot = slot ∧
      c.amount = amount) ↔ (text.length = ip ∧ n = slot ∧ i = amount) ∨
        exists c, c ∈ s.cuts ∧ c.mark = ip ∧ c.slot = slot ∧ c.amount = amount := by
    rw [← hcuts]
    simp [Sheet.cut]
  rw [hcons, ← h.increments ip slot amount, List.getElem?_append]
  rcases Nat.lt_trichotomy ip text.length with hlt | rfl | hgt
  · have hne : text.length ≠ ip := fun heq => Nat.lt_irrefl ip (heq ▸ hlt)
    simp [hlt, hne]
  · simp
  · have hge : ¬ ip < text.length := Nat.not_lt.mpr (Nat.le_of_lt hgt)
    have hne : text.length ≠ ip := fun heq => Nat.lt_irrefl ip (heq ▸ hgt)
    have hpos : ip - text.length ≠ 0 := Nat.sub_ne_zero_of_lt hgt
    simp [hge, hne, hpos]

/-- Code is taken back when just the read of a local and an integer have been written. -/
theorem cut (h : s.Shows text cs rs)
    (ht : t.Shows (text ++ [(.getLocal n, readLine), (.literal (.int i), intLine)]) cs rs)
    (hcuts : t.cuts = s.cuts) (line : Nat) :
    ((t.cut text.length n i).write [(.increment n i, line)]).Shows
      (text ++ [(.increment n i, line)]) cs rs := by
  rcases ht.truncate_eq with ⟨hfront, -, -⟩
  have hcode : ((t.cut text.length n i).write [(.increment n i, line)]).code = { t.code with
      instrs := (text.map Prod.fst).toArray ++ #[.increment n i]
      lines := (text.map Prod.snd).toArray ++ #[line] } := by
    show (t.code.truncate text.length).write (.increment n i) line = _
    rw [hfront]
    simp [Code.write]
  have hgrows : text.length <= (text ++ [((.increment n i : Instr), line)]).length := by simp
  refine ⟨?_, ?_, ?_, ht.ranges, ht.head, ?_, ?_, ?_, ?_, h.increments_cut hcuts line⟩
  · rw [hcode]
    simp
  · rw [hcode]
    simp
  · rw [hcode]
    exact ht.pool
  · intro ip x target hx htarget
    rw [List.getElem?_append] at hx
    split at hx
    · exact Nat.le_trans (h.targets ip x target hx htarget) hgrows
    · rw [List.mem_singleton.mp (List.mem_of_getElem? hx)] at htarget
      cases htarget
  · intro r hr
    have hbounds := h.bounds r hr
    exact ⟨Nat.le_trans hbounds.1 hgrows, Nat.le_trans hbounds.2 hgrows⟩
  · exact List.forall_mem_append.mpr ⟨h.known, List.forall_mem_singleton.mpr nofun⟩
  · intro c hc
    rcases List.mem_cons.mp hc with rfl | hc
    · refine ⟨h.clean_cut ht, ?_⟩
      exact ht.pool ▸ List.prefix_refl t.code.constants.toList
    · rw [hcuts] at hc
      exact h.clean c hc

end Cut

end Sheet.Shows

end StackScript
