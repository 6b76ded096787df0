import StackScript.Proofs.Assignment.Alike

/-!
# What an assignment stores

An assignment with an operator leaves one value more on the stack, and it is the one that was
stored: the receiver and the key lie below while the right side is evaluated, whatever it calls.
-/

namespace StackScript

/-! ## Instructions that store -/

namespace Heap

variable {h h' : Heap} {object key v w : Value} {name : String}

/-- Storing a value answers with it. -/
theorem eq_of_setProperty (hset : h.setProperty object name w = .ok v h') : v = w := by
  cases object with
  | table id =>
      cases hset
      rfl
  | _ => cases hset

theorem of_check_ok {α : Type} {x : Except Fault α} {next : α -> Answer}
    (hx : h.check x next = .ok v h') : exists a, next a = .ok v h' := by
  cases x with
  | error f => cases hx
  | ok a => exact ⟨a, hx⟩

theorem eq_of_set (hset : h.set object key w = .ok v h') : v = w := by
  unfold set at hset
  cases object with
  | array id =>
      rcases of_check_ok hset with ⟨index, hplace⟩
      rcases of_check_ok hplace with ⟨place, hdone⟩
      cases hdone
      rfl
  | table id =>
      rcases of_check_ok hset with ⟨name, hdone⟩
      exact eq_of_setProperty hdone
  | _ => cases hset

end Heap

theorem Effect.of_andThen_none {A B : Effect} {m x : Machine} (h : A.andThen B m none x) :
    exists y, A m none y ∧ B y none x := by
  rcases h with hboth | ⟨w, hw, -⟩
  · exact hboth
  · cases hw

namespace Seat

variable {S : Seat} {height : Nat -> Nat} {known : Nat -> Prop} {k : Variable.Index}
variable {n h ip : Nat} {m x : Machine} {op : Operator} {o i e : Expr} {line : Nat}

/-- An expression leaves one value more, and the operands that wait for it. -/
theorem Places.evaluates (hp : S.Places height known k n h ip e) (hk : S.function.Keeps height)
    (hs : S.Stands height ip m) (hx : S.evaluates k ip e m none x) :
    S.Stands height (ip + e.size) x ∧ x.stack.size = m.stack.size + 1 ∧
      forall j, S.Apart n h j -> x.stack[j]? = m.stack[j]? := by
  unfold Seat.evaluates piece at hx
  rw [List.length_map, Expr.length_code] at hx
  rcases hp.calm.runs hk (Nat.le_add_right _ _) hs hx with ⟨hstands, hstack⟩
  refine ⟨hstands, ?_, hstack⟩
  have hstart := HeightsAt.start hp.heights
  rw [hstands.size, hs.size, hp.stop, hstart, Nat.add_assoc]

theorem of_acts_ok {act : Exec Unit} (h : S.acts act m none x) :
    exists m', act (m.within (S.frame 0)) = .ok () m' ∧ x = { m' with frames := m.frames } := by
  unfold acts at h
  split at h
  · exact ⟨_, ‹_›, h.2⟩
  · cases h.1

/-- An instruction that writes into no slot leaves what lies below its operands. -/
theorem Stands.step {i : Instr} (hs : S.Stands height ip m) (hk : S.function.Keeps height)
    (hi : S.function.code.instrs[ip]? = some i) (hmoves : i.moves = false)
    (hopens : i.opens = false) (hwrites : i.writes = []) (hx : S.does i m none x) :
    S.Stands height (ip + 1) x ∧ x.stack.size + i.taken = m.stack.size + i.given ∧
      forall j, j + i.taken < m.stack.size -> x.stack[j]? = m.stack[j]? := by
  have hfits := hk.instrs ip i hi
  have hreach := hfits.operands
  have htaken := i.taken_le_reach
  have hcalm : S.Calm height 0 (height ip - i.taken) ip (ip + 1) := by
    have hsame {p : Nat} {i' : Instr} (hlo : ip <= p) (hhi : p < ip + 1)
        (hi' : S.function.code.instrs[p]? = some i') : p = ip ∧ i' = i := by
      have hp : p = ip := Nat.le_antisymm (Nat.le_of_lt_succ hhi) hlo
      subst hp
      rw [hi] at hi'
      cases hi'
      exact ⟨rfl, rfl⟩
    refine ⟨fun p i' hlo hhi hi' => ?_, fun p i' hlo hhi hi' => ?_, fun p i' hlo hhi hi' t ht => ?_⟩
    · rcases hsame hlo hhi hi' with ⟨rfl, rfl⟩
      lia
    · rcases hsame hlo hhi hi' with ⟨rfl, rfl⟩
      intro s hs
      rw [hwrites] at hs
      cases hs
    · rcases hsame hlo hhi hi' with ⟨rfl, rfl⟩
      have hstays : i'.StaysWithin 0 := Instr.staysWithin_of_moves hmoves
      have hsucc := hstays.successors ht
      lia
  have hruns := (runs_single hs.isIn hi hmoves hopens).mpr hx
  rcases hcalm.runs hk (Nat.le_succ ip) hs hruns with ⟨hstands, hstack⟩
  have hret : i ≠ .ret := by
    rintro rfl
    cases hmoves
  rcases of_acts_ok hx with ⟨m1, hstep, rfl⟩
  have hcounts := (Exec.stays_of_step rfl hfits.loopVars hopens hret hstep).size
  have hsize := hs.size
  have hsame : (m.within (S.frame 0)).stack.size = m.stack.size := rfl
  refine ⟨hstands, ?_, fun j hj => hstack j ⟨?_, fun s hs => absurd hs s.not_lt_zero⟩⟩
  · show m1.stack.size + i.taken = _
    lia
  · lia

/-- Storing a property puts the value in place of itself and the object. -/
theorem of_does_setProperty {c : Nat} {key : String} (hs : S.In m)
    (hkey : S.function.code.constants[c]? = some (.text key))
    (h : S.does (.setProperty c) m none x) :
    exists (s : Array Value) (object w : Value) (heap : Heap), m.stack = (s.push object).push w ∧
      m.heap.setProperty object key w = .ok w heap ∧
      x = { m with heap := heap, stack := s.push w } := by
  rcases of_acts_ok h with ⟨m1, hstep, rfl⟩
  have hname : Exec.name c (m.within (S.frame 0)) = .ok key (m.within (S.frame 0)) := by
    refine Exec.name_apply (f := S.frame 0) rfl ?_
    rw [show (m.within (S.frame 0)).heap.function (S.frame 0).function = S.function from
      hs.on.function]
    exact hkey
  rw [Exec.step, Exec.bind_ok hname] at hstep
  rcases Exec.of_bind_ok hstep with ⟨w, m2, hpop, hstep⟩
  rcases Exec.of_pop_ok hpop with ⟨t, ht, rfl⟩
  rcases Exec.of_bind_ok hstep with ⟨object, m3, hpop, hstep⟩
  rcases Exec.of_pop_ok hpop with ⟨s, hbelow, rfl⟩
  rcases Exec.of_bind_ok hstep with ⟨v, m4, hperform, hpush⟩
  rcases Exec.of_perform_ok hperform with ⟨heap, hset, rfl⟩
  cases hpush
  have hv := Heap.eq_of_setProperty hset
  subst hv
  have hu : t = s.push object := hbelow
  refine ⟨s, object, v, heap, ?_, hset, rfl⟩
  rw [← hu]
  exact ht

/-- Storing an element puts the value in place of itself, the object and the key. -/
theorem of_does_set (h : S.does (.ternary .set) m none x) :
    exists (s : Array Value) (object key w : Value) (heap : Heap),
      m.stack = ((s.push object).push key).push w ∧
      m.heap.set object key w = .ok w heap ∧
      x = { m with heap := heap, stack := s.push w } := by
  rcases of_acts_ok h with ⟨m1, hstep, rfl⟩
  rw [Exec.step] at hstep
  rcases Exec.of_bind_ok hstep with ⟨w, m2, hpop, hstep⟩
  rcases Exec.of_pop_ok hpop with ⟨t, ht, rfl⟩
  rcases Exec.of_bind_ok hstep with ⟨key, m3, hpop, hstep⟩
  rcases Exec.of_pop_ok hpop with ⟨u, hu, rfl⟩
  rcases Exec.of_bind_ok hstep with ⟨object, m4, hpop, hstep⟩
  rcases Exec.of_pop_ok hpop with ⟨s, hbelow, rfl⟩
  rcases Exec.of_bind_ok hstep with ⟨v, m5, hperform, hpush⟩
  rcases Exec.of_perform_ok hperform with ⟨heap, hset, rfl⟩
  cases hpush
  have hv := Heap.eq_of_set hset
  subst hv
  have hkey : t = u.push key := hu
  have hobject : u = s.push object := hbelow
  refine ⟨s, object, key, v, heap, ?_, hset, rfl⟩
  rw [← hobject, ← hkey]
  exact ht

/-- The places of the receiver and the right side of an assignment to a property. -/
theorem Places.ofProperty {key : String} {opLine : Nat}
    (hp : S.Places height known k n h ip (.updateProperty o key op opLine e line)) :
    S.Places height known k n h ip o ∧
      S.Places height known k n (h + 2) (ip + o.size + 2) e := by
  have hcode := hp.code
  have hh := hp.heights
  have hk := hp.constants
  have hsize := hp.inside
  have hle := hp.le
  simp only [Expr.heights, along_append, along_cons, Expr.length_heights, List.append_assoc,
    List.cons_append] at hh
  simp only [Expr.constants, indexed_append, indexed_cons] at hk
  rw [Expr.size] at hsize
  rw [Expr.instrs_updateProperty] at hcode
  rcases hh with ⟨ho, hdup, hget, he, hop, -⟩
  exact ⟨⟨hp.pos, hle, hp.within.1, hcode.left, hk.1, by lia, ho, hdup⟩,
    ⟨hp.pos, by lia, hp.within.2, hcode.behind.tail.tail.left, hk.2.2, by lia, he, hop⟩⟩

/-- The places of the receiver, the key and the right side of an assignment to an element. -/
theorem Places.ofItem {opLine : Nat}
    (hp : S.Places height known k n h ip (.updateItem o i op opLine e line)) :
    S.Places height known k n h ip o ∧ S.Places height known k n (h + 1) (ip + o.size) i ∧
      S.Places height known k n (h + 3) (ip + o.size + i.size + 2) e := by
  have hcode := hp.code
  have hh := hp.heights
  have hk := hp.constants
  have hsize := hp.inside
  have hle := hp.le
  simp only [Expr.heights, along_append, along_cons, Expr.length_heights, List.append_assoc,
    List.cons_append] at hh
  simp only [Expr.constants, indexed_append] at hk
  rw [Expr.size] at hsize
  rw [Expr.instrs_updateItem] at hcode
  rcases hh with ⟨ho, hi, hdup, hget, he, hop, -⟩
  exact ⟨⟨hp.pos, hle, hp.within.1, hcode.left, hk.1.1, by lia, ho, HeightsAt.start hi⟩,
    ⟨hp.pos, by lia, hp.within.2.1, hcode.behind.left, hk.1.2, by lia, hi, hdup⟩,
    ⟨hp.pos, by lia, hp.within.2.2, hcode.behind.behind.tail.tail.left, hk.2, by lia, he, hop⟩⟩

theorem Has.head {i : Instr} {code : List Instr} (h : S.Has ip (i :: code)) :
    S.function.code.instrs[ip]? = some i :=
  h 0 i rfl

/-- The right side and the operator put the new value in place of the old one. -/
theorem Places.combines {y z : Machine} (hp : S.Places height known k n h ip e)
    (hi : S.function.code.instrs[ip + e.size]? = some (.binary (.arith op)))
    (hk : S.function.Keeps height) (hs : S.Stands height ip m) (hy : S.evaluates k ip e m none y)
    (hz : S.does (.binary (.arith op)) y none z) :
    S.Stands height (ip + e.size + 1) z ∧ z.stack.size = m.stack.size ∧
      forall j, S.base + n <= j -> j + 1 < m.stack.size -> z.stack[j]? = m.stack[j]? := by
  rcases hp.evaluates hk hs hy with ⟨hsy, hsizey, hstacky⟩
  rcases hsy.step hk hi rfl rfl rfl hz with ⟨hsz, hsizez, hstackz⟩
  simp only [Instr.taken, Instr.given] at hsizez hstackz
  refine ⟨hsz, by lia, fun j hlo hhi => ?_⟩
  have hm := hs.size
  rw [HeightsAt.start hp.heights] at hm
  rw [hstackz j (by lia)]
  exact hstacky j ⟨by lia, fun s hs => by lia⟩

/-- The value of an expression lies where the top was in front of it. -/
theorem Places.value (hp : S.Places height known k n h ip e) (hk : S.function.Keeps height)
    (hs : S.Stands height ip m) (hx : S.evaluates k ip e m none x) :
    S.Stands height (ip + e.size) x ∧ x.stack.size = m.stack.size + 1 ∧
      m.stack.size = S.base + h ∧
      exists v, x.stack.back? = some v ∧ x.stack[m.stack.size]? = some v := by
  rcases hp.evaluates hk hs hx with ⟨hstands, hsize, -⟩
  have hpos : 0 < x.stack.size := by
    rw [hsize]
    exact Nat.succ_pos _
  rcases Array.exists_push_of_size_pos hpos with ⟨s, v, hstack⟩
  have hplace : s.size = m.stack.size := by
    rw [hstack, Array.size_push] at hsize
    exact Nat.succ.inj hsize
  refine ⟨hstands, hsize, ?_, v, ?_, ?_⟩
  · rw [hs.size, HeightsAt.start hp.heights]
  · rw [hstack, Array.back?_push]
  · rw [hstack, ← hplace]
    exact Array.getElem?_push_size

/-- The value that an assignment to a property leaves is the one that was stored there. -/
theorem updateProperty_stores {key : String} {opLine : Nat} (hk : S.function.Keeps height)
    (hp : S.Places height known k n h ip (.updateProperty o key op opLine e line))
    (hs : S.Stands height ip m)
    (hx : S.evaluates k ip (.updateProperty o key op opLine e line) m none x) :
    exists (y : Machine) (object w : Value) (heap : Heap), S.evaluates k ip o m none y ∧
      y.stack.back? = some object ∧ heap.setProperty object key w = .ok w x.heap ∧
      x.stack.back? = some w := by
  rcases hp.ofProperty with ⟨hpo, hpe⟩
  have hcode := hp.code
  rw [Expr.instrs_updateProperty] at hcode
  have hchain := (evaluates_updateProperty hs.isIn hp.code).mp hx
  rcases Effect.of_andThen_none hchain with ⟨y, hy, hchain⟩
  rcases Effect.of_andThen_none hchain with ⟨y1, hdup, hchain⟩
  rcases Effect.of_andThen_none hchain with ⟨y2, hget, hchain⟩
  rcases Effect.of_andThen_none hchain with ⟨y3, he, hchain⟩
  rcases Effect.of_andThen_none hchain with ⟨y4, hop, hset⟩
  rcases hpo.value hk hs hy with ⟨hsy, hsizey, hm, object, hback, hobject⟩
  rcases hsy.step hk hcode.behind.head rfl rfl rfl hdup with ⟨hs1, hsize1, hstack1⟩
  rcases hs1.step hk hcode.behind.tail.head rfl rfl rfl hget with ⟨hs2, hsize2, hstack2⟩
  simp only [Instr.taken, Instr.given] at hsize1 hstack1 hsize2 hstack2
  rcases hpe.combines hcode.behind.tail.tail.behind.head hk hs2 he hop with ⟨hs4, hsize4, hstack4⟩
  have hkept : y4.stack[m.stack.size]? = some object := by
    have hle := hp.le
    rw [hstack4 _ (by lia) (by lia), hstack2 _ (by lia), hstack1 _ (by lia), hobject]
  rcases of_does_setProperty hs4.isIn (hp.constants _ (by simp [Expr.constants])) hset with
    ⟨t, object', w, heap, ht, hstored, rfl⟩
  have hsame : object' = object := by
    have hplace' : t.size = m.stack.size := by
      rw [ht, Array.size_push, Array.size_push] at hsize4
      lia
    rw [ht, ← hplace', Array.getElem?_push_lt (by simp), Array.getElem_push_eq] at hkept
    exact Option.some.inj hkept
  subst hsame
  exact ⟨y, object', w, _, hy, hback, hstored, Array.back?_push⟩

theorem getElem?_operands {t : Array Value} {a b c : Value} :
    (((t.push a).push b).push c)[t.size]? = some a ∧
      (((t.push a).push b).push c)[t.size + 1]? = some b := by
  grind

/-- The value that an assignment to an element leaves is the one that was stored there. -/
theorem updateItem_stores {opLine : Nat} (hk : S.function.Keeps height)
    (hp : S.Places height known k n h ip (.updateItem o i op opLine e line))
    (hs : S.Stands height ip m)
    (hx : S.evaluates k ip (.updateItem o i op opLine e line) m none x) :
    exists (y z : Machine) (object key w : Value) (heap : Heap), S.evaluates k ip o m none y ∧
      y.stack.back? = some object ∧ S.evaluates k (ip + o.size) i y none z ∧
      z.stack.back? = some key ∧ heap.set object key w = .ok w x.heap ∧
      x.stack.back? = some w := by
  rcases hp.ofItem with ⟨hpo, hpi, hpe⟩
  have hcode := hp.code
  rw [Expr.instrs_updateItem] at hcode
  have hchain := (evaluates_updateItem hs.isIn hp.code).mp hx
  rcases Effect.of_andThen_none hchain with ⟨y, hy, hchain⟩
  rcases Effect.of_andThen_none hchain with ⟨z, hz, hchain⟩
  rcases Effect.of_andThen_none hchain with ⟨y1, hdup, hchain⟩
  rcases Effect.of_andThen_none hchain with ⟨y2, hget, hchain⟩
  rcases Effect.of_andThen_none hchain with ⟨y3, he, hchain⟩
  rcases Effect.of_andThen_none hchain with ⟨y4, hop, hset⟩
  rcases hpo.value hk hs hy with ⟨hsy, hsizey, hm, object, hback, hobject⟩
  rcases hpi.value hk hsy hz with ⟨hsz, hsizez, -, key, hbackz, hkey⟩
  have hkeptz := (hpi.evaluates hk hsy hz).2.2
  have hdups := hcode.behind.behind
  rcases hsz.step hk hdups.head rfl rfl rfl hdup with ⟨hs1, hsize1, hstack1⟩
  rcases hs1.step hk hdups.tail.head rfl rfl rfl hget with ⟨hs2, hsize2, hstack2⟩
  simp only [Instr.taken, Instr.given] at hsize1 hstack1 hsize2 hstack2
  rcases hpe.combines hdups.tail.tail.behind.head hk hs2 he hop with ⟨hs4, hsize4, hstack4⟩
  have hle := hp.le
  have hkept : y4.stack[m.stack.size]? = some object := by
    rw [hstack4 _ (by lia) (by lia), hstack2 _ (by lia), hstack1 _ (by lia),
      hkeptz _ ⟨by lia, fun s hs => by lia⟩, hobject]
  have hkept' : y4.stack[y.stack.size]? = some key := by
    rw [hstack4 _ (by lia) (by lia), hstack2 _ (by lia), hstack1 _ (by lia), hkey]
  rcases of_does_set hset with ⟨t, object', key', w, heap, ht, hstored, rfl⟩
  have hplace' : t.size = m.stack.size := by
    simp only [ht, Array.size_push] at hsize4
    lia
  have hoperands : y4.stack[t.size]? = some object' ∧ y4.stack[t.size + 1]? = some key' := by
    rw [ht]
    exact getElem?_operands
  have hsame : object' = object := by
    rw [hplace', hkept] at hoperands
    exact (Option.some.inj hoperands.1).symm
  have hsame' : key' = key := by
    rw [hplace', ← hsizey, hkept'] at hoperands
    exact (Option.some.inj hoperands.2).symm
  subst hsame hsame'
  exact ⟨y, z, object', key', w, _, hy, hback, hz, hbackz, hstored, Array.back?_push⟩

theorem of_peek_zero_ok {m1 : Machine} {w : Value} (h : Exec.peek 0 m = .ok w m1) :
    m1 = m ∧ exists s : Array Value, m.stack = s.push w := by
  rcases Nat.eq_zero_or_pos m.stack.size with hzero | hpos
  · unfold Exec.peek at h
    rw [Exec.bind_ok Exec.get_apply, if_neg (by lia)] at h
    cases h
  · rcases Array.exists_push_of_size_pos hpos with ⟨s, v, hs⟩
    rw [Exec.peek_zero_apply hs] at h
    cases h
    exact ⟨rfl, s, hs⟩

theorem back?_setIfInBounds_push {s : Array Value} {w : Value} {i : Nat} :
    ((s.push w).setIfInBounds i w).back? = some w := by
  grind

/-- The value that is put into a variable stays on the stack. -/
theorem of_does_set_variable {v : Variable} (hs : S.In m) (hk : Indexed S.function k v.constants)
    (h : S.does (v.set k) m none x) :
    exists w, x.stack.back? = some w ∧ (Atom.named v).look S.base x = .ok w := by
  rcases of_acts_ok h with ⟨m1, hstep, rfl⟩
  cases v with
  | slot slot =>
      rcases Exec.of_bind_ok hstep with ⟨w, m2, hpeek, hset⟩
      rcases of_peek_zero_ok hpeek with ⟨rfl, s, hstack⟩
      rcases Exec.of_setLocal_ok (f := S.frame 0) rfl hset with ⟨hlt, rfl⟩
      refine ⟨w, ?_, ?_⟩
      · show ((m.within (S.frame 0)).stack.setIfInBounds (S.base + slot) w).back? = some w
        rw [hstack]
        exact back?_setIfInBounds_push
      · have hslot : (m.stack.setIfInBounds (S.base + slot) w)[S.base + slot]? = some w :=
          Array.getElem?_setIfInBounds_self_of_lt hlt
        exact Atom.look_slot hslot
  | global name =>
      have hconstant := hk (.text name) (List.mem_singleton_self _)
      rw [← hs.on.function] at hconstant
      have hname : Exec.name (k (.text name)) (m.within (S.frame 0)) = _ :=
        Exec.name_apply (f := S.frame 0) rfl hconstant
      change (Exec.name (k (.text name)) >>= fun x => Exec.peek 0 >>= fun w =>
        Exec.setGlobal x w) _ = _ at hstep
      rw [Exec.bind_ok hname] at hstep
      rcases Exec.of_bind_ok hstep with ⟨w, m2, hpeek, hset⟩
      rcases of_peek_zero_ok hpeek with ⟨rfl, s, hstack⟩
      unfold Exec.setGlobal at hset
      rw [Exec.bind_ok Exec.get_apply] at hset
      split at hset
      · cases hset
        refine ⟨w, ?_, ?_⟩
        · show (m.within (S.frame 0)).stack.back? = some w
          rw [hstack, Array.back?_push]
        · exact Atom.look_global (by simp)
      · cases hset

/-- The value that an assignment to a variable leaves is the one that the variable has. -/
theorem update_stores {v : Variable} {opLine : Nat} (hs : S.In m)
    (h : S.Holds k ip (.update v op opLine e line))
    (hx : S.evaluates k ip (.update v op opLine e line) m none x) :
    exists w, x.stack.back? = some w ∧ (Atom.named v).look S.base x = .ok w := by
  have hcode := h.code
  unfold Seat.evaluates at hx
  cases hinc : increment? v op e with
  | some found =>
      rcases found with ⟨slot, i⟩
      rcases increment?_some hinc with ⟨rfl, rfl, eLine, rfl⟩
      have hdoes := (piece_single hs hcode rfl rfl).mp hx
      rcases of_acts_ok hdoes with ⟨m1, hstep, rfl⟩
      rcases Exec.of_bind_ok hstep with ⟨w, m2, hadd, hpush⟩
      cases hpush
      unfold Exec.incrementLocal at hadd
      rcases Exec.of_bind_ok hadd with ⟨old, m3, hold, hadd⟩
      rcases Exec.of_bind_ok hadd with ⟨new, m4, hperform, hadd⟩
      rcases Exec.of_bind_ok hadd with ⟨_, m5, hset, hpure⟩
      cases hpure
      have hframes : m4.frames = S.frame 0 :: m.frames := by
        rcases Exec.of_perform_ok hperform with ⟨heap, -, rfl⟩
        rw [Exec.of_getLocal_ok rfl hold]
        rfl
      rcases Exec.of_setLocal_ok hframes hset with ⟨hlt, rfl⟩
      refine ⟨w, Array.back?_push, Atom.look_push (a := .named (.slot slot)) (w := w) ?_⟩
      have hslot : (m4.stack.setIfInBounds (S.base + slot) w)[S.base + slot]? = some w :=
        Array.getElem?_setIfInBounds_self_of_lt hlt
      exact Atom.look_slot hslot
  | none =>
      rw [Expr.code, hinc] at hcode hx
      have hlist : ((v.get k, opLine) :: e.code k ++
          [(.binary (.arith op), line), (v.set k, line)]).map Prod.fst =
            v.get k :: ((e.code k).map Prod.fst ++ [.binary (.arith op), v.set k]) := by
        simp
      rw [hlist] at hcode hx
      have hget := Atom.moves_instr (.named v) k
      have hset : (v.set k).moves = false := by cases v <;> rfl
      have hopens : (v.set k).opens = false := by cases v <;> rfl
      rcases Effect.of_andThen_none ((piece_cons hs hcode hget
        (Atom.opens_instr (.named v) k)).mp hx) with ⟨y, hy, hrest⟩
      have hsy := hs.of_does hget hy
      rcases Effect.of_andThen_none ((piece_combine hsy hset hopens hcode.tail).mp hrest) with
        ⟨z, hz, hrest⟩
      have hsz := hsy.of_evaluates hcode.tail hz
      rcases Effect.of_andThen_none hrest with ⟨y1, hop, hstore⟩
      refine of_does_set_variable (hsz.of_does rfl hop) (fun w hw => ?_) hstore
      exact h.constants w (List.mem_append_left _ hw)

end Seat

/-! ## Targets that are read again -/

namespace Atom

variable {a : Atom} {k : Variable.Index} {m x : Machine} {v w : Value}

/-- A slot below the top is read as before the top was pushed. -/
theorem look_of_push {base : Nat}
    (hslot : forall s, a = named (.slot s) -> base + s < m.stack.size)
    (h : a.look base { m with stack := m.stack.push w } = .ok v) : a.look base m = .ok v := by
  rcases a with (s | name) | l | text
  · have hget := Array.getElem?_eq_getElem (hslot s rfl)
    have hpush := look_push (w := w) (look_slot hget)
    rw [h] at hpush
    cases hpush
    exact look_slot hget
  · exact h
  · exact h
  · exact h

/-- What is read by one instruction is on top of the stack then. -/
theorem look_of_evaluates {S : Seat} {ip line : Nat} (hs : S.In m)
    (hcode : S.Has ip (((a.expr line).code k).map Prod.fst))
    (hk : Indexed S.function k (a.expr line).constants)
    (hx : S.evaluates k ip (a.expr line) m none x) :
    exists w, a.look S.base m = .ok w ∧ x = { m with stack := m.stack.push w } := by
  unfold Seat.evaluates at hx
  rw [code_expr] at hcode hx
  rw [constants_expr] at hk
  exact Seat.look_of_does hs hk
    ((Seat.piece_single hs hcode (a.moves_instr k) (a.opens_instr k)).mp hx)

end Atom

namespace Target

variable {S : Seat} {height : Nat -> Nat} {known : Nat -> Prop} {k : Variable.Index}
variable {n h ip : Nat} {m x : Machine} {op : Operator} {e u : Expr} {t : Target}

/-- A value has been stored in the target: a variable has it, and what the receiver was in front of
the assignment has been given it last. -/
def Stored (base : Nat) (m x : Machine) (w : Value) : Target -> Prop
  | named v => (Atom.named v).look base x = .ok w
  | property r key => exists object heap, (Atom.named r).look base m = .ok object ∧
      Heap.setProperty heap object key w = .ok w x.heap
  | item r i => exists object key heap, (Atom.named r).look base m = .ok object ∧
      i.look base m = .ok key ∧ Heap.set heap object key w = .ok w x.heap

/-- The assignment with an operator leaves the value that it stored. -/
theorem stored_of_updated (hu : t.Updated op e u) (hk : S.function.Keeps height)
    (hp : S.Places height known k n h ip u) (hs : S.Stands height ip m)
    (hx : S.evaluates k ip u m none x) :
    exists w, x.stack.back? = some w ∧ t.Stored S.base m x w := by
  cases hu with
  | named v opLine line => exact Seat.update_stores hs.isIn ⟨hp.code, hp.constants⟩ hx
  | property r key rLine opLine line =>
      rcases Seat.updateProperty_stores hk hp hs hx with
        ⟨y, object, w, heap, hy, hback, hset, htop⟩
      rcases hp.ofProperty with ⟨hpr, -⟩
      rcases Atom.look_of_evaluates (a := .named r) hs.isIn hpr.code hpr.constants hy with
        ⟨object', hlook, rfl⟩
      cases (Array.back?_push ..).symm.trans hback
      exact ⟨w, htop, object, heap, hlook, hset⟩
  | item r i rLine iLine opLine line =>
      rcases Seat.updateItem_stores hk hp hs hx with
        ⟨y, z, object, key, w, heap, hy, hback, hz, hbackz, hset, htop⟩
      rcases hp.ofItem with ⟨hpr, hpi, -⟩
      rcases Atom.look_of_evaluates (a := .named r) hs.isIn hpr.code hpr.constants hy with
        ⟨object', hlook, rfl⟩
      cases (Array.back?_push ..).symm.trans hback
      have hsy := (hpr.evaluates hk hs hy).1
      rcases Atom.look_of_evaluates hsy.isIn hpi.code hpi.constants hz with ⟨key', hlook', rfl⟩
      cases (Array.back?_push ..).symm.trans hbackz
      refine ⟨w, htop, object, key, heap, hlook, Atom.look_of_push ?_ hlook', hset⟩
      rintro s rfl
      have hslot : s < n := hpi.within
      have hsize := hs.size
      have hstart := HeightsAt.start hpr.heights
      have hle := hpr.le
      lia

end Target

/-- An expression that is a statement of a compiled function has its place there. -/
theorem Seat.exists_places {S : Seat} {name script : Option String} {arity line : Nat}
    {body : Stmt} {known : Nat -> Prop} {e : Expr} {ip eLine : Nat}
    (hfits : body.Fits known none (arity + 1) (arity + 1))
    (hfunction : S.function = assemble name script arity body line)
    (hpart : (Stmt.expr e eLine).Part ip 0 body) :
    exists n, S.Places (bodyHeight arity body) known (poolOf body.constants).idxOf n n ip e := by
  have hcode : CodeAt (assemble name script arity body line) 0 (bodyLines body line) :=
    codeAt_assemble name script line
  have hplaced : body.Placed (assemble name script arity body line) _ _ _ _ _ _ _ _ :=
    assemble_placed name script line hfits
  simp only [bodyLines, along_append] at hcode
  rw [← hfunction] at hcode hplaced
  rcases hpart.placed hplaced hcode.1 with ⟨loop, floor, n, x, hexpr, hline⟩
  exact ⟨n, hexpr.places hline⟩

/-- A call that goes on for some turns, with or without calls above it, raises nothing and is at an
index then, comes to it. -/
theorem Machine.Outcome.of_run {outer : List Frame} {stop n : Nat} {m x : Machine}
    (hrun : m.run n = (.running, x))
    (hgoes : forall i, i < n -> (exists above f, (m.run i).2.frames = above ++ f :: outer ∧
      (above = [] -> f.ip ≠ stop)) ∧ (m.run i).2.raised? = none)
    (hat : x.IsAt outer stop) : m.Outcome outer stop none { x with frames := outer } := by
  induction n generalizing m with
  | zero =>
      cases hrun
      exact .arrives hat
  | succ n ih =>
      rcases hgoes 0 (Nat.succ_pos n) with ⟨⟨above, f, hf, hip⟩, hraised⟩
      rcases htick : m.tick with ⟨status, m'⟩
      cases status with
      | running =>
          have hrest := Machine.run_succ_of_tick htick
          rw [hrest] at hrun
          have hnext : exists inner g, m'.frames = inner ++ g :: outer := by
            cases n with
            | zero =>
                cases hrun
                exact ⟨[], _, hat.choose_spec.1⟩
            | succ n =>
                rcases (hgoes 1 (by lia)).1 with ⟨inner, g, hg, -⟩
                rw [hrest] at hg
                exact ⟨inner, g, hg⟩
          rcases hnext with ⟨inner, g, hg⟩
          refine .goes ?_ ⟨htick, inner, g, hg, fun _ => hraised⟩ (ih hrun fun i hi => ?_)
          · rintro ⟨f', hf', hip'⟩
            have hsame : above ++ f :: outer = [] ++ f' :: outer := hf.symm.trans hf'
            have hempty : above = [] := by
              have hlength := congrArg List.length hsame
              simp only [List.length_append, List.length_cons, List.length_nil] at hlength
              exact List.eq_nil_of_length_eq_zero (by lia)
            subst hempty
            cases hsame
            exact hip rfl hip'
          · rw [← hrest]
            exact hgoes (i + 1) (Nat.succ_lt_succ hi)
      | _ =>
          rw [Machine.run, htick] at hrun
          cases hrun

/-! ## Assignments with an operator -/

/-- An assignment with an operator to a variable, or to a property or an element that is named by
variables and literals, does from any machine what the plain assignment does that reads the target
once more: it ends in the same machine or throws the same value in the same one.  It leaves one
value more on the stack, the one that it stored, and the operands below stay.  Whatever the receiver
and the key are, they are evaluated once, then the old value is read, and then the right side is
evaluated. -/
theorem updates_do_as_assignments :
    (forall (t : Target) (op : Operator) (e u a : Expr), t.Updated op e u -> t.Assigned op e a ->
      (forall before behind,
        poolOf (before ++ u.constants ++ behind) = poolOf (before ++ a.constants ++ behind)) ∧
      (forall (S S' : Seat) (m : Machine) (k : Variable.Index) (ip ip' : Nat), S.In m -> S'.In m ->
        S.Like S' -> S.Holds k ip u -> S'.Holds k ip' a ->
        forall v x, S.evaluates k ip u m v x ↔ S'.evaluates k ip' a m v x) ∧
      (forall (S : Seat) (height : Nat -> Nat) (known : Nat -> Prop) (k : Variable.Index)
        (n h ip : Nat) (m x : Machine), S.function.Keeps height ->
        S.Places height known k n h ip u -> S.Stands height ip m ->
        S.evaluates k ip u m none x -> x.stack.size = m.stack.size + 1 ∧
          (forall j, S.Apart n h j -> x.stack[j]? = m.stack[j]?) ∧
          exists w, x.stack.back? = some w ∧ t.Stored S.base m x w)) ∧
    (forall (S : Seat) (m : Machine) (k : Variable.Index) (ip : Nat) (o e : Expr) (key : String)
      (op : Operator) (opLine line : Nat), S.In m ->
      S.Has ip (((Expr.updateProperty o key op opLine e line).code k).map Prod.fst) ->
      forall v x, S.evaluates k ip (.updateProperty o key op opLine e line) m v x ↔
        (S.evaluates k ip o).andThen ((S.does .duplicate).andThen
          ((S.does (.getProperty (k (.text key)))).andThen
            ((S.evaluates k (ip + o.size + 2) e).andThen ((S.does (.binary (.arith op))).andThen
              (S.does (.setProperty (k (.text key)))))))) m v x) ∧
    (forall (S : Seat) (m : Machine) (k : Variable.Index) (ip : Nat) (o i e : Expr)
      (op : Operator) (opLine line : Nat), S.In m ->
      S.Has ip (((Expr.updateItem o i op opLine e line).code k).map Prod.fst) ->
      forall v x, S.evaluates k ip (.updateItem o i op opLine e line) m v x ↔
        (S.evaluates k ip o).andThen ((S.evaluates k (ip + o.size) i).andThen
          ((S.does .duplicatePair).andThen ((S.does (.binary .get)).andThen
            ((S.evaluates k (ip + o.size + i.size + 2) e).andThen
              ((S.does (.binary (.arith op))).andThen (S.does (.ternary .set))))))) m v x) := by
  refine ⟨fun t op e u a hu ha => ⟨Target.pool_updated hu ha, ?_, ?_⟩, ?_, ?_⟩
  · intro S S' m k ip ip' hs hs' hlike h h' v x
    exact Target.updated_iff_assigned hu ha hs hs' hlike h h'
  · intro S height known k n h ip m x hk hp hs hx
    rcases hp.evaluates hk hs hx with ⟨-, hsize, hstack⟩
    exact ⟨hsize, hstack, Target.stored_of_updated hu hk hp hs hx⟩
  · intro S m k ip o e key op opLine line hs h v x
    exact Seat.evaluates_updateProperty hs h
  · intro S m k ip o i e op opLine line hs h v x
    exact Seat.evaluates_updateItem hs h

/-! ## A right side that assigns to the target -/

def selfUpdating : String :=
  "let r = \x7b k: 1 \x7d r.k += (r.k = 2) r.k = r.k + (r.k = 2) r[\"k\"] *= 3"

namespace SelfUpdating

/-- The right side of both assignments to the property. -/
def value : Expr :=
  .setProperty (.read (.global "r") 1) "k" (.literal (.int 2) 1) 1

def updated : Expr :=
  .updateProperty (.read (.global "r") 1) "k" .add 1 value 1

def assigned : Expr :=
  .setProperty (.read (.global "r") 1) "k"
    (.binary (.arith .add) (.property (.read (.global "r") 1) "k" 1) value 1) 1

def scaled : Expr :=
  .updateItem (.read (.global "r") 1) (.text "k" 1) .multiply 1 (.literal (.int 3) 1) 1

def body : Stmt :=
  .seq (.define "r" (.table [.text "k" 1, .literal (.int 1) 1] 1) 1)
    (.seq (.expr updated 1) (.seq (.expr assigned 1) (.seq (.expr scaled 1) .skip)))

def seat : Seat :=
  ⟨0, 0, assemble none none 0 body 1⟩

/-- The machine in front of the first assignment, apart from the call. -/
def machine : Machine :=
  { ((Interpreter.begun selfUpdating).run 4).2 with frames := [] }

/-- What is seen of the script before and behind the first assignment. -/
theorem facts :
    (Interpreter.load (Interpreter.new {} Files.empty).machine none selfUpdating false).isOk =
      true ∧
    ((Interpreter.begun selfUpdating).run 4).2.frames = [⟨0, 4, 0⟩] ∧
    0 < machine.heap.functions.size ∧ machine.heap.function 0 = assemble none none 0 body 1 ∧
    machine.stack.size = 0 + bodyHeight 0 body 4 ∧
    ((machine.within (seat.frame 4)).run 8).1 = .running ∧
    ((machine.within (seat.frame 4)).run 8).2.frames = [⟨0, 12, 0⟩] ∧
    forall i, i < 8 -> ((machine.within (seat.frame 4)).run i).2.frames = [⟨0, 4 + i, 0⟩] ∧
      ((machine.within (seat.frame 4)).run i).2.raised?.isNone = true := by
  decide +kernel

theorem within_machine :
    machine.within (seat.frame 4) = ((Interpreter.begun selfUpdating).run 4).2 := by
  show ({ ((Interpreter.begun selfUpdating).run 4).2 with frames := [⟨0, 4, 0⟩] } : Machine) = _
  rw [← facts.2.1]

theorem sound : (machine.within (seat.frame 4)).Sound := by
  rw [within_machine]
  exact ((Interpreter.reachable_begun facts.1).run 4).sound

theorem seat_in : seat.In machine where
  on := ⟨facts.2.2.1, facts.2.2.2.1⟩
  steady := sound.lawful.steady

def index : Variable.Index :=
  (poolOf body.constants).idxOf

theorem fits : body.Fits (fun _ => False) none 1 1 := by
  simp [body, updated, assigned, scaled, value, Stmt.Fits, Expr.Within, Expr.AllWithin,
    Variable.Within]

theorem places {e : Expr} {ip line : Nat} (hpart : (Stmt.expr e line).Part ip 0 body) :
    exists n, seat.Places (bodyHeight 0 body) (fun _ => False) index n n ip e :=
  Seat.exists_places fits rfl hpart

theorem stands : seat.Stands (bodyHeight 0 body) 4 machine where
  sound := sound
  on := seat_in.on
  size := facts.2.2.2.2.1

/-- The machine behind the first assignment, apart from the call. -/
def updatedMachine : Machine :=
  { ((machine.within (seat.frame 4)).run 8).2 with frames := [] }

theorem evaluates_updated : seat.evaluates index 4 updated machine none updatedMachine := by
  rcases facts with ⟨-, -, -, -, -, hrunning, hframes, halone⟩
  refine Machine.Outcome.of_run (Prod.ext hrunning rfl) (fun i hi => ?_) ⟨_, hframes, rfl⟩
  rcases halone i hi with ⟨hf, hraised⟩
  have hip : 4 + i ≠ 12 := Nat.ne_of_lt (Nat.add_lt_add_left hi 4)
  exact ⟨⟨[], _, hf, fun _ => hip⟩, Option.isNone_iff_eq_none.mp hraised⟩

end SelfUpdating

open SelfUpdating in
theorem self_update_does_as_assignment :
    machine.heap.function 0 = assemble none none 0 body 1 ∧
    poolOf ([] ++ updated.constants ++ []) = poolOf ([] ++ assigned.constants ++ []) ∧
    (forall v x, seat.evaluates index 4 updated machine v x ↔
      seat.evaluates index 13 assigned machine v x) ∧
    (updatedMachine.stack.size = machine.stack.size + 1 ∧
      exists w, updatedMachine.stack.back? = some w ∧
        (Target.property (.global "r") "k").Stored 0 machine updatedMachine w) ∧
    (forall v x, seat.evaluates index 4 updated machine v x ↔
      (seat.evaluates index 4 (.read (.global "r") 1)).andThen ((seat.does .duplicate).andThen
        ((seat.does (.getProperty (index (.text "k")))).andThen
          ((seat.evaluates index 7 value).andThen ((seat.does (.binary (.arith .add))).andThen
            (seat.does (.setProperty (index (.text "k")))))))) machine v x) ∧
    (forall v x, seat.evaluates index 22 scaled machine v x ↔
      (seat.evaluates index 22 (.read (.global "r") 1)).andThen
        ((seat.evaluates index 23 (.text "k" 1)).andThen ((seat.does .duplicatePair).andThen
          ((seat.does (.binary .get)).andThen
            ((seat.evaluates index 26 (.literal (.int 3) 1)).andThen
              ((seat.does (.binary (.arith .multiply))).andThen (seat.does (.ternary .set)))))))
          machine v x) := by
  rcases places (.second (.first .whole) : (Stmt.expr updated 1).Part 4 0 body) with ⟨n, hp⟩
  rcases places (.second (.second (.first .whole)) : (Stmt.expr assigned 1).Part 13 0 body) with
    ⟨n', hp'⟩
  rcases places (.second (.second (.second (.first .whole))) :
    (Stmt.expr scaled 1).Part 22 0 body) with ⟨_, hscaled⟩
  have hkeeps : seat.function.Keeps (bodyHeight 0 body) :=
    assemble_keeps none none 1 fits
  have hall := updates_do_as_assignments
  rcases hall.1 (.property (.global "r") "k") .add value updated assigned (.property _ _ 1 1 1)
    (.property _ _ 1 1 1 1 1) with ⟨hpool, hsame, hstored⟩
  rcases hstored seat _ _ index _ _ 4 machine updatedMachine hkeeps hp stands evaluates_updated with
    ⟨hsize, -, hvalue⟩
  refine ⟨seat_in.on.function, hpool [] [], ?_, ⟨hsize, hvalue⟩, ?_, ?_⟩
  · exact hsame seat seat machine index 4 13 seat_in seat_in (.refl seat)
      ⟨hp.code, hp.constants⟩ ⟨hp'.code, hp'.constants⟩
  · exact hall.2.1 seat machine index 4 _ value "k" .add 1 1 seat_in hp.code
  · exact hall.2.2 seat machine index 22 _ _ _ .multiply 1 1 seat_in hscaled.code

/-! ## A right side that takes what waits below it -/

/-- Takes the value below itself from its caller. -/
def taker : Function where
  code := { instrs := #[.pop, .pop, .literal (.int 5), .ret] }

def taking : String :=
  "let f = host() let c = 2 if f \x7b let x = 1 c += f() \x7d"

namespace Taking

def value : Expr :=
  .call (.read (.global "f") 1) [] 1

def updated : Expr :=
  .update (.global "c") .add 1 value 1

def body : Stmt :=
  .seq (.define "f" (.call (.read (.global "host") 1) [] 1) 1)
    (.seq (.define "c" (.literal (.int 2) 1) 1)
      (.seq (.cond (.read (.global "f") 1) 1
        (.seq (.seq (.bind (.literal (.int 1) 1)) (.seq (.expr updated 1) .skip)) (.drop 1 1)) 1
        .skip) .skip))

def seat : Seat :=
  ⟨0, 0, assemble none none 0 body 1⟩

/-- The machine in front of the assignment, with a function that no compiler has made. -/
def start : Machine :=
  let host := (Interpreter.new {} Files.empty).addNative "host" (Native.giving taker)
  (((Interpreter.load host.machine none taking false).toOption.getD default).run 9).2

def machine : Machine :=
  { start with frames := [] }

def index : Variable.Index :=
  (poolOf body.constants).idxOf

theorem facts :
    start.frames = [⟨0, 9, 0⟩] ∧ machine.heap.function 0 = assemble none none 0 body 1 ∧
    machine.stack.size = 2 ∧ (start.run 9).1 = .running ∧ (start.run 9).2.frames = [⟨0, 14, 0⟩] ∧
    (start.run 9).2.stack.size = 2 ∧
    forall i, i < 9 -> ((start.run i).2.frames.getLast?.any fun f => f.ip != 14) = true ∧
      (start.run i).2.raised?.isNone = true := by
  decide +kernel

theorem within_machine : machine.within (seat.frame 9) = start := by
  show ({ start with frames := [⟨0, 9, 0⟩] } : Machine) = _
  rw [← facts.1]

theorem evaluates_updated :
    seat.evaluates index 9 updated machine none { (start.run 9).2 with frames := [] } := by
  rcases facts with ⟨-, -, -, hrunning, hframes, -, hgoes⟩
  show (machine.within (seat.frame 9)).Outcome [] 14 none _
  rw [within_machine]
  refine Machine.Outcome.of_run (Prod.ext hrunning rfl) (fun i hi => ?_) ⟨_, hframes, rfl⟩
  rcases hgoes i hi with ⟨hlast, hraised⟩
  cases hf : (start.run i).2.frames.getLast? with
  | none =>
      rw [hf] at hlast
      cases hlast
  | some f =>
      rw [hf] at hlast
      refine ⟨⟨_, f, (List.dropLast_append_getLast? f hf).symm, fun _ => ?_⟩,
        Option.isNone_iff_eq_none.mp hraised⟩
      simpa using hlast

end Taking

open Taking in
/-- A function that no compiler has made can take the operands that wait below it, and then an
assignment with an operator leaves no value more on the stack. -/
theorem taken_operand_leaves_no_value :
    machine.heap.function 0 = assemble none none 0 body 1 ∧
    (Stmt.expr updated 1).Part 9 0 body ∧
    (Target.named (.global "c")).Updated .add value updated ∧
    exists x, seat.evaluates index 9 updated machine none x ∧
      x.stack.size ≠ machine.stack.size + 1 := by
  rcases facts with ⟨-, hfunction, hbefore, -, -, hbehind, -⟩
  refine ⟨hfunction, ?_, .named _ _ _, _, evaluates_updated, ?_⟩
  · exact .second (.second (.first (.branch (.first (.second (.first .whole))))))
  · show (start.run 9).2.stack.size ≠ _
    rw [hbefore, hbehind]
    decide

end StackScript
