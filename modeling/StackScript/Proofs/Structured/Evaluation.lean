import StackScript.Proofs.Structured.Site
import StackScript.Proofs.Structured.Tree

/-!
# The code of terms and actions

The locals of a world lie on the stack in the order of their declaration, so the slot
that the reader gives to a name holds its value.  The code of a term puts the value of
the term on top of the stack and changes nothing else, or fails with what the term
throws; the locals stay on the stack then.
-/

namespace StackScript

/-! ## Slots -/

/-- The number of entries below the first one with a name. -/
def slotOf (x : Name) : List Name -> Option Nat
  | [] => none
  | y :: rest => if y = x then some rest.length else slotOf x rest

theorem slotOf_append (x : Name) (a b : List Name) :
    slotOf x (a ++ b) =
      match slotOf x a with
      | some n => some (n + b.length)
      | none => slotOf x b := by
  induction a with
  | nil => rfl
  | cons y a ih =>
      rw [List.cons_append, slotOf, slotOf]
      split
      · simp
      · exact ih

namespace Scope

theorem resolveIn_block (x : Name) (s : List Name) (d : Nat) (rest : List Local) :
    resolveIn x.text (s.map (fun y => ⟨y.text, some d⟩) ++ rest) =
      match slotOf x s with
      | some n => .slot (n + rest.length)
      | none => resolveIn x.text rest := by
  induction s with
  | nil => rfl
  | cons y s ih =>
      have htext : y.text = x.text ↔ y = x := by
        cases x
        cases y
        simp
      rw [List.map_cons, List.cons_append, resolveIn, slotOf, ih]
      simp only [htext]
      split
      · simp
      · rfl

theorem resolveIn_labels (x : Name) (names : Phrase.Names) :
    resolveIn x.text (labels names) =
      match slotOf x names.flatten with
      | some n => .slot (n + 1)
      | none => .global := by
  induction names with
  | nil => exact resolve_script x
  | cons s outer ih =>
      rw [labels, resolveIn_block, List.flatten_cons, slotOf_append, ih, length_labels]
      cases slotOf x s <;> rfl

theorem lookIn_eq (names : Phrase.Names) (x : Name) :
    lookIn names x =
      match slotOf x names.flatten with
      | some n => .slot (n + 1)
      | none => .global x.text := by
  rw [lookIn, look, resolve, ofNames, resolveIn_labels]
  cases slotOf x names.flatten <;> rfl

end Scope

/-! ## Worlds on the stack -/

theorem assignIn_append (x : Name) (v : Value) (a b : List (Name × Value)) :
    assignIn x v (a ++ b) =
      if (a.lookup x).isSome then assignIn x v a ++ b else a ++ assignIn x v b := by
  induction a with
  | nil => rfl
  | cons e a ih =>
      rcases e with ⟨y, u⟩
      rw [List.cons_append, assignIn, assignIn, List.lookup_cons]
      by_cases hy : y = x
      · simp [hy]
      · have hne : (x == y) = false := by simpa using Ne.symm hy
        simp only [hy, hne, if_false, ih]
        split <;> rfl

/-- The slot of a name among entries holds its value, and assigning to the name sets that slot. -/
theorem slotOf_entries (x : Name) (l : List (Name × Value)) :
    (slotOf x (l.map Prod.fst) = none ∧ l.lookup x = none) ∨
      exists n v, slotOf x (l.map Prod.fst) = some n ∧ l.lookup x = some v ∧
        (l.map Prod.snd).reverse[n]? = some v ∧
        forall u, ((assignIn x u l).map Prod.snd).reverse = (l.map Prod.snd).reverse.set n u := by
  induction l with
  | nil => exact Or.inl ⟨rfl, rfl⟩
  | cons e l ih =>
      rcases e with ⟨y, u⟩
      by_cases hy : y = x
      · refine Or.inr ⟨l.length, u, ?_, ?_, ?_, ?_⟩
        · simp [slotOf, hy]
        · simp [hy]
        · simp
        · intro u'
          simp [assignIn, hy, List.set_append_right]
      · have hne : (x == y) = false := by simpa using Ne.symm hy
        rcases ih with ⟨hslot, hlookup⟩ | ⟨n, v, hslot, hlookup, hget, hset⟩
        · exact Or.inl ⟨by simpa [slotOf, hy] using hslot, by simp [List.lookup_cons, hne, hlookup]⟩
        · have hn : n < (l.map Prod.snd).reverse.length := (List.getElem?_eq_some_iff.mp hget).1
          refine Or.inr ⟨n, v, ?_, ?_, ?_, ?_⟩
          · simpa [slotOf, hy] using hslot
          · simp [List.lookup_cons, hne, hlookup]
          · rw [List.map_cons, List.reverse_cons, List.getElem?_append_left hn, hget]
          · intro u'
            rw [assignIn, if_neg hy, List.map_cons, List.map_cons, List.reverse_cons,
              List.reverse_cons, hset, List.set_append_left _ _ hn]

namespace World

def values (w : World) : List Value :=
  (w.locals.map Prod.snd).reverse

@[simp] theorem values_enter (w : World) : w.enter.values = w.values := rfl

@[simp] theorem values_print (w : World) (s : String) : (w.print s).values = w.values := rfl

@[simp] theorem values_enter_bind (w : World) (x : Name) (v : Value) :
    (w.enter.bind x v).values = w.values ++ [v] := by
  simp [values, locals, bind, enter]

theorem map_fst_locals (w : World) : w.locals.map Prod.fst = w.names.flatten := by
  simp [locals, names, List.map_flatten]

@[simp] theorem length_values (w : World) : w.values.length = w.names.flatten.length := by
  simp [values, ← map_fst_locals]

theorem flatten_assignLocal (x : Name) (v : Value) (scopes : List (List (Name × Value))) :
    (assignLocal x v scopes).flatten = assignIn x v scopes.flatten := by
  induction scopes with
  | nil => rfl
  | cons s scopes ih =>
      rw [assignLocal, List.flatten_cons, assignIn_append]
      split
      · rfl
      · rw [List.flatten_cons, ih]

/-- A name is a global, or it has a slot that holds its value. -/
theorem lookIn_cases (w : World) (x : Name) :
    (Scope.lookIn w.names x = .global x.text ∧ w.locals.lookup x = none) ∨
      exists n v, Scope.lookIn w.names x = .slot (n + 1) ∧ w.locals.lookup x = some v ∧
        w.values[n]? = some v ∧
        forall u, ({ w with scopes := assignLocal x u w.scopes } : World).values =
          w.values.set n u := by
  rw [Scope.lookIn_eq, ← map_fst_locals]
  rcases slotOf_entries x w.locals with ⟨hslot, hlookup⟩ | ⟨n, v, hslot, hlookup, hget, hset⟩
  · exact Or.inl ⟨by rw [hslot], hlookup⟩
  · refine Or.inr ⟨n, v, by rw [hslot], hlookup, hget, ?_⟩
    intro u
    rw [values, locals, flatten_assignLocal]
    exact hset u

end World

/-! ## Values and failures -/

namespace Site

/-- The next instruction throws a value.  The locals of the world are still on the stack, and the
handler is the given one. -/
def Raises (S : Site) (outer : Option (Nat × Nat)) (v : Value) (w : World) (m : Machine) : Prop :=
  exists ip us raised, w.values <+: us ∧ S.handler? ip = outer ∧
    m.tick = (S.state (ip + 1) us w).unwind v ∧ m.raised? = some raised ∧ raised.toValue = v

/-- The machine comes to the state of a result after so many instructions, or it throws in the given
world. -/
def Gives (S : Site) {α : Type} (outer : Option (Nat × Nat)) (w : World) (n : Nat) (m : Machine)
    (x : Except Value α) (post : α -> Machine) : Prop :=
  match x with
  | .ok a => m.Goes n (post a)
  | .error v => exists m', m.Goes 0 m' ∧ S.Raises outer v w m'

/-- All instructions of a piece of code have the given handler. -/
def Under (S : Site) (outer : Option (Nat × Nat)) (start stop : Nat) : Prop :=
  forall ip, start <= ip -> ip < stop -> S.handler? ip = outer

theorem Under.narrow {S : Site} {outer : Option (Nat × Nat)} {start stop start' stop' : Nat}
    (h : S.Under outer start stop) (hstart : start <= start') (hstop : stop' <= stop) :
    S.Under outer start' stop' :=
  fun ip hip hip' => h ip (Nat.le_trans hstart hip) (Nat.lt_of_lt_of_le hip' hstop)

section Rules

variable {S : Site} {α β : Type} {outer : Option (Nat × Nat)} {w : World} {n j ip stop : Nat}
variable {m m' : Machine} {us vs : List Value} {i : Instr}

theorem Gives.goes {x : Except Value α} {post : α -> Machine} (h : m.Goes n m')
    (h' : S.Gives outer w j m' x post) : S.Gives outer w n m x post := by
  cases x with
  | ok a => exact (h.trans h').lower (Nat.le_add_right n j)
  | error v =>
      rcases h' with ⟨m'', hgoes, hraises⟩
      exact ⟨m'', (h.trans hgoes).lower (Nat.zero_le _), hraises⟩

theorem Gives.bind {x : Except Value α} {f : α -> Except Value β} {post : α -> Machine}
    {post' : β -> Machine} (h : S.Gives outer w n m x post)
    (h' : forall a, x = .ok a -> S.Gives outer w j (post a) (f a) post') :
    S.Gives outer w n m (x >>= f) post' := by
  cases x with
  | ok a => exact Gives.goes h (h' a rfl)
  | error v => exact h

theorem Gives.move {x : Except Value α} {post post' : α -> Machine}
    (h : S.Gives outer w n m x post) (h' : forall a, x = .ok a -> (post a).Goes 0 (post' a)) :
    S.Gives outer w n m x post' := by
  cases x with
  | ok a => exact Machine.Goes.trans h (h' a rfl)
  | error v => exact h

theorem Gives.lower {x : Except Value α} {post : α -> Machine} (h : S.Gives outer w n m x post)
    (hn : j <= n) : S.Gives outer w j m x post := by
  cases x with
  | ok a => exact Machine.Goes.lower h hn
  | error v => exact h

theorem raises_of_step {raised : Raised} (hi : S.function.code.instrs[ip]? = some i)
    (hout : S.handler? ip = outer) (hvs : w.values <+: vs)
    (hstep : Exec.step i (S.state (ip + 1) us w) = .error raised (S.state (ip + 1) vs w)) :
    S.Raises outer raised.toValue w (S.state ip us w) := by
  rcases tick_of_error hi hstep with ⟨htick, hraised⟩
  exact ⟨ip, vs, raised, hvs, hout, htick, hraised, rfl⟩

theorem gives_error_of_step {raised : Raised} {post : α -> Machine}
    (hi : S.function.code.instrs[ip]? = some i)
    (hout : S.handler? ip = outer) (hvs : w.values <+: vs)
    (hstep : Exec.step i (S.state (ip + 1) us w) = .error raised (S.state (ip + 1) vs w)) :
    S.Gives outer w n (S.state ip us w) (.error raised.toValue) post :=
  ⟨_, Machine.Goes.refl _, raises_of_step hi hout hvs hstep⟩

/-- An instruction that answers with a value. -/
theorem gives_of_step {x : Except Fault Value} (hi : S.function.code.instrs[ip]? = some i)
    (hout : S.handler? ip = outer) (hvs : w.values <+: vs) (hstop : stop = ip + 1)
    (hstep : Exec.step i (S.state (ip + 1) us w) = S.answered (ip + 1) vs w x) :
    S.Gives outer w 1 (S.state ip us w) (thrown x) fun v => S.state stop (vs ++ [v]) w := by
  subst hstop
  cases x with
  | ok v => exact goes_of_ok hi hstep
  | error fault => exact gives_error_of_step hi hout hvs hstep

/-- Two operands and an instruction that takes both. -/
theorem Gives.pair {x y : Except Value Value} {f : Value -> Value -> Except Fault Value}
    {mid last : Nat} (hx : S.Gives outer w n m x fun a => S.state mid (us ++ [a]) w)
    (hy : forall a, S.Gives outer w j (S.state mid (us ++ [a]) w) y fun b =>
      S.state last (us ++ [a] ++ [b]) w)
    (hi : S.function.code.instrs[last]? = some i) (hout : S.handler? last = outer)
    (hus : w.values <+: us) (hstop : stop = last + 1)
    (hstep : forall a b, Exec.step i (S.state (last + 1) (us ++ [a] ++ [b]) w) =
      S.answered (last + 1) us w (f a b)) :
    S.Gives outer w n m (do
      let a ← x
      let b ← y
      thrown (f a b)) fun v => S.state stop (us ++ [v]) w :=
  hx.bind fun a _ => (hy a).bind fun b _ => gives_of_step hi hout hus hstop (hstep a b)

/-! ## Variables -/

variable {k : Variable.Index} {x : Name} {v : Value}

theorem gives_read
    (hi : S.function.code.instrs[ip]? = some ((Scope.lookIn w.names x).get k))
    (hk : Indexed S.function k (Scope.lookIn w.names x).constants)
    (hout : S.handler? ip = outer) (hus : w.values <+: us) (hstop : stop = ip + 1) :
    S.Gives outer w 1 (S.state ip us w) (w.read x) fun v => S.state stop (us ++ [v]) w := by
  rcases w.lookIn_cases x with ⟨hlook, hnone⟩ | ⟨n, v, hlook, hsome, hget, -⟩
  · rw [hlook] at hi hk
    have hstep : Exec.step _ (S.state (ip + 1) us w) = _ :=
      step_getGlobal (hk _ (List.mem_singleton_self _))
    rw [World.read, hnone]
    cases hglobal : w.globals[x.text]? with
    | some v =>
        rw [hglobal] at hstep
        exact gives_of_step (x := .ok v) hi hout hus hstop hstep
    | none =>
        rw [hglobal] at hstep
        exact gives_of_step (x := .error _) hi hout hus hstop hstep
  · have hread : w.read x = .ok v := by rw [World.read, hsome]
    have hslot : us[n]? = some v := by
      rcases hus with ⟨ts, rfl⟩
      rw [List.getElem?_append_left (List.getElem?_eq_some_iff.mp hget).1, hget]
    rw [hlook] at hi
    rw [hread, hstop]
    exact goes_of_ok hi (step_getLocal hslot)

theorem gives_write
    (hi : S.function.code.instrs[ip]? = some ((Scope.lookIn w.names x).set k))
    (hk : Indexed S.function k (Scope.lookIn w.names x).constants)
    (hout : S.handler? ip = outer) (hstop : stop = ip + 1) :
    S.Gives outer w 1 (S.state ip (w.values ++ [v]) w) (w.write x v) fun w' =>
      S.state stop (w'.values ++ [v]) w' := by
  rcases w.lookIn_cases x with ⟨hlook, hnone⟩ | ⟨n, old, hlook, hsome, hget, hset⟩
  · rw [hlook] at hi hk
    have hstep : Exec.step _ (S.state (ip + 1) (w.values ++ [v]) w) = _ :=
      step_setGlobal (hk _ (List.mem_singleton_self _))
    rw [World.write, hnone]
    by_cases hcontains : w.globals.contains x.text
    · rw [if_pos hcontains] at hstep
      rw [if_neg (by simp), if_pos hcontains, hstop]
      exact goes_of_ok hi hstep
    · rw [if_neg hcontains] at hstep
      rw [if_neg (by simp), if_neg hcontains]
      exact gives_error_of_step hi hout (List.prefix_append _ _) hstep
  · have hn : n < w.values.length := (List.getElem?_eq_some_iff.mp hget).1
    have hstep : Exec.step _ (S.state (ip + 1) (w.values ++ [v]) w) = _ := step_setLocal hn
    rw [hlook] at hi
    rw [World.write, hsome, if_pos (by simp), hstop]
    rw [← hset v] at hstep
    exact goes_of_ok hi hstep

/-- An integer is added to a local in one instruction, and the sum is dropped. -/
theorem gives_increment {slot : Nat} {c : Int64}
    (hi : S.function.code.instrs[ip]? = some (.increment slot c))
    (hpop : S.function.code.instrs[ip + 1]? = some .pop)
    (hlook : Scope.lookIn w.names x = .slot slot) (hout : S.handler? ip = outer) :
    S.Gives outer w 1 (S.state ip w.values w)
      (do
        let old ← w.read x
        let new ← thrown (old.add S.heap (.integer c))
        w.write x new)
      fun w' => S.state (ip + 2) w'.values w' := by
  rcases w.lookIn_cases x with ⟨hglobal, -⟩ | ⟨n, old, hslot, hsome, hget, hset⟩
  · rw [hglobal] at hlook
    cases hlook
  · rw [hslot] at hlook
    cases hlook
    have hread : w.read x = .ok old := by rw [World.read, hsome]
    have hwrite (new : Value) :
        w.write x new = .ok { w with scopes := World.assignLocal x new w.scopes } := by
      rw [World.write, hsome, if_pos (by simp)]
    have hstep : Exec.step (.increment _ c) (S.state (ip + 1) w.values w) = _ := step_increment hget
    rw [hread]
    cases hsum : old.add S.heap (.integer c) with
    | ok new =>
        simp only [hsum, ← hset new] at hstep
        have hgoes := (goes_of_ok hi hstep).trans (goes_of_ok hpop step_pop)
        have hresult : thrown (old.add S.heap (.integer c)) >>= w.write x =
            .ok { w with scopes := World.assignLocal x new w.scopes } := by
          rw [hsum, ← hwrite new]
          rfl
        show S.Gives outer w 1 _ (thrown (old.add S.heap (.integer c)) >>= w.write x) _
        rw [hresult]
        exact hgoes.lower (Nat.le_add_left 1 1)
    | error fault =>
        simp only [hsum] at hstep
        show S.Gives outer w 1 _ (thrown (old.add S.heap (.integer c)) >>= w.write x) _
        rw [hsum]
        exact gives_error_of_step hi hout (List.prefix_refl _) hstep

end Rules

end Site

/-! ## Terms -/

/-- The code of an expression stands at an index of the script, with its constants in the pool and
under the given handler. -/
structure Site.Lies (S : Site) (k : Variable.Index) (outer : Option (Nat × Nat)) (ip : Nat)
    (e : Expr) : Prop where
  code : CodeAt S.function ip (e.code k)
  constants : Indexed S.function k e.constants
  under : S.Under outer ip (ip + e.size)

section Terms

variable {S : Site} {k : Variable.Index} {outer : Option (Nat × Nat)} {w : World}

open Site

/-- The code of a term puts its value on top of the stack, or throws what the term throws. -/
theorem Term.gives {t : Term} (hc : t.CallFree) {e : Expr} {ip stop : Nat} {us : List Value}
    (hmatch : t.Matches (Scope.lookIn w.names) e) (hlies : S.Lies k outer ip e)
    (hus : w.values <+: us) (hstop : stop = ip + e.size) :
    S.Gives outer w 1 (S.state ip us w) (t.eval S.heap w hc) fun v =>
      S.state stop (us ++ [v]) w := by
  have above (v : Value) : w.values <+: us ++ [v] := hus.trans (List.prefix_append us [v])
  subst hstop
  cases t with
  | integer | float | bool | none =>
      rcases hmatch with ⟨line, rfl⟩
      exact goes_of_ok hlies.code.1 step_literal
  | text s =>
      rcases hmatch with ⟨line, rfl⟩
      exact goes_of_ok hlies.code.1 (step_constant (hlies.constants _ (List.mem_singleton_self _)))
  | named x =>
      rcases hmatch with ⟨line, rfl⟩
      exact gives_read hlies.code.1 hlies.constants
        (hlies.under ip (Nat.le_refl ip) (Nat.lt_succ_self ip)) hus rfl
  | unary op a =>
      rcases hmatch with ⟨a', line, rfl, ha⟩
      rcases hlies with ⟨hcode, hconstants, hunder⟩
      simp only [Expr.code, Expr.size, along_append, along_cons, Expr.length_code] at hcode hunder ⊢
      have hga := Term.gives (t := a) hc ha
        ⟨hcode.1, hconstants, hunder.narrow (by lia) (by lia)⟩ hus rfl
      exact hga.bind fun x _ =>
        gives_of_step hcode.2.1 (hunder _ (by lia) (by lia)) hus rfl step_unary
  | binary op a b =>
      rcases hmatch with ⟨a', b', line, rfl, ha, hb⟩
      rcases hlies with ⟨hcode, hconstants, hunder⟩
      simp only [Expr.code, Expr.size, along_append, along_cons, Expr.length_code,
        List.length_append, Expr.constants, indexed_append] at hcode hconstants hunder ⊢
      have hga := Term.gives (t := a) hc.1 ha
        ⟨hcode.1.1, hconstants.1, hunder.narrow (by lia) (by lia)⟩ hus rfl
      have hgb (x : Value) := Term.gives (t := b) hc.2 hb
        ⟨hcode.1.2, hconstants.2, hunder.narrow (by lia) (by lia)⟩ (above x) rfl
      rw [Nat.add_assoc] at hgb
      exact hga.pair hgb hcode.2.1 (hunder _ (by lia) (by lia)) hus rfl fun _ _ => step_binary
  | index a i =>
      rcases hmatch with ⟨a', i', line, rfl, ha, hi⟩
      rcases hlies with ⟨hcode, hconstants, hunder⟩
      simp only [Expr.code, Expr.size, along_append, along_cons, Expr.length_code,
        List.length_append, Expr.constants, indexed_append] at hcode hconstants hunder ⊢
      have hga := Term.gives (t := a) hc.1 ha
        ⟨hcode.1.1, hconstants.1, hunder.narrow (by lia) (by lia)⟩ hus rfl
      have hgi (x : Value) := Term.gives (t := i) hc.2 hi
        ⟨hcode.1.2, hconstants.2, hunder.narrow (by lia) (by lia)⟩ (above x) rfl
      rw [Nat.add_assoc] at hgi
      exact hga.pair hgi hcode.2.1 (hunder _ (by lia) (by lia)) hus rfl fun _ _ => step_get
  | connect op a b =>
      rcases hmatch with ⟨a', opLine, b', rfl, ha, hb⟩
      rcases hlies with ⟨hcode, hconstants, hunder⟩
      simp only [Expr.code, Expr.size, along_append, along_cons, Expr.length_code,
        Expr.constants, indexed_append] at hcode hconstants hunder ⊢
      have hga := Term.gives (t := a) hc.1 ha
        ⟨hcode.1, hconstants.1, hunder.narrow (by lia) (by lia)⟩ hus rfl
      refine hga.bind (j := 1) fun x _ => ?_
      have hjump : (S.state (ip + a'.size) (us ++ [x]) w).Goes 1 _ :=
        goes_of_ok hcode.2.1 step_connective
      cases hsettled : op.settledBy (S.heap.falsy x) with
      | true =>
          rw [hsettled, if_pos rfl] at hjump
          have hstop : ip + (a'.size + b'.size + 2) = ip + a'.size + 1 + (b'.size + 1) := by lia
          rw [if_pos rfl, hstop]
          exact hjump
      | false =>
          rw [hsettled, if_neg Bool.false_ne_true] at hjump
          rw [if_neg Bool.false_ne_true]
          have hpop : (S.state (ip + a'.size + 1) (us ++ [x]) w).Goes 1 _ :=
            goes_of_ok hcode.2.2.1 step_pop
          refine Gives.goes (j := 1) hjump (Gives.goes (j := 1) hpop ?_)
          exact Term.gives hc.2 hb ⟨hcode.2.2.2, hconstants.2, hunder.narrow (by lia) (by lia)⟩ hus
            (by lia)
  | call f args => exact hc.elim
  | property a key =>
      rcases hmatch with ⟨a', line, rfl, ha⟩
      rcases hlies with ⟨hcode, hconstants, hunder⟩
      simp only [Expr.code, Expr.size, along_append, along_cons, Expr.length_code,
        Expr.constants, indexed_append, indexed_cons] at hcode hconstants hunder ⊢
      have hga := Term.gives (t := a) hc ha
        ⟨hcode.1, hconstants.1, hunder.narrow (by lia) (by lia)⟩ hus rfl
      exact hga.bind fun x _ =>
        gives_of_step hcode.2.1 (hunder _ (by lia) (by lia)) hus rfl
          (step_getProperty hconstants.2.1)

/-- A condition with its jump; the value of the condition is dropped on both ways. -/
theorem Plain.gives_test {c : Plain} {e : Expr} {ip offset other : Nat}
    (hmatch : c.term.Matches (Scope.lookIn w.names) e) (hlies : S.Lies k outer ip e)
    (hjump : S.function.code.instrs[ip + e.size]? = some (.jumpIfFalse offset))
    (hthen : S.function.code.instrs[ip + e.size + 1]? = some .pop)
    (helse : S.function.code.instrs[other]? = some .pop)
    (hother : other = ip + e.size + 1 + offset) :
    S.Gives outer w 1 (S.state ip w.values w) (c.test S.heap w) fun holds =>
      S.state (if holds then ip + e.size + 2 else other + 1) w.values w := by
  have hgives := Term.gives c.callFree hmatch hlies (List.prefix_refl _) rfl
  refine hgives.bind (j := 0) fun v _ => ?_
  have hgoes : (S.state (ip + e.size) (w.values ++ [v]) w).Goes 1 _ :=
    goes_of_ok hjump step_jumpIfFalse
  subst hother
  cases hfalsy : S.heap.falsy v with
  | true =>
      rw [hfalsy, if_pos rfl] at hgoes
      exact (hgoes.trans (goes_of_ok helse step_pop)).lower (Nat.zero_le _)
  | false =>
      rw [hfalsy, if_neg Bool.false_ne_true] at hgoes
      exact (hgoes.trans (goes_of_ok hthen step_pop)).lower (Nat.zero_le _)

/-! ## Actions -/

theorem Term.eval_of_matches_literal {t : Term} (hc : t.CallFree) {look : Name -> Variable}
    {i : Int64} {line : Nat} (hmatch : t.Matches look (.literal (.int i) line)) (h : Heap) :
    t.eval h w hc = .ok (.integer i) := by
  cases t with
  | integer n =>
      rcases hmatch with ⟨line', hline⟩
      cases hline
      rfl
  | float | bool | none | text | named =>
      rcases hmatch with ⟨line', hline⟩
      cases hline
  | unary => rcases hmatch with ⟨_, _, hline, _⟩; cases hline
  | binary => rcases hmatch with ⟨_, _, _, hline, _⟩; cases hline
  | connect => rcases hmatch with ⟨_, _, _, hline, _⟩; cases hline
  | call => exact hc.elim
  | index => rcases hmatch with ⟨_, _, _, hline, _⟩; cases hline
  | property => rcases hmatch with ⟨_, _, hline, _⟩; cases hline

/-- The code of an action puts some value on top of the stack and does what the action does, or
throws what the action throws. -/
theorem Action.gives {a : Action} {e : Expr} {ip : Nat}
    (hmatch : a.Matches (Scope.lookIn w.names) e) (hlies : S.Lies k outer ip e)
    (hpop : S.function.code.instrs[ip + e.size]? = some .pop) :
    S.Gives outer w 1 (S.state ip w.values w) (a.run S.heap w) fun w' =>
      S.state (ip + e.size + 1) w'.values w' := by
  have drop (v : Value) (w' : World) :
      S.Gives outer w 0 (S.state (ip + e.size) (w'.values ++ [v]) w') (.ok w') fun w' =>
        S.state (ip + e.size + 1) w'.values w' :=
    (goes_of_ok hpop step_pop).lower (Nat.zero_le 1)
  cases a with
  | evaluate t =>
      have hgives := Term.gives t.callFree hmatch hlies (List.prefix_refl _) rfl
      exact hgives.bind fun v _ => drop v w
  | assign x t =>
      rcases hmatch with ⟨e', line, rfl, hmatch⟩
      rcases hlies with ⟨hcode, hconstants, hunder⟩
      simp only [Expr.code, Expr.size, along_append, along_cons, Expr.length_code,
        Expr.constants, indexed_append] at hcode hconstants hunder drop ⊢
      have hgives := Term.gives t.callFree hmatch
        ⟨hcode.1, hconstants.2, hunder.narrow (by lia) (by lia)⟩ (List.prefix_refl _) rfl
      refine hgives.bind (j := 1) fun v _ => ?_
      have hwrite := gives_write (v := v) hcode.2.1 hconstants.1 (hunder _ (by lia) (by lia)) rfl
      rw [← bind_pure (w.write x v)]
      exact hwrite.bind fun w' _ => drop v w'
  | update x op t =>
      rcases hmatch with ⟨opLine, e', line, rfl, hmatch⟩
      rcases hlies with ⟨hcode, hconstants, hunder⟩
      simp only [Expr.constants, indexed_append] at hconstants
      cases hinc : increment? (Scope.lookIn w.names x) op e' with
      | none =>
          simp only [Expr.code, Expr.size, hinc, List.cons_append, along_append, along_cons,
            Expr.length_code, Option.isSome_none, if_neg Bool.false_ne_true] at hcode hunder drop ⊢
          have hread := gives_read hcode.1 hconstants.1 (hunder _ (by lia) (by lia))
            (List.prefix_refl _) rfl
          refine hread.bind (j := 1) fun old _ => ?_
          have hvalue := Term.gives t.callFree hmatch
            ⟨hcode.2.1, hconstants.2, hunder.narrow (by lia) (by lia)⟩
            (List.prefix_append w.values [old]) rfl
          refine hvalue.bind (j := 1) fun v _ => ?_
          have hsum := gives_of_step hcode.2.2.1 (hunder _ (by lia) (by lia))
            (List.prefix_refl w.values) rfl (step_arith (a := old) (b := v))
          refine hsum.bind (j := 1) fun new _ => ?_
          rw [← bind_pure (w.write x new)]
          apply Gives.bind _ fun w' _ => drop new w'
          exact gives_write hcode.2.2.2.1 hconstants.1 (hunder _ (by lia) (by lia)) (by lia)
      | some found =>
          rcases found with ⟨slot, i⟩
          rcases increment?_some hinc with ⟨hslot, rfl, litLine, rfl⟩
          simp only [Expr.code, Expr.size, hinc, along_cons, Option.isSome_some, if_pos]
            at hcode hunder hpop ⊢
          have hvalue : t.eval S.heap w = .ok (.integer i) :=
            Term.eval_of_matches_literal t.callFree hmatch S.heap
          rw [Action.run, hvalue]
          exact gives_increment hcode.1 hpop hslot (hunder ip (by lia) (by lia))

end Terms

end StackScript
