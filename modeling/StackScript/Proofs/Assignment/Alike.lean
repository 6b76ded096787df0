import StackScript.Proofs.Machine.Operands

/-!
# Assignments with an operator

An assignment with an operator stands for a plain one that reads the old value once more.  If what
is assigned to is a variable, or a property or an element of a variable, both do the same: the old
value is read before the right side is evaluated, whatever that does.  In any case the receiver and
the key are evaluated once.
-/

namespace StackScript

/-- The function has the code of an expression from an index on, and its constants. -/
structure Seat.Holds (S : Seat) (k : Variable.Index) (ip : Nat) (e : Expr) : Prop where
  code : S.Has ip ((e.code k).map Prod.fst)
  constants : Indexed S.function k e.constants

/-- What the code of an expression does that starts at an index of the function. -/
def Seat.evaluates (S : Seat) (k : Variable.Index) (ip : Nat) (e : Expr) : Effect :=
  S.piece ip ((e.code k).map Prod.fst)

/-! ## Variables and literals -/

/-- What is read by one instruction and can be read again. -/
inductive Atom where
  | named (v : Variable)
  | literal (l : Literal)
  | text (s : String)

namespace Atom

def expr (line : Nat) : Atom -> Expr
  | named v => .read v line
  | literal l => .literal l line
  | text s => .text s line

def instr (k : Variable.Index) : Atom -> Instr
  | named v => v.get k
  | literal l => .literal l
  | text s => .constant (k (.text s))

def constants : Atom -> List Value
  | named v => v.constants
  | literal _ => []
  | text s => [.text s]

/-- What is read in a call whose slots begin at `base`. -/
def look (base : Nat) (m : Machine) : Atom -> Except Fault Value
  | named (.slot n) =>
    match m.stack[base + n]? with
    | some v => .ok v
    | none => .error .stackUnderflow
  | named (.global x) =>
    match m.globals[x]? with
    | some v => .ok v
    | none => .error (.undefinedVariable x)
  | literal l => .ok l.value
  | text s => .ok (.text s)

theorem look_slot {base n : Nat} {m : Machine} {w : Value} (h : m.stack[base + n]? = some w) :
    (named (.slot n)).look base m = .ok w := by
  simp only [look, h]

theorem look_global {base : Nat} {x : String} {m : Machine} {w : Value}
    (h : m.globals[x]? = some w) : (named (.global x)).look base m = .ok w := by
  simp only [look, h]

variable (a : Atom) (k : Variable.Index) (line : Nat)

theorem code_expr : (a.expr line).code k = [(a.instr k, line)] := by
  cases a <;> rfl

theorem constants_expr : (a.expr line).constants = a.constants := by
  cases a <;> rfl

theorem moves_instr : (a.instr k).moves = false := by
  rcases a with (n | x) | l | s <;> rfl

theorem opens_instr : (a.instr k).opens = false := by
  rcases a with (n | x) | l | s <;> rfl

variable {a} in
/-- What lies below a new value is read as before. -/
theorem look_push {base : Nat} {m : Machine} {v w : Value} (h : a.look base m = .ok v) :
    a.look base { m with stack := m.stack.push w } = .ok v := by
  rcases a with (n | x) | l | s
  · simp only [look] at h ⊢
    split at h
    · rename_i u hu
      rw [Array.getElem?_push_lt (Array.getElem?_eq_some_iff.mp hu).1,
        ← Array.getElem?_eq_getElem, hu]
      exact h
    · cases h
  · exact h
  · exact h
  · exact h

end Atom

/-! ## Instructions -/

/-- What always ends in one way, and what comes then. -/
theorem Effect.andThen_of_iff {A B : Effect} {m x y : Machine} {v : Option Value}
    (hA : forall v x, A m v x ↔ v = none ∧ x = y) : A.andThen B m v x ↔ B y v x := by
  unfold andThen
  simp [hA]

theorem Exec.getGlobal_apply {m : Machine} {name : String} {w : Value}
    (h : m.globals[name]? = some w) : Exec.getGlobal name m = .ok w m := by
  rw [Exec.getGlobal, Exec.bind_ok Exec.get_apply, h]
  rfl

theorem Exec.getGlobal_missing {m : Machine} {name : String} (h : m.globals[name]? = none) :
    Exec.getGlobal name m = .error (.fault (.undefinedVariable name)) m := by
  rw [Exec.getGlobal, Exec.bind_ok Exec.get_apply, h]
  rfl

namespace Seat

variable {S S' : Seat} {m x y : Machine} {v : Option Value} {k : Variable.Index} {a b : Atom}
variable {ip ip' : Nat} {code : List Instr}

/-- Reading a variable or a literal leaves one value on the stack. -/
theorem does_atom (hs : S.In m) (hk : Indexed S.function k a.constants) :
    S.does (a.instr k) m v x ↔
      match a.look S.base m with
      | .ok w => v = none ∧ x = { m with stack := m.stack.push w }
      | .error f => v = some f.value ∧ x = m := by
  have hfunction : ((m.within (S.frame 0)).heap.function S.id) = S.function := hs.on.function
  unfold does acts
  rcases a with (n | name) | l | s
  · simp only [Atom.look, Atom.instr, Variable.get]
    cases hn : m.stack[S.base + n]? with
    | some w =>
        have hstep : Exec.step (.getLocal n) (m.within (S.frame 0)) = _ :=
          Exec.step_getLocal (f := S.frame 0) rfl hn
        rw [hstep]
        exact Iff.rfl
    | none =>
        have hstep : Exec.getLocal n (m.within (S.frame 0)) = _ :=
          Exec.getLocal_outside (f := S.frame 0) rfl hn
        rw [Exec.step, Exec.bind_error hstep]
        exact Iff.rfl
  · have hconstant := hk (.text name) (List.mem_singleton_self _)
    rw [← hfunction] at hconstant
    have hname : Exec.name (k (.text name)) (m.within (S.frame 0)) = _ :=
      Exec.name_apply (f := S.frame 0) rfl hconstant
    simp only [Atom.look, Atom.instr, Variable.get]
    rw [Exec.step, Exec.bind_ok hname]
    cases hvalue : m.globals[name]? with
    | some w =>
        have hget : Exec.getGlobal name (m.within (S.frame 0)) = _ := Exec.getGlobal_apply hvalue
        rw [Exec.bind_ok hget]
        exact Iff.rfl
    | none =>
        have hget : Exec.getGlobal name (m.within (S.frame 0)) = _ := Exec.getGlobal_missing hvalue
        rw [Exec.bind_error hget]
        exact Iff.rfl
  · exact Iff.rfl
  · have hconstant := hk (.text s) (List.mem_singleton_self _)
    rw [← hfunction] at hconstant
    have hstep : Exec.constant (k (.text s)) (m.within (S.frame 0)) = _ :=
      Exec.constant_apply (f := S.frame 0) rfl hconstant
    simp only [Atom.look, Atom.instr]
    rw [Exec.step, Exec.bind_ok hstep]
    exact Iff.rfl

theorem does_duplicate {w : Value} {s : Array Value} (hstack : m.stack = s.push w) :
    S.does .duplicate m v x ↔ v = none ∧ x = { m with stack := m.stack.push w } := by
  have hpeek : Exec.peek 0 (m.within (S.frame 0)) = _ := Exec.peek_zero_apply hstack
  unfold does acts
  rw [Exec.step, Exec.bind_ok hpeek]
  exact Iff.rfl

theorem does_duplicatePair {w u : Value} {s : Array Value} (hstack : m.stack = (s.push w).push u) :
    S.does .duplicatePair m v x ↔
      v = none ∧ x = { m with stack := (m.stack.push w).push u } := by
  have hone : Exec.peek 1 (m.within (S.frame 0)) = _ := Exec.peek_one_apply hstack
  have hzero : Exec.peek 0 (m.within (S.frame 0)) = _ := Exec.peek_zero_apply hstack
  unfold does acts
  rw [Exec.step, Exec.bind_ok hone, Exec.bind_ok hzero]
  exact Iff.rfl

theorem does_of_look (hs : S.In m) (hk : Indexed S.function k a.constants) {w : Value}
    (hlook : a.look S.base m = .ok w) (v : Option Value) (x : Machine) :
    S.does (a.instr k) m v x ↔ v = none ∧ x = { m with stack := m.stack.push w } := by
  have hdoes := does_atom (v := v) (x := x) hs hk
  rw [hlook] at hdoes
  exact hdoes

theorem look_of_does (hs : S.In m) (hk : Indexed S.function k a.constants)
    (h : S.does (a.instr k) m none x) :
    exists w, a.look S.base m = .ok w ∧ x = { m with stack := m.stack.push w } := by
  have hdoes := (does_atom hs hk).mp h
  split at hdoes
  · rename_i w hlook
    exact ⟨w, hlook, hdoes.2⟩
  · cases hdoes.1

theorem Like.indexed (hlike : S.Like S') {vs : List Value} (h : Indexed S.function k vs) :
    Indexed S'.function k vs := by
  intro w hw
  rw [← hlike.constants]
  exact h w hw

theorem Has.tail {i : Instr} (h : S.Has ip (i :: code)) : S.Has (ip + 1) code := by
  have hsplit : S.Has ip ([i] ++ code) := h
  exact hsplit.right

/-- What is read twice is read and duplicated. -/
theorem piece_duplicate (hs : S.In m) (hs' : S'.In m) (hlike : S.Like S')
    (hk : Indexed S.function k a.constants) (h : S.Has ip (a.instr k :: .duplicate :: code))
    (h' : S'.Has ip' (a.instr k :: a.instr k :: code)) (htight : Instr.Tight code) :
    S.piece ip (a.instr k :: .duplicate :: code) m v x ↔
      S'.piece ip' (a.instr k :: a.instr k :: code) m v x := by
  have hmoves := a.moves_instr k
  have hopens := a.opens_instr k
  refine (piece_cons hs h hmoves hopens).trans (Iff.trans ?_ (piece_cons hs' h' hmoves hopens).symm)
  refine Effect.andThen_congr (fun _ _ => does_iff hs hs' hlike hmoves) fun y hy => ?_
  have hsy := hs.of_does hmoves hy
  have hsy' := hs'.of_does hmoves ((does_iff hs hs' hlike hmoves).mp hy)
  rcases look_of_does hs hk hy with ⟨w, hlook, rfl⟩
  have hlook' : a.look S'.base _ = .ok w := hlike.base ▸ Atom.look_push (w := w) hlook
  have hduplicate (v : Option Value) (x : Machine) := does_duplicate (S := S) (v := v) (x := x)
    (m := { m with stack := m.stack.push w }) rfl
  have hagain := does_of_look hsy' (hlike.indexed hk) hlook'
  have hdone := (hduplicate none _).mpr ⟨rfl, rfl⟩
  have hdone' := (hagain none _).mpr ⟨rfl, rfl⟩
  rw [piece_cons hsy h.tail rfl rfl, Effect.andThen_of_iff hduplicate,
    piece_cons hsy' h'.tail hmoves hopens, Effect.andThen_of_iff hagain]
  exact piece_iff (hsy.of_does rfl hdone) (hsy'.of_does hmoves hdone') hlike h.tail.tail
    h'.tail.tail htight

/-- What is read twice one after the other is read and duplicated together. -/
theorem piece_duplicatePair (hs : S.In m) (hs' : S'.In m) (hlike : S.Like S')
    (hka : Indexed S.function k a.constants) (hkb : Indexed S.function k b.constants)
    (h : S.Has ip (a.instr k :: b.instr k :: .duplicatePair :: code))
    (h' : S'.Has ip' (a.instr k :: b.instr k :: a.instr k :: b.instr k :: code))
    (htight : Instr.Tight code) :
    S.piece ip (a.instr k :: b.instr k :: .duplicatePair :: code) m v x ↔
      S'.piece ip' (a.instr k :: b.instr k :: a.instr k :: b.instr k :: code) m v x := by
  have hmoves := a.moves_instr k
  have hopens := a.opens_instr k
  have hmoves' := b.moves_instr k
  have hopens' := b.opens_instr k
  refine (piece_cons hs h hmoves hopens).trans (Iff.trans ?_ (piece_cons hs' h' hmoves hopens).symm)
  refine Effect.andThen_congr (fun _ _ => does_iff hs hs' hlike hmoves) fun y hy => ?_
  have hsy := hs.of_does hmoves hy
  have hsy' := hs'.of_does hmoves ((does_iff hs hs' hlike hmoves).mp hy)
  rcases look_of_does hs hka hy with ⟨w, hlook, rfl⟩
  refine (piece_cons hsy h.tail hmoves' hopens').trans
    (Iff.trans ?_ (piece_cons hsy' h'.tail hmoves' hopens').symm)
  refine Effect.andThen_congr (fun _ _ => does_iff hsy hsy' hlike hmoves') fun z hz => ?_
  have hsz := hsy.of_does hmoves' hz
  have hsz' := hsy'.of_does hmoves' ((does_iff hsy hsy' hlike hmoves').mp hz)
  rcases look_of_does hsy hkb hz with ⟨u, hlook', rfl⟩
  have hduplicate (v : Option Value) (x : Machine) := does_duplicatePair (S := S) (v := v) (x := x)
    (m := { m with stack := (m.stack.push w).push u }) rfl
  have hlook1 : a.look S'.base _ = .ok w :=
    hlike.base ▸ Atom.look_push (w := u) (Atom.look_push (w := w) hlook)
  have hagain := does_of_look hsz' (hlike.indexed hka) hlook1
  have hsw' := hsz'.of_does hmoves ((hagain none _).mpr ⟨rfl, rfl⟩)
  have hlook2 : b.look S'.base _ = .ok u :=
    hlike.base ▸ Atom.look_push (w := w) (Atom.look_push (w := u) hlook')
  have hagain' := does_of_look hsw' (hlike.indexed hkb) hlook2
  have hdone := (hduplicate none _).mpr ⟨rfl, rfl⟩
  have hdone' := (hagain' none _).mpr ⟨rfl, rfl⟩
  rw [piece_cons hsz h.tail.tail rfl rfl, Effect.andThen_of_iff hduplicate,
    piece_cons hsz' h'.tail.tail hmoves hopens, Effect.andThen_of_iff hagain,
    piece_cons hsw' h'.tail.tail.tail hmoves' hopens', Effect.andThen_of_iff hagain']
  exact piece_iff (hsz.of_does rfl hdone) (hsw'.of_does hmoves' hdone') hlike h.tail.tail.tail
    h'.tail.tail.tail.tail htight

/-- An integer is added to a local by one instruction or by four. -/
theorem piece_increment {slot : Nat} {n : Int64} (hs : S.In m) (hs' : S'.In m) (hlike : S.Like S')
    (h : S.Has ip [.increment slot n])
    (h' : S'.Has ip' [.getLocal slot, .literal (.int n), .binary (.arith .add), .setLocal slot]) :
    S.piece ip [.increment slot n] m v x ↔
      S'.piece ip' [.getLocal slot, .literal (.int n), .binary (.arith .add), .setLocal slot]
        m v x := by
  rw [piece_single hs h rfl rfl, does_iff hs hs' hlike rfl, does,
    ← funext (Exec.addToLocal_eq · slot n), Exec.addToLocal, acts_step_bind rfl rfl,
    piece_cons hs' h' rfl rfl]
  refine Effect.andThen_congr (fun _ _ => Iff.rfl) fun y hy => ?_
  have hsy := hs'.of_does rfl hy
  rw [acts_step_bind rfl rfl, piece_cons hsy h'.tail rfl rfl]
  refine Effect.andThen_congr (fun _ _ => Iff.rfl) fun z hz => ?_
  have hsz := hsy.of_does rfl hz
  rw [acts_step_bind rfl rfl, piece_cons hsz h'.tail.tail rfl rfl]
  refine Effect.andThen_congr (fun _ _ => Iff.rfl) fun w hw => ?_
  rw [piece_single (hsz.of_does rfl hw) h'.tail.tail.tail rfl rfl]
  exact Iff.rfl

end Seat

/-! ## Assignments to what can be read again -/

/-- A variable, or a property or an element of a variable whose key is read by one instruction. -/
inductive Target where
  | named (v : Variable)
  | property (r : Variable) (key : String)
  | item (r : Variable) (i : Atom)

namespace Target

/-- An assignment with an operator. -/
inductive Updated (op : Operator) (e : Expr) : Target -> Expr -> Prop where
  | named (v : Variable) (opLine line : Nat) : Updated op e (.named v) (.update v op opLine e line)
  | property (r : Variable) (key : String) (rLine opLine line : Nat) :
      Updated op e (.property r key) (.updateProperty (.read r rLine) key op opLine e line)
  | item (r : Variable) (i : Atom) (rLine iLine opLine line : Nat) :
      Updated op e (.item r i) (.updateItem (.read r rLine) (i.expr iLine) op opLine e line)

/-- The plain assignment of what the operator gives. -/
inductive Assigned (op : Operator) (e : Expr) : Target -> Expr -> Prop where
  | named (v : Variable) (readLine opLine line : Nat) : Assigned op e (.named v)
      (.assign v (.binary (.arith op) (.read v readLine) e opLine) line)
  | property (r : Variable) (key : String) (rLine readLine getLine opLine line : Nat) :
      Assigned op e (.property r key) (.setProperty (.read r rLine) key
        (.binary (.arith op) (.property (.read r readLine) key getLine) e opLine) line)
  | item (r : Variable) (i : Atom) (rLine iLine readLine againLine getLine opLine line : Nat) :
      Assigned op e (.item r i) (.ternary .set (.read r rLine) (i.expr iLine)
        (.binary (.arith op) (.binary .get (.read r readLine) (i.expr againLine) getLine) e
          opLine) line)

variable {S S' : Seat} {m x : Machine} {v : Option Value} {k : Variable.Index} {ip ip' : Nat}
variable {op : Operator} {e u a : Expr} {t : Target}

/-- The assignment with an operator does what the plain assignment does. -/
theorem updated_iff_assigned (hu : t.Updated op e u) (ha : t.Assigned op e a) (hs : S.In m)
    (hs' : S'.In m) (hlike : S.Like S') (h : S.Holds k ip u) (h' : S'.Holds k ip' a) :
    S.evaluates k ip u m v x ↔ S'.evaluates k ip' a m v x := by
  have htight (i : Instr) (hi : i.moves = false) :
      Instr.Tight ((e.code k).map Prod.fst ++ [.binary (.arith op), i]) :=
    (e.tight_code k).append ((Instr.tight_singleton hi).cons trivial)
  unfold Seat.evaluates
  have hcode := h.code
  have hcode' := h'.code
  cases hu with
  | named v opLine line =>
      cases ha with
      | named _ readLine opLine' line' =>
          cases hinc : increment? v op e with
          | some found =>
              rcases found with ⟨slot, n⟩
              rcases increment?_some hinc with ⟨rfl, rfl, eLine, rfl⟩
              exact Seat.piece_increment hs hs' hlike hcode hcode'
          | none =>
              rw [Expr.code, hinc] at hcode ⊢
              have hsame : (((Expr.assign v (.binary (.arith op) (.read v readLine) e opLine')
                  line').code k).map Prod.fst) = (((v.get k, opLine) :: e.code k ++
                    [(.binary (.arith op), line), (v.set k, line)]).map Prod.fst) := by
                simp [Expr.code]
              rw [hsame] at hcode' ⊢
              refine Seat.piece_iff hs hs' hlike hcode hcode' ?_
              have hget : (v.get k).moves = false := Atom.moves_instr (.named v) k
              have hset : (v.set k).moves = false := by cases v <;> rfl
              rw [List.cons_append, List.map_cons, List.map_append]
              exact (htight _ hset).cons (Instr.staysWithin_of_moves hget)
  | property r key rLine opLine line =>
      cases ha with
      | property _ _ rLine' readLine getLine opLine' line' =>
          have hlist : ((Expr.updateProperty (.read r rLine) key op opLine e line).code k).map
              Prod.fst = r.get k :: .duplicate :: .getProperty (k (.text key)) ::
                ((e.code k).map Prod.fst ++
                  [Instr.binary (.arith op), .setProperty (k (.text key))]) := by
            simp [Expr.code]
          have hlist' : ((Expr.setProperty (.read r rLine') key (.binary (.arith op)
              (.property (.read r readLine) key getLine) e opLine') line').code k).map Prod.fst =
                r.get k :: r.get k :: .getProperty (k (.text key)) ::
                ((e.code k).map Prod.fst ++
                  [Instr.binary (.arith op), .setProperty (k (.text key))]) := by
            simp [Expr.code]
          have hk : Indexed S.function k (Atom.named r).constants :=
            fun w hw => h.constants w (List.mem_append_left _ hw)
          rw [hlist] at hcode ⊢
          rw [hlist'] at hcode' ⊢
          exact Seat.piece_duplicate (a := .named r) hs hs' hlike hk hcode hcode'
            ((htight _ rfl).cons trivial)
  | item r i rLine iLine opLine line =>
      cases ha with
      | item _ _ rLine' iLine' readLine againLine getLine opLine' line' =>
          have hlist : ((Expr.updateItem (.read r rLine) (i.expr iLine) op opLine e line).code
              k).map Prod.fst = r.get k :: i.instr k :: .duplicatePair :: .binary .get ::
                ((e.code k).map Prod.fst ++ [Instr.binary (.arith op), .ternary .set]) := by
            simp [Expr.code, Atom.code_expr]
          have hlist' : ((Expr.ternary .set (.read r rLine') (i.expr iLine') (.binary (.arith op)
              (.binary .get (.read r readLine) (i.expr againLine) getLine) e opLine')
              line').code k).map Prod.fst =
                r.get k :: i.instr k :: r.get k :: i.instr k :: .binary .get ::
                ((e.code k).map Prod.fst ++ [Instr.binary (.arith op), .ternary .set]) := by
            simp [Expr.code, Atom.code_expr]
          have hk : Indexed S.function k (Atom.named r).constants :=
            fun w hw => h.constants w (List.mem_append_left _ (List.mem_append_left _ hw))
          have hi : Indexed S.function k i.constants := by
            intro w hw
            rw [← i.constants_expr iLine] at hw
            exact h.constants w (List.mem_append_left _ (List.mem_append_right _ hw))
          rw [hlist] at hcode ⊢
          rw [hlist'] at hcode' ⊢
          exact Seat.piece_duplicatePair (a := .named r) hs hs' hlike hk hi hcode hcode'
            ((htight _ rfl).cons trivial)

/-- What has to be in the pool to read the target. -/
def constants : Target -> List Value
  | named v => v.constants
  | property r key => r.constants ++ [.text key]
  | item r i => r.constants ++ i.constants

theorem constants_updated (hu : t.Updated op e u) : u.constants = t.constants ++ e.constants := by
  cases hu with
  | named => rfl
  | property => simp [Expr.constants, Target.constants]
  | item r i => simp [Expr.constants, Target.constants, Atom.constants_expr]

theorem constants_assigned (ha : t.Assigned op e a) :
    a.constants = t.constants ++ (t.constants ++ e.constants) := by
  cases ha with
  | named => rfl
  | property => simp [Expr.constants, Target.constants]
  | item r i => simp [Expr.constants, Target.constants, Atom.constants_expr]

theorem text_of_mem_constants {w : Value} (h : w ∈ t.constants) : exists s, w = .text s := by
  have hvariable {r : Variable} (hr : w ∈ r.constants) : exists s, w = .text s := by
    cases r with
    | slot => cases hr
    | global x => exact ⟨x, List.mem_singleton.mp hr⟩
  cases t with
  | named v => exact hvariable h
  | property r key =>
      rcases List.mem_append.mp h with hr | hkey
      · exact hvariable hr
      · exact ⟨key, List.mem_singleton.mp hkey⟩
  | item r i =>
      rcases List.mem_append.mp h with hr | hi
      · exact hvariable hr
      · cases i with
        | named v => exact hvariable hi
        | literal => cases hi
        | text s => exact ⟨s, List.mem_singleton.mp hi⟩

/-- Whatever is written in front of the one assignment and behind it, the pool is the same with the
other. -/
theorem pool_updated (hu : t.Updated op e u) (ha : t.Assigned op e a) (before behind : List Value) :
    poolOf (before ++ u.constants ++ behind) = poolOf (before ++ a.constants ++ behind) := by
  rw [constants_updated hu, constants_assigned ha]
  unfold poolOf
  simp only [List.foldl_append]
  have hagain (c : Code) : t.constants.foldl (fun c v => (c.addConstant v).1)
      (t.constants.foldl (fun c v => (c.addConstant v).1) c) =
        t.constants.foldl (fun c v => (c.addConstant v).1) c :=
    Code.foldl_addConstant_again fun w hw =>
      ⟨text_of_mem_constants hw, (Code.mem_foldl_addConstant _ _ w).mpr (Or.inr hw)⟩
  rw [hagain]

end Target

/-! ## Receivers and keys of any kind -/

section Chains

variable {S : Seat} {m x : Machine} {v : Option Value} {k : Variable.Index} {ip : Nat}
variable {op : Operator} {o i e : Expr} {rest : List Instr}

theorem Seat.piece_code (hs : S.In m) (h : S.Has ip ((e.code k).map Prod.fst ++ rest)) :
    S.piece ip ((e.code k).map Prod.fst ++ rest) m v x ↔
      (S.evaluates k ip e).andThen (S.piece (ip + e.size) rest) m v x := by
  rw [Seat.piece_append hs h (e.tight_code k), List.length_map, Expr.length_code]
  exact Iff.rfl

theorem Seat.Has.behind (h : S.Has ip ((e.code k).map Prod.fst ++ rest)) :
    S.Has (ip + e.size) rest := by
  have hright := Seat.Has.right h
  rwa [List.length_map, Expr.length_code] at hright

theorem Seat.In.of_evaluates (hs : S.In m) (h : S.Has ip ((e.code k).map Prod.fst ++ rest))
    (hx : S.evaluates k ip e m none x) : S.In x :=
  hs.of_piece h.left (e.tight_code k) hx

/-- What the code behind the read of the old value does. -/
theorem Seat.piece_combine {set : Instr} (hs : S.In m) (hset : set.moves = false)
    (hopens : set.opens = false)
    (h : S.Has ip ((e.code k).map Prod.fst ++ [.binary (.arith op), set])) :
    S.piece ip ((e.code k).map Prod.fst ++ [.binary (.arith op), set]) m v x ↔
      (S.evaluates k ip e).andThen ((S.does (.binary (.arith op))).andThen (S.does set)) m v x := by
  rw [Seat.piece_code hs h]
  refine Effect.andThen_congr (fun _ _ => Iff.rfl) fun y hy => ?_
  have hsy := hs.of_evaluates h hy
  rw [Seat.piece_cons hsy h.behind rfl rfl]
  refine Effect.andThen_congr (fun _ _ => Iff.rfl) fun z hz => ?_
  exact Seat.piece_single (hsy.of_does rfl hz) h.behind.tail hset hopens

theorem Expr.instrs_updateProperty {key : String} {opLine line : Nat} :
    ((Expr.updateProperty o key op opLine e line).code k).map Prod.fst =
      (o.code k).map Prod.fst ++ Instr.duplicate :: .getProperty (k (.text key)) ::
        ((e.code k).map Prod.fst ++ [Instr.binary (.arith op), .setProperty (k (.text key))]) := by
  simp [Expr.code]

theorem Expr.instrs_updateItem {opLine line : Nat} :
    ((Expr.updateItem o i op opLine e line).code k).map Prod.fst =
      (o.code k).map Prod.fst ++ ((i.code k).map Prod.fst ++ Instr.duplicatePair :: .binary .get ::
        ((e.code k).map Prod.fst ++ [Instr.binary (.arith op), .ternary .set])) := by
  simp [Expr.code]

/-- The receiver is evaluated once, then the property is read, and then the right side is
evaluated. -/
theorem Seat.evaluates_updateProperty {key : String} {opLine line : Nat} (hs : S.In m)
    (h : S.Has ip (((Expr.updateProperty o key op opLine e line).code k).map Prod.fst)) :
    S.evaluates k ip (.updateProperty o key op opLine e line) m v x ↔
      (S.evaluates k ip o).andThen ((S.does .duplicate).andThen
        ((S.does (.getProperty (k (.text key)))).andThen
          ((S.evaluates k (ip + o.size + 2) e).andThen ((S.does (.binary (.arith op))).andThen
            (S.does (.setProperty (k (.text key)))))))) m v x := by
  unfold Seat.evaluates
  rw [Expr.instrs_updateProperty] at h ⊢
  rw [Seat.piece_code hs h]
  refine Effect.andThen_congr (fun _ _ => Iff.rfl) fun y hy => ?_
  have hsy := hs.of_evaluates h hy
  rw [Seat.piece_cons hsy h.behind rfl rfl]
  refine Effect.andThen_congr (fun _ _ => Iff.rfl) fun z hz => ?_
  have hsz := hsy.of_does rfl hz
  rw [Seat.piece_cons hsz h.behind.tail rfl rfl]
  refine Effect.andThen_congr (fun _ _ => Iff.rfl) fun w hw => ?_
  exact Seat.piece_combine (hsz.of_does rfl hw) rfl rfl h.behind.tail.tail

/-- The receiver is evaluated once and then the key is, then the element is read, and then the right
side is evaluated. -/
theorem Seat.evaluates_updateItem {opLine line : Nat} (hs : S.In m)
    (h : S.Has ip (((Expr.updateItem o i op opLine e line).code k).map Prod.fst)) :
    S.evaluates k ip (.updateItem o i op opLine e line) m v x ↔
      (S.evaluates k ip o).andThen ((S.evaluates k (ip + o.size) i).andThen
        ((S.does .duplicatePair).andThen ((S.does (.binary .get)).andThen
          ((S.evaluates k (ip + o.size + i.size + 2) e).andThen
            ((S.does (.binary (.arith op))).andThen (S.does (.ternary .set))))))) m v x := by
  unfold Seat.evaluates
  rw [Expr.instrs_updateItem] at h ⊢
  rw [Seat.piece_code hs h]
  refine Effect.andThen_congr (fun _ _ => Iff.rfl) fun y hy => ?_
  have hsy := hs.of_evaluates h hy
  rw [Seat.piece_code hsy h.behind]
  refine Effect.andThen_congr (fun _ _ => Iff.rfl) fun z hz => ?_
  have hsz := hsy.of_evaluates h.behind hz
  rw [Seat.piece_cons hsz h.behind.behind rfl rfl]
  refine Effect.andThen_congr (fun _ _ => Iff.rfl) fun w hw => ?_
  have hsw := hsz.of_does rfl hw
  rw [Seat.piece_cons hsw h.behind.behind.tail rfl rfl]
  refine Effect.andThen_congr (fun _ _ => Iff.rfl) fun w' hw' => ?_
  exact Seat.piece_combine (hsw.of_does rfl hw') rfl rfl h.behind.behind.tail.tail

end Chains

end StackScript
