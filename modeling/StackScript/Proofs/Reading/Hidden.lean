import StackScript.Proofs.Reading.Blocks
import StackScript.Proofs.Token.Names

/-!
# Locals that no name reaches

A loop over a collection keeps what it runs over, the keys and the index in three locals that no
name of the text can reach.  So nothing in its body reads or writes them, and the loop is followed
by the code that forgets them.  The proof goes by induction on the rules for what stands between two
readings, and says on the way that reading goes through the blocks of the text.
-/

namespace StackScript

/-! ## Trees that spare slots -/

/-- A variable that is none of the kept slots. -/
def Variable.Spares (kept : Nat -> Prop) : Variable -> Prop
  | .slot n => ¬ kept n
  | .global _ => True

mutual

/-- The expression reads and writes none of the kept slots. -/
def Expr.Spares (kept : Nat -> Prop) : Expr -> Prop
  | .literal _ _ | .text _ _ | .function _ _ => True
  | .read v _ => v.Spares kept
  | .assign v a _ => v.Spares kept ∧ a.Spares kept
  | .update v _ _ a _ => v.Spares kept ∧ a.Spares kept
  | .unary _ a _ => a.Spares kept
  | .binary _ a b _ => a.Spares kept ∧ b.Spares kept
  | .ternary _ a b c _ => a.Spares kept ∧ b.Spares kept ∧ c.Spares kept
  | .connect _ a _ b => a.Spares kept ∧ b.Spares kept
  | .call f args _ => f.Spares kept ∧ Expr.AllSpare kept args
  | .property o _ _ => o.Spares kept
  | .setProperty o _ a _ => o.Spares kept ∧ a.Spares kept
  | .updateProperty o _ _ _ a _ => o.Spares kept ∧ a.Spares kept
  | .updateItem o i _ _ a _ => o.Spares kept ∧ i.Spares kept ∧ a.Spares kept
  | .array items _ => Expr.AllSpare kept items
  | .table items _ => Expr.AllSpare kept items

def Expr.AllSpare (kept : Nat -> Prop) : List Expr -> Prop
  | [] => True
  | e :: rest => e.Spares kept ∧ Expr.AllSpare kept rest

end

/-- How many locals a statement that does nothing else forgets. -/
def Stmt.drops? : Stmt -> Option Nat
  | .drop n _ => some n
  | _ => none

/-- The statement, which starts at height `n`, leaves the kept slots alone, and so does the body of
each of its loops over a collection with the three slots of the loop.  Behind such a loop its locals
are forgotten; `next` is the number of locals that are forgotten right behind the statement. -/
def Stmt.Spares (kept : Nat -> Prop) (next : Option Nat) (n : Nat) : Stmt -> Prop
  | .skip | .drop _ _ | .leave _ _ | .again _ _ => True
  | .seq a b => a.Spares kept b.drops? n ∧ b.Spares kept next (a.after n)
  | .expr e _ | .output _ e _ | .throw e _ | .use e _ | .define _ e _ | .bind e | .ret e _ =>
    e.Spares kept
  | .cond c _ body _ other =>
    c.Spares kept ∧ body.Spares kept none n ∧ other.Spares kept none n
  | .while c _ body _ => c.Spares kept ∧ body.Spares kept none n
  | .stepping c _ _ step _ body _ =>
    c.Spares kept ∧ step.Spares kept ∧ body.Spares kept none n
  | .iterate slot vars _ body _ =>
    next = some (vars + 3) ∧
      body.Fits (fun _ => True) (some (n + vars + 2)) (n + vars + 2) (n + vars + 2) ∧
      body.Spares (fun k => kept k ∨ slot <= k ∧ k < slot + 3) none (n + vars + 2)
  | .try _ body _ handler => body.Spares kept none n ∧ handler.Spares kept none (n + 1)

/-- The body of a definition keeps the slots of its loops to them. -/
def Definition.Spares (d : Definition) : Prop :=
  d.body.Spares (fun _ => False) none (d.arity + 1)

/-- No name of the text stands for one of the kept slots. -/
def Scope.Spares (s : Scope) (kept : Nat -> Prop) : Prop :=
  forall name n, Written name -> s.resolve name = .slot n -> ¬ kept n

/-- The kept slots are those of locals that no name of the text can reach. -/
def Blocks.Hides (b : Blocks) (kept : Nat -> Prop) : Prop :=
  forall n, kept n -> exists d, d ∈ b.declarations ∧ d.slot = n ∧ ¬ Written d.name

/-- What holds of the tokens to come and of what has been defined. -/
structure Reading.Proper (r : Reading) : Prop where
  previous : r.previous.token.Named
  current : r.current.token.Named
  rest : forall t, t ∈ r.rest -> t.token.Named
  definitions : forall d, d ∈ r.definitions -> d.Spares

namespace Blocks

def size (b : Blocks) : Nat :=
  b.declarations.length

variable {b : Blocks} {kept : Nat -> Prop}

theorem Numbered.slot_lt {ds : List Declaration} (h : Numbered ds) {d : Declaration}
    (hd : d ∈ ds) : d.slot < ds.length := by
  induction ds with
  | nil => cases hd
  | cons e ds ih =>
      rcases List.mem_cons.mp hd with rfl | hd
      · rw [h.1]
        exact Nat.lt_succ_self _
      · exact Nat.lt_succ_of_lt (ih h.2 hd)

theorem Numbered.eq_of_slot_eq {ds : List Declaration} (h : Numbered ds) {d e : Declaration}
    (hd : d ∈ ds) (he : e ∈ ds) (hslot : d.slot = e.slot) : d = e := by
  induction ds with
  | nil => cases hd
  | cons c ds ih =>
      rcases List.mem_cons.mp hd with hdc | hd' <;> rcases List.mem_cons.mp he with hec | he'
      · rw [hdc, hec]
      · have hlt := Numbered.slot_lt h.2 he'
        rw [← hslot, hdc, h.1] at hlt
        exact absurd hlt (Nat.lt_irrefl _)
      · have hlt := Numbered.slot_lt h.2 hd'
        rw [hslot, hec, h.1] at hlt
        exact absurd hlt (Nat.lt_irrefl _)
      · exact ih h.2 hd' he'

theorem Hides.spares (h : b.Hides kept) (hb : b.Sound) : b.flat.Spares kept := by
  intro name n hname hresolve hn
  rcases h n hn with ⟨e, he, heslot, hehidden⟩
  rcases resolve_flat hb name with ⟨d, hd, hd'⟩ | ⟨-, hglobal⟩
  · cases hs : d.settled with
    | false =>
        rw [hresolve, hs, if_neg Bool.false_ne_true] at hd'
        cases hd'
    | true =>
        rw [hresolve, hs, if_pos rfl] at hd'
        cases hd'
        have hmem := hd.mem
        have hsame := Numbered.eq_of_slot_eq hb.numbered hmem.1 he heslot.symm
        rw [← hsame, hmem.2] at hehidden
        exact hehidden hname
  · rw [hresolve] at hglobal
    cases hglobal

theorem Hides.mono {b' : Blocks} (h : b.Hides kept)
    (hsub : forall d, d ∈ b.declarations -> d ∈ b'.declarations) : b'.Hides kept := by
  intro n hn
  rcases h n hn with ⟨d, hd, hslot⟩
  exact ⟨d, hsub d hd, hslot⟩

theorem Hides.add (h : b.Hides kept) (name : String) (settled : Bool) :
    (b.add name settled).Hides kept :=
  h.mono fun _ hd => List.mem_cons_of_mem _ hd

theorem Hides.enter (h : b.Hides kept) : b.enter.Hides kept :=
  h

theorem hides_nothing (b : Blocks) : b.Hides fun _ => False :=
  fun _ hn => hn.elim

end Blocks

/-! ## Names and what has been defined -/

def Spot.Named (p : Spot) : Prop :=
  forall t, t ∈ p.previous :: p.tokens -> t.token.Named

namespace Reading

variable {r r' : Reading}

theorem Proper.named (hr : r.Proper) : r.spot.Named := by
  intro t ht
  rcases List.mem_cons.mp ht with rfl | ht
  · exact hr.previous
  · rcases List.mem_cons.mp ht with rfl | ht
    · exact hr.current
    · exact hr.rest t ht

theorem Steps.proper (h : r.Steps r') (hr : r.Proper) : r'.Proper := by
  obtain ⟨hsame, uses, hgoes⟩ := h
  have hdefinitions : r'.definitions = r.definitions := congrArg Surroundings.definitions hsame
  have hnamed : r'.spot.Named := hgoes.keeps hr.named fun p p' hnext hp t ht =>
    hp t (List.mem_cons_of_mem _ (Spot.mem_of_next hnext ht))
  constructor
  · exact hnamed _ List.mem_cons_self
  · exact hnamed _ (List.mem_cons_of_mem _ List.mem_cons_self)
  · exact fun t ht => hnamed t (List.mem_cons_of_mem _ (List.mem_cons_of_mem _ ht))
  · rw [hdefinitions]
    exact hr.definitions

/-- Nothing but the scope, the function and the loop is changed. -/
theorem Proper.within (hr : r.Proper) (s : Scope) (inFunction : Bool) (loop : Option Nat) :
    Proper { r with scope := s, inFunction := inFunction, loop := loop } :=
  ⟨hr.previous, hr.current, hr.rest, hr.definitions⟩

theorem Proper.define {d : Definition} (hr : r.Proper) (hd : d.Spares) :
    Proper { r with definitions := r.definitions.push d } := by
  refine ⟨hr.previous, hr.current, hr.rest, fun e he => ?_⟩
  rcases Array.mem_push.mp he with he | rfl
  · exact hr.definitions e he
  · exact hd

end Reading

/-! ## Values -/

/-- Values are computed in a scope that stays as it is.  They satisfy `W` if no name stands for one
of the kept slots. -/
structure Scope.Computes (s : Scope) (W : (Nat -> Prop) -> Prop) (s' : Scope) : Prop where
  scope : s' = s
  spares : forall kept, s.Spares kept -> W kept

section Computes

variable {s s1 s' : Scope} {W W' : (Nat -> Prop) -> Prop} {kept : Nat -> Prop} {b : Blocks}

theorem Scope.computes_here (h : forall kept, s.Spares kept -> W kept) : s.Computes W s :=
  ⟨rfl, h⟩

theorem Scope.Computes.and (h : s.Computes W s1) (h' : s1.Computes W' s') :
    s.Computes (fun kept => W kept ∧ W' kept) s' where
  scope := h'.scope.trans h.scope
  spares kept hkept := ⟨h.spares kept hkept, h'.spares kept (h.scope ▸ hkept)⟩

theorem Scope.Finds.spares {name : String} {v : Variable} (h : s.Finds name v)
    (hname : Written name) (hs : s.Spares kept) : v.Spares kept := by
  unfold Scope.Finds at h
  cases hres : s.resolve name with
  | slot n =>
      rw [hres] at h
      exact h ▸ hs name n hname hres
  | unsettled =>
      rw [hres] at h
      exact h.elim
  | global =>
      rw [hres] at h
      exact h ▸ trivial

/-- The variable that the token consumed last stands for, and a value. -/
theorem Scope.Computes.named {r : Reading} {name : String} {v : Variable}
    (h : r.scope.Computes W s') (hr : r.Proper) (hname : r.previous.token = .name name)
    (hv : r.scope.Finds name v) :
    r.scope.Computes (fun kept => v.Spares kept ∧ W kept) s' := by
  have hwritten : Written name := by
    have hnamed := hr.previous
    rwa [hname] at hnamed
  exact ⟨h.scope, fun kept hkept => ⟨hv.spares hwritten hkept, h.spares kept hkept⟩⟩

end Computes

/-! ## Blocks -/

/-- The scope is that of the blocks, and no local waits for its value. -/
structure Blocks.Stands (b : Blocks) (s : Scope) : Prop where
  sound : b.Sound
  idle : b.Idle
  flat : s = b.flat

/-- A statement leads from blocks to others and leaves the locals alone that the blocks hide. -/
def Secludes (b : Blocks) (a : Stmt) (b' : Blocks) : Prop :=
  a.after b.size = b'.size ∧ forall kept, b.Hides kept -> forall next, a.Spares kept next b.size

section Blocks

variable {b b' : Blocks} {s s' scope : Scope} {name : String} {kept : Nat -> Prop} {a : Stmt}
  {W : (Nat -> Prop) -> Prop}

theorem Blocks.Stands.spares (h : b.Stands s) (hkept : b.Hides kept) : s.Spares kept :=
  h.flat ▸ hkept.spares h.sound

theorem Blocks.Stands.reaches (h : b.Stands s) (hreach : b.Reaches b') (hs' : s' = b'.flat) :
    b'.Stands s' :=
  ⟨hreach.sound h.sound, hreach.idle, hs'⟩

theorem Blocks.Stands.enter (h : b.Stands s) : b.enter.Stands s.enter :=
  ⟨h.sound.enter h.idle, h.idle, congrArg Scope.enter h.flat⟩

theorem Blocks.Stands.declare (h : b.Stands s) (hscope : s.declare? name = some scope) :
    name ∉ b.names ∧ scope = (b.add name false).flat := by
  rw [h.flat, Blocks.declare?_flat h.sound] at hscope
  split at hscope
  case isTrue => cases hscope
  case isFalse hname => exact ⟨hname, (Option.some.inj hscope).symm⟩

/-- A declared local that has got its value. -/
theorem Blocks.Stands.settle (h : b.Stands s) (hscope : s.declare? name = some scope) :
    b.Reaches (b.add name true) ∧ (b.add name true).Stands scope.settle := by
  obtain ⟨hname, hflat⟩ := h.declare hscope
  have hreach := Blocks.reaches_declare h.idle hname
  exact ⟨hreach, h.reaches hreach (congrArg Scope.settle hflat)⟩

theorem size_of_enter_reaches (hreach : b.enter.Reaches b') :
    b'.size = b'.current.length + b.size := by
  have houter : b'.outer = b.all := hreach.outer
  rw [Blocks.size, Blocks.declarations, Blocks.all, houter, List.flatten_cons, List.length_append]
  rfl

/-- Behind a block its locals are forgotten, and the blocks are those from before it. -/
theorem Blocks.Stands.exit (h : b.Stands s) (hreach : b.enter.Reaches b') (hs' : b'.Stands s') :
    s'.exit = s ∧ s'.above (s'.depth - 1) = b'.current.length := by
  rw [hs'.flat, h.flat]
  exact ⟨Blocks.exit_flat hs'.sound hreach.outer, Blocks.above_flat hs'.sound hreach.outer⟩

theorem hides_reached (hreach : b.Reaches b') (hidle : b.Idle) (hkept : b.Hides kept) :
    b'.Hides kept :=
  hkept.mono fun _ hd => hreach.mem hidle hd

theorem not_written {s : String} (h : s.toList.head? = some '<') : ¬ Written s := by
  rintro ⟨c, rest, rfl, hc⟩
  rw [String.toList_ofList] at h
  cases h
  exact absurd hc (by decide)

theorem settled_flat (hidle : b.Idle) : b.flat.Settled := by
  intro l hl
  rcases Blocks.outside_toLocals hidle l hl with ⟨d, hd, hlt⟩
  exact ⟨d, hd, Nat.le_of_lt_succ hlt⟩

/-- The blocks behind the three locals that a loop over a collection keeps. -/
def hideAll (b : Blocks) : Blocks :=
  ((b.add "<iterable>" true).add "<keys>" true).add "<index>" true

theorem reaches_hideAll (hidle : b.Idle) (hempty : b.current = []) : b.Reaches (hideAll b) := by
  have hidle1 := hidle.add "<iterable>"
  have hidle2 := hidle1.add "<keys>"
  have h1 : b.Reaches (b.add "<iterable>" true) :=
    Blocks.reaches_hide hidle (by simp [Blocks.names, hempty])
  have h2 : (b.add "<iterable>" true).Reaches ((b.add "<iterable>" true).add "<keys>" true) :=
    Blocks.reaches_hide hidle1 (by simp [Blocks.names, Blocks.add, hempty])
  have h3 : ((b.add "<iterable>" true).add "<keys>" true).Reaches (hideAll b) :=
    Blocks.reaches_hide hidle2 (by simp [Blocks.names, Blocks.add, hempty])
  exact (h1.trans h2).trans h3

theorem hides_hideAll (hk : b.Hides kept) :
    (hideAll b).Hides fun k => kept k ∨ b.size <= k ∧ k < b.size + 3 := by
  have hslot : forall name n, ¬ Written name -> ⟨name, n, true⟩ ∈ (hideAll b).declarations ->
      exists d, d ∈ (hideAll b).declarations ∧ d.slot = n ∧ ¬ Written d.name :=
    fun name n hname hmem => ⟨_, hmem, rfl, hname⟩
  rintro n (hn | ⟨hle, hlt⟩)
  · exact (((hk.add _ true).add _ true).add _ true) n hn
  · obtain rfl | rfl | rfl : n = b.size ∨ n = b.size + 1 ∨ n = b.size + 2 := by lia
    · refine hslot "<iterable>" _ (not_written rfl) ?_
      exact List.mem_cons_of_mem _ (List.mem_cons_of_mem _ List.mem_cons_self)
    · refine hslot "<keys>" _ (not_written rfl) ?_
      exact List.mem_cons_of_mem _ List.mem_cons_self
    · exact hslot "<index>" _ (not_written rfl) List.mem_cons_self

end Blocks

/-! ## Pieces -/

/-- What stands between two readings leaves the locals alone that no name of the text reaches, and
the scope goes through the blocks of the text. -/
def Piece.Spares (s s' : Scope) : Piece -> Prop
  | .expr e => s.Computes (fun kept => e.Spares kept) s'
  | .exprs es => s.Computes (fun kept => Expr.AllSpare kept es) s'
  | .locals n => forall b : Blocks, b.Stands s ->
      exists b', b'.Stands s' ∧ b.Reaches b' ∧ b'.size = b.size + n
  | .body d => s = Scope.function -> d.Spares
  | .function _ => s' = s
  | .statement a => forall b : Blocks, b.Stands s -> s' = s ∧ Secludes b a b
  | .declaration a => forall b : Blocks, b.Stands s ->
      exists b', b'.Stands s' ∧ b.Reaches b' ∧ Secludes b a b'
  | .loop a => forall b : Blocks, b.Stands s -> b.current = [] ->
      exists b', b'.Stands s' ∧ b.Reaches b' ∧ a.after b.size = b'.size ∧
        forall kept, b.Hides kept -> a.Spares kept (some b'.current.length) b.size

theorem Stmt.Performs.spares {e : Expr} {line n : Nat} {a : Stmt} {kept : Nat -> Prop}
    {next : Option Nat} (h : a.Performs e line) (he : e.Spares kept) : a.Spares kept next n := by
  cases h <;> exact he

section Pieces

variable {s s1 s2 s' scope : Scope} {a c : Stmt} {e : Expr} {name : String} {n line : Nat}

/-! ### Functions -/

theorem idle_function : Blocks.function.Idle := by
  decide

theorem spares_local (hscope : s.declare? name = some scope)
    (h : Piece.Spares scope.settle s' (.locals n)) : Piece.Spares s s' (.locals (n + 1)) := by
  intro b hb
  obtain ⟨hreach, hb1⟩ := hb.settle hscope
  obtain ⟨b', hb', hreach', hsize⟩ := h _ hb1
  refine ⟨b', hb', hreach.trans hreach', hsize.trans ?_⟩
  show b.size + 1 + n = b.size + (n + 1)
  lia

theorem spares_body (h : Piece.Spares s s1 (.locals n))
    (ha : Piece.Spares s1 s' (.declaration a)) :
    Piece.Spares s s' (.body ⟨name, n, a, line⟩) := by
  intro hs
  have hstands : Blocks.function.Stands s := ⟨Blocks.sound_function, idle_function, hs⟩
  obtain ⟨b1, hb1, -, hsize⟩ := h _ hstands
  obtain ⟨b', -, -, -, hspares⟩ := ha b1 hb1
  have hheight : b1.size = n + 1 := hsize.trans (Nat.add_comm 1 n)
  show a.Spares _ _ (n + 1)
  rw [← hheight]
  exact hspares _ b1.hides_nothing none

/-! ### Statements -/

theorem Scope.Computes.performs (h : s.Computes (fun kept => e.Spares kept) s')
    (ha : a.Performs e line) : Piece.Spares s s' (.statement a) := by
  intro b hb
  have he {kept : Nat -> Prop} (hkept : b.Hides kept) : e.Spares kept :=
    h.spares kept (hb.spares hkept)
  exact ⟨h.scope, ha.after_eq, fun kept hkept _ => ha.spares (he hkept)⟩

/-- Behind a block its locals are forgotten. -/
theorem after_drop {b b' : Blocks} (hreach : b.enter.Reaches b') (hafter : a.after b.size = b'.size)
    (hn : n = b'.current.length) : (Stmt.seq a (.drop n line)).after b.size = b.size := by
  have hsize := size_of_enter_reaches hreach
  show a.after b.size - n = b.size
  lia

theorem spares_block (h : Piece.Spares s.enter s' (.declaration a)) :
    Piece.Spares s s'.exit (.statement (.seq a (.drop (s'.above (s'.depth - 1)) line))) := by
  intro b hb
  obtain ⟨b', hb', hreach, hafter, hspares⟩ := h b.enter hb.enter
  obtain ⟨hexit, hdrop⟩ := hb.exit hreach hb'
  refine ⟨hexit, after_drop hreach hafter hdrop, fun kept hkept _ => ?_⟩
  exact ⟨hspares kept hkept _, trivial⟩

theorem spares_for (h : Piece.Spares s.enter s' (.loop a)) :
    Piece.Spares s s'.exit (.statement (.seq a (.drop (s'.above (s'.depth - 1)) line))) := by
  intro b hb
  obtain ⟨b', hb', hreach, hafter, hspares⟩ := h b.enter hb.enter rfl
  obtain ⟨hexit, hdrop⟩ := hb.exit hreach hb'
  refine ⟨hexit, after_drop hreach hafter hdrop, fun kept hkept _ => ⟨?_, trivial⟩⟩
  rw [hdrop]
  exact hspares kept hkept

theorem spares_cond {line' : Nat} (he : s.Computes (fun kept => e.Spares kept) s1)
    (ha : Piece.Spares s1 s2 (.statement a)) (hc : Piece.Spares s2 s' (.statement c)) :
    Piece.Spares s s' (.statement (.cond e line a line' c)) := by
  intro b hb
  obtain ⟨rfl, hspares⟩ := he
  obtain ⟨rfl, -, hbody⟩ := ha b hb
  obtain ⟨rfl, -, hother⟩ := hc b hb
  refine ⟨rfl, rfl, fun kept hkept _ => ?_⟩
  exact ⟨hspares kept (hb.spares hkept), hbody kept hkept none, hother kept hkept none⟩

theorem spares_while {line' : Nat} (he : s.Computes (fun kept => e.Spares kept) s1)
    (ha : Piece.Spares s1 s' (.statement a)) :
    Piece.Spares s s' (.statement (.while e line a line')) := by
  intro b hb
  obtain ⟨rfl, hspares⟩ := he
  obtain ⟨rfl, -, hbody⟩ := ha b hb
  refine ⟨rfl, rfl, fun kept hkept _ => ?_⟩
  exact ⟨hspares kept (hb.spares hkept), hbody kept hkept none⟩

/-- A handler with a variable declares it in a block of its own. -/
theorem spares_try {dropLine : Nat} (ha : Piece.Spares s s1 (.statement a))
    (hscope : s1.enter.declare? name = some scope)
    (hc : Piece.Spares scope.settle s' (.statement c)) :
    Piece.Spares s s'.exit (.statement
      (.try n a line (.seq c (.drop (s'.above (s'.depth - 1)) dropLine)))) := by
  intro b hb
  obtain ⟨rfl, -, hbody⟩ := ha b hb
  obtain ⟨hreach, hb1⟩ := hb.enter.settle hscope
  obtain ⟨rfl, -, hhandler⟩ := hc _ hb1
  obtain ⟨hexit, -⟩ := hb.exit hreach hb1
  refine ⟨hexit, rfl, fun kept hkept _ => ⟨hbody kept hkept none, ?_, trivial⟩⟩
  exact hhandler kept (hkept.enter.add name true) _

/-- A handler without a variable forgets the thrown value first. -/
theorem spares_tryAny {line' dropLine : Nat} (ha : Piece.Spares s s1 (.statement a))
    (hc : Piece.Spares s1.enter s' (.statement c)) :
    Piece.Spares s s'.exit (.statement (.try n a line
      (.seq (.drop 1 line') (.seq c (.drop (s'.above (s'.depth - 1)) dropLine))))) := by
  intro b hb
  obtain ⟨rfl, -, hbody⟩ := ha b hb
  obtain ⟨rfl, -, hhandler⟩ := hc b.enter hb.enter
  obtain ⟨hexit, -⟩ := hb.exit (.refl hb.idle) hb.enter
  refine ⟨hexit, rfl, fun kept hkept _ => ⟨hbody kept hkept none, trivial, ?_, trivial⟩⟩
  exact hhandler kept hkept _

/-! ### Declarations -/

theorem spares_plain (h : Piece.Spares s s' (.statement a)) :
    Piece.Spares s s' (.declaration a) := by
  intro b hb
  obtain ⟨rfl, hsecludes⟩ := h b hb
  exact ⟨b, hb, .refl hb.idle, hsecludes⟩

theorem spares_seq (ha : Piece.Spares s s1 (.declaration a))
    (hc : Piece.Spares s1 s' (.declaration c)) : Piece.Spares s s' (.declaration (.seq a c)) := by
  intro b hb
  obtain ⟨b1, hb1, hreach, hafter, hspares⟩ := ha b hb
  obtain ⟨b', hb', hreach', hafter', hspares'⟩ := hc b1 hb1
  refine ⟨b', hb', hreach.trans hreach', ?_, fun kept hkept next => ⟨hspares kept hkept _, ?_⟩⟩
  · rw [Stmt.after, hafter, hafter']
  · rw [hafter]
    exact hspares' kept (hides_reached hreach hb.idle hkept) next

theorem spares_bind (hscope : s.declare? name = some scope)
    (h : scope.Computes (fun kept => e.Spares kept) s') :
    Piece.Spares s s'.settle (.declaration (.bind e)) := by
  intro b hb
  obtain ⟨rfl, hspares⟩ := h
  obtain ⟨hname, hflat⟩ := hb.declare hscope
  obtain ⟨hreach, hb'⟩ := hb.settle hscope
  have hsound : (b.add name false).Sound := hb.sound.add hb.idle hname
  refine ⟨_, hb', hreach, rfl, fun kept hkept _ => hspares kept ?_⟩
  rw [hflat]
  exact (hkept.add name false).spares hsound

theorem spares_bindFunction {id : Nat} (hscope : s.declare? name = some scope)
    (h : s' = scope.settle) : Piece.Spares s s' (.declaration (.bind (.function id line))) := by
  intro b hb
  obtain ⟨hreach, hb'⟩ := hb.settle hscope
  exact ⟨_, h ▸ hb', hreach, rfl, fun _ _ _ => trivial⟩

/-! ### Loops -/

theorem spares_stepping {step : Expr} {stepLine bodyLine line' : Nat} {s3 : Scope}
    (ha : Piece.Spares s s1 (.declaration a)) (he : s1.Computes (fun kept => e.Spares kept) s2)
    (hstep : s2.Computes (fun kept => step.Spares kept) s3)
    (hc : Piece.Spares s3 s' (.statement c)) :
    Piece.Spares s s' (.loop (.seq a (.stepping e line line' step stepLine c bodyLine))) := by
  intro b hb _
  obtain ⟨b1, hb1, hreach, hafter, hspares⟩ := ha b hb
  obtain ⟨rfl, hcondition⟩ := he
  obtain ⟨rfl, hnext⟩ := hstep
  obtain ⟨rfl, -, hbody⟩ := hc b1 hb1
  refine ⟨b1, hb1, hreach, hafter, fun kept hkept => ⟨hspares kept hkept _, ?_⟩⟩
  have hkept1 := hides_reached hreach hb.idle hkept
  have hspares1 := hb1.spares hkept1
  rw [hafter]
  exact ⟨hcondition kept hspares1, hnext kept hspares1, hbody kept hkept1 none⟩

/-- The body of a loop over a collection starts above its locals and keeps off the three that have
no names. -/
theorem spares_collection {bodyLine : Nat} (he : s.Computes (fun kept => e.Spares kept) s1)
    (hlocals : Piece.Spares (((s1.hide "<iterable>").hide "<keys>").hide "<index>") s2 (.locals n))
    (hc : Piece.Spares s2 s' (.statement c))
    (hfits : s2.Settled -> c.Fits (fun _ => True) (some s2.size) s2.size s2.size) :
    Piece.Spares s s' (.loop (.seq (.bind e) (.iterate s1.size n line c bodyLine))) := by
  intro b hb hempty
  obtain ⟨rfl, hspares⟩ := he
  have hhide := reaches_hideAll hb.idle hempty
  have hflat : ((s1.hide "<iterable>").hide "<keys>").hide "<index>" = (hideAll b).flat := by
    rw [hb.flat]
    rfl
  obtain ⟨b2, hb2, hreach, hsize⟩ := hlocals _ (hb.reaches hhide hflat)
  obtain ⟨rfl, -, hbody⟩ := hc b2 hb2
  have hthree : (hideAll b).size = b.size + 3 := rfl
  have hheight : b.size + 1 + n + 2 = b2.size := by lia
  have hcurrent : b2.current.length = n + 3 := by
    have houter : b2.outer = b.outer := (hhide.trans hreach).outer
    have hsize' : b2.size = b2.current.length + b2.outer.flatten.length := List.length_append
    have hold : b.size = b.outer.flatten.length := by
      rw [Blocks.size, Blocks.declarations, Blocks.all, List.flatten_cons, hempty, List.nil_append]
    rw [houter, ← hold] at hsize'
    lia
  have hslot : s1.size = b.size := by rw [hb.flat, Blocks.size_flat]; rfl
  have hslot' : s'.size = b2.size := by rw [hb2.flat, Blocks.size_flat]; rfl
  refine ⟨b2, hb2, hhide.trans hreach, ?_, fun kept hkept => ?_⟩
  · show b.size + 1 + (n + 2) = b2.size
    lia
  · refine ⟨hspares kept (hb.spares hkept), congrArg some hcurrent, ?_, ?_⟩
    · show c.Fits _ (some (b.size + 1 + n + 2)) (b.size + 1 + n + 2) (b.size + 1 + n + 2)
      rw [hheight, ← hslot']
      exact hfits (hb2.flat ▸ settled_flat hb2.idle)
    · show c.Spares _ none (b.size + 1 + n + 2)
      rw [hheight, hslot]
      exact hbody _ (hides_reached hreach hhide.idle (hides_hideAll hkept)) none

end Pieces

/-- What stands between two readings leaves the locals alone that no name of the text reaches. -/
theorem Reading.Spells.spares {r r' : Reading} {p : Piece} (h : r.Spells p r') (hr : r.Proper) :
    r'.Proper ∧ p.Spares r.scope r'.scope := by
  induction h with
  | @ahead r r1 r' p hsteps _ ih =>
      have hscope : r1.scope = r.scope := congrArg Surroundings.scope hsteps.1
      exact hscope ▸ ih (hsteps.proper hr)
  | @behind r r1 r' p _ hsteps ih =>
      have hscope : r'.scope = r1.scope := congrArg Surroundings.scope hsteps.1
      obtain ⟨hr1, h⟩ := ih hr
      exact ⟨hsteps.proper hr1, hscope ▸ h⟩
  | literal | text | nil => exact ⟨hr, Scope.computes_here fun _ _ => trivial⟩
  | closure _ ih =>
      obtain ⟨hr', hscope⟩ := ih hr
      exact ⟨hr', hscope, fun _ _ => trivial⟩
  | read hname hv =>
      obtain ⟨hscope, hspares⟩ := (Scope.computes_here fun _ _ => trivial).named hr hname hv
      exact ⟨hr, hscope, fun kept hkept => (hspares kept hkept).1⟩
  | assign hname hv _ ih =>
      obtain ⟨hr', h⟩ := ih hr
      exact ⟨hr', h.named hr hname hv⟩
  | @update r r1 r' name v a op hname hv hsteps _ ih =>
      have hscope : r1.scope = r.scope := congrArg Surroundings.scope hsteps.1
      obtain ⟨hr', h⟩ := ih (hsteps.proper hr)
      rw [hscope] at h
      exact ⟨hr', Scope.Computes.named h hr hname hv⟩
  | unary _ _ ih | property _ _ ih | array _ ih | table _ _ ih => exact ih hr
  | binary _ _ _ ih ih' | connect _ _ _ ih ih' | call _ _ ih ih' | setProperty _ _ _ ih ih'
  | updateProperty _ _ _ _ ih ih' | cons _ _ ih ih' =>
      obtain ⟨hr1, h⟩ := ih hr
      obtain ⟨hr', h'⟩ := ih' hr1
      exact ⟨hr', h.and h'⟩
  | ternary _ _ _ _ ih ih' ih'' | updateItem _ _ _ _ ih ih' ih'' =>
      obtain ⟨hr1, h⟩ := ih hr
      obtain ⟨hr2, h'⟩ := ih' hr1
      obtain ⟨hr', h''⟩ := ih'' hr2
      exact ⟨hr', h.and (h'.and h'')⟩
  | none => exact ⟨hr, fun b hb => ⟨b, hb, .refl hb.idle, rfl⟩⟩
  | «local» hscope _ ih =>
      obtain ⟨hr', h⟩ := ih (hr.within _ _ _)
      exact ⟨hr', spares_local hscope h⟩
  | body name _ _ ih ih' =>
      obtain ⟨hr1, h⟩ := ih hr
      obtain ⟨hr', h'⟩ := ih' hr1
      exact ⟨hr', spares_body h h'⟩
  | function _ ih =>
      obtain ⟨hr', h⟩ := ih (hr.within _ _ _)
      exact ⟨(hr'.define (h rfl)).within _ _ _, rfl⟩
  | skip => exact ⟨hr, fun _ _ => ⟨rfl, rfl, fun _ _ _ => trivial⟩⟩
  | leave | again => exact ⟨hr, fun _ _ => ⟨rfl, rfl, fun _ _ _ => trivial⟩⟩
  | perform _ hperforms ih =>
      obtain ⟨hr', h⟩ := ih hr
      exact ⟨hr', h.performs hperforms⟩
  | block _ ih =>
      obtain ⟨hr', h⟩ := ih (hr.within _ _ _)
      exact ⟨hr'.within _ _ _, spares_block h⟩
  | «for» _ ih =>
      obtain ⟨hr', h⟩ := ih (hr.within _ _ _)
      exact ⟨hr'.within _ _ _, spares_for h⟩
  | cond _ _ _ ih ih' ih'' =>
      obtain ⟨hr1, h⟩ := ih hr
      obtain ⟨hr2, h'⟩ := ih' hr1
      obtain ⟨hr', h''⟩ := ih'' hr2
      exact ⟨hr', spares_cond h h' h''⟩
  | «while» _ _ ih ih' =>
      obtain ⟨hr1, h⟩ := ih hr
      obtain ⟨hr', h'⟩ := ih' (hr1.within _ _ _)
      exact ⟨hr'.within _ _ _, spares_while h h'⟩
  | @«try» r r1 r2 r3 r' body handler name scope _ hsteps hsteps' hscope _ ih ih' =>
      obtain ⟨hr1, h⟩ := ih hr
      have hentered : r3.scope = r1.scope.enter :=
        congrArg Surroundings.scope (surroundings_entered hsteps hsteps')
      have hr3 := hsteps'.proper ((hsteps.proper hr1).within _ _ _)
      obtain ⟨hr', h'⟩ := ih' (hr3.within _ _ _)
      exact ⟨hr'.within _ _ _, spares_try h (hentered ▸ hscope) h'⟩
  | @tryAny r r1 r2 r3 r' body handler _ hsteps hsteps' _ ih ih' =>
      obtain ⟨hr1, h⟩ := ih hr
      have hentered : r3.scope = r1.scope.enter :=
        congrArg Surroundings.scope (surroundings_entered hsteps hsteps')
      obtain ⟨hr', h'⟩ := ih' (hsteps'.proper ((hsteps.proper hr1).within _ _ _))
      rw [hentered] at h'
      exact ⟨hr'.within _ _ _, spares_tryAny h h'⟩
  | plain _ ih =>
      obtain ⟨hr', h⟩ := ih hr
      exact ⟨hr', spares_plain h⟩
  | seq _ _ ih ih' =>
      obtain ⟨hr1, h⟩ := ih hr
      obtain ⟨hr', h'⟩ := ih' hr1
      exact ⟨hr', spares_seq h h'⟩
  | bind hscope _ ih =>
      obtain ⟨hr', h⟩ := ih (hr.within _ _ _)
      exact ⟨hr'.within _ _ _, spares_bind hscope h⟩
  | bindFunction hscope _ ih =>
      obtain ⟨hr', h⟩ := ih (hr.within _ _ _)
      exact ⟨hr', spares_bindFunction hscope h⟩
  | @stepping r r1 r2 r3 r4 r' start body c step _ _ hsteps _ _ ih ih' ih'' ih3 =>
      obtain ⟨hr1, h⟩ := ih hr
      obtain ⟨hr2, h'⟩ := ih' hr1
      have hscope : r3.scope = r2.scope := congrArg Surroundings.scope hsteps.1
      obtain ⟨hr4, h''⟩ := ih'' (hsteps.proper hr2)
      rw [hscope] at h''
      obtain ⟨hr', h3⟩ := ih3 (hr4.within _ _ _)
      exact ⟨hr'.within _ _ _, spares_stepping h h' h'' h3⟩
  | @collection r r1 r2 r' e n body _ _ _ hbody ih ih' ih'' =>
      obtain ⟨hr1, h⟩ := ih hr
      obtain ⟨hr2, h'⟩ := ih' (hr1.within _ _ _)
      obtain ⟨hr', h''⟩ := ih'' (hr2.within _ _ _)
      refine ⟨hr'.within _ _ _, spares_collection h h' h'' fun hsettled => ?_⟩
      have hstays := hbody.fits (Surroundings.within_loop (s := r2.surroundings) hsettled)
      exact (Surroundings.Stays.body_fits (s := r2.surroundings) hsettled hstays
        (fun _ _ => trivial) (Nat.le_refl _)).1

/-! ## What the reader gives -/

namespace Parser

/-- A step from the scope of some blocks to the scope of others, which satisfy `T` with its
result. -/
def From {α : Type} (b : Blocks) (T : α -> Blocks -> Prop) (x : Parser α) : Prop :=
  forall r a r', x r = .ok (a, r') -> r.Proper -> r.scope = b.flat ->
    r'.Proper ∧ exists b', b'.Sound ∧ r'.scope = b'.flat ∧ T a b'

section From

variable {b : Blocks} (hb : b.Sound) (hidle : b.Idle) (fuel : Nat)

include hb hidle

/-- The parameters of a function are locals of its first block. -/
theorem from_parameters : From b (fun _ b' => b.Reaches b') (parameters fuel) := by
  intro r n r' hread hr hscope
  obtain ⟨-, -, -, -, hspells⟩ := (proceeds_parameters (Nat.le_refl fuel) r).gives n r' hread
  obtain ⟨hr', hspares⟩ := hspells.spares hr
  obtain ⟨b', hb', hreach, -⟩ := hspares b ⟨hb, hidle, hscope⟩
  exact ⟨hr', b', hb'.sound, hb'.flat, hreach⟩

theorem from_declarations (inBlock : Bool) :
    From b (fun _ b' => b.Reaches b') (declarations fuel inBlock) := by
  intro r a r' hread hr hscope
  obtain ⟨-, -, -, -, hspells⟩ :=
    ((reader (Nat.le_refl fuel)).declarations false r inBlock).gives a r' hread
  obtain ⟨hr', hspares⟩ := hspells.spares hr
  obtain ⟨b', hb', hreach, -⟩ := hspares b ⟨hb, hidle, hscope⟩
  exact ⟨hr', b', hb'.sound, hb'.flat, hreach⟩

end From

theorem idle_script : Blocks.script.Idle := by
  decide

end Parser

/-- Nothing in a script that is read touches the locals of its loops over collections. -/
theorem parse_spares {base : Nat} {source : String} {s : Script}
    (h : parse base source = .ok s) :
    s.body.Spares (fun _ => False) none 1 ∧ forall d, d ∈ s.definitions -> d.Spares := by
  obtain ⟨t, rest, failure, r', htokens, hspells, hdefinitions, -⟩ := spells_of_parse h
  have hnamed := tokenize_named source
  rw [htokens] at hnamed
  have hnone : forall d, d ∈ #[] -> Definition.Spares d := fun d hd => absurd hd (by simp)
  have hr : (Parser.begun base t rest failure).Proper :=
    ⟨trivial, hnamed t List.mem_cons_self, fun u hu => hnamed u (List.mem_cons_of_mem _ hu), hnone⟩
  obtain ⟨hr', hspares⟩ := hspells.spares hr
  obtain ⟨b, -, -, -, hsecludes⟩ :=
    hspares Blocks.script ⟨Blocks.sound_script, Parser.idle_script, rfl⟩
  refine ⟨hsecludes _ (Blocks.hides_nothing _) none, ?_⟩
  rw [hdefinitions]
  exact hr'.definitions

end StackScript
