import StackScript.Script.Layout

/-!
# Code whose lines do not go down

Code rises from one line to another if the lines of its instructions do not go down and lie between
the two.  Such pieces of code can be put behind each other, and the code of a tree rises if its
parts do and the lines of its own nodes lie between those of its parts.
-/

namespace StackScript

/-- The lines of the code do not go down; they begin with `lo` or later and end with `hi` or
earlier. -/
def Rises (hi : Nat) : Nat -> Lines -> Prop
  | lo, [] => lo <= hi
  | lo, (_, line) :: rest => lo <= line ∧ Rises hi line rest

/-! ## Pieces of code -/

section Pieces

variable {lo mid hi line n : Nat} {i : Instr} {c c' : Lines}

theorem Rises.le (h : Rises hi lo c) : lo <= hi := by
  induction c generalizing lo with
  | nil => exact h
  | cons x c ih => exact Nat.le_trans h.1 (ih h.2)

theorem Rises.earlier {lo' : Nat} (h : Rises hi lo c) (hlo : lo' <= lo) : Rises hi lo' c := by
  cases c with
  | nil => exact Nat.le_trans hlo h
  | cons x c => exact ⟨Nat.le_trans hlo h.1, h.2⟩

theorem Rises.later {hi' : Nat} (h : Rises hi lo c) (hhi : hi <= hi') : Rises hi' lo c := by
  induction c generalizing lo with
  | nil => exact Nat.le_trans h hhi
  | cons x c ih => exact ⟨h.1, ih h.2⟩

theorem Rises.append {m : Nat} (h : Rises m lo c) (h' : Rises hi m c') :
    Rises hi lo (c ++ c') := by
  induction c generalizing lo with
  | nil => exact h'.earlier h
  | cons x c ih => exact ⟨h.1, ih h.2⟩

/-- An instruction on the last line. -/
theorem Rises.last (h : lo <= hi) : Rises hi lo [(i, hi)] :=
  ⟨h, Nat.le_refl hi⟩

theorem Rises.pops (h : lo <= hi) : Rises hi lo (pops n hi) := by
  induction n generalizing lo with
  | zero => exact h
  | succ n ih => exact ⟨h, ih (Nat.le_refl hi)⟩

theorem Rises.bounds (h : Rises hi lo c) : forall x, x ∈ c -> lo <= x.2 ∧ x.2 <= hi := by
  induction c generalizing lo with
  | nil => nofun
  | cons y c ih =>
      intro x hx
      rcases List.mem_cons.mp hx with rfl | hx
      · exact ⟨h.1, h.2.le⟩
      · exact ⟨Nat.le_trans h.1 (ih h.2 x hx).1, (ih h.2 x hx).2⟩

theorem Rises.sorted (h : Rises hi lo c) : (c.map Prod.snd).Pairwise (· <= ·) := by
  induction c generalizing lo with
  | nil => exact List.Pairwise.nil
  | cons y c ih =>
      refine List.Pairwise.cons ?_ (ih h.2)
      intro line hline
      rcases List.mem_map.mp hline with ⟨x, hx, rfl⟩
      exact (h.2.bounds x hx).1

end Pieces

/-! ## Expressions -/

def Expr.Rises (lo hi : Nat) (e : Expr) : Prop :=
  forall k, StackScript.Rises hi lo (e.code k)

def Expr.AllRise (lo hi : Nat) (es : List Expr) : Prop :=
  forall k, StackScript.Rises hi lo (Expr.codes k es)

namespace Expr.Rises

variable {lo mid mid' hi opLine line : Nat} {a b c : Expr} {es : List Expr} {v : Variable}

theorem le (h : a.Rises lo hi) : lo <= hi :=
  (h fun _ => 0).le

theorem earlier {lo' : Nat} (h : a.Rises lo hi) (hlo : lo' <= lo) : a.Rises lo' hi :=
  fun k => (h k).earlier hlo

theorem later {hi' : Nat} (h : a.Rises lo hi) (hhi : hi <= hi') : a.Rises lo hi' :=
  fun k => (h k).later hhi

theorem literal {x : Literal} (h : lo <= hi) : (Expr.literal x hi).Rises lo hi :=
  fun _ => .last h

theorem text {s : String} (h : lo <= hi) : (Expr.text s hi).Rises lo hi :=
  fun _ => .last h

theorem function {id : Nat} (h : lo <= hi) : (Expr.function id hi).Rises lo hi :=
  fun _ => .last h

theorem read (h : lo <= hi) : (Expr.read v hi).Rises lo hi :=
  fun _ => .last h

theorem assign (ha : a.Rises lo mid) (h : mid <= hi) : (Expr.assign v a hi).Rises lo hi := by
  intro k
  exact (ha k).append (.last h)

/-- A variable is read on the line of the operator; adding a literal to a local writes one
instruction on the last line instead. -/
theorem update {op : Operator} (h : lo <= opLine) (ha : a.Rises opLine mid) (h' : mid <= hi) :
    (Expr.update v op opLine a hi).Rises lo hi := by
  intro k
  have hle := ha.le
  cases hinc : increment? v op a with
  | some target =>
      simp only [Expr.code, hinc]
      exact .last (by lia)
  | none =>
      simp only [Expr.code, hinc]
      exact ⟨h, (ha k).append ⟨h', .last (Nat.le_refl hi)⟩⟩

theorem unary {op : UnaryOp} (ha : a.Rises lo mid) (h : mid <= hi) :
    (Expr.unary op a hi).Rises lo hi := by
  intro k
  exact (ha k).append (.last h)

theorem binary {op : BinaryOp} (ha : a.Rises lo mid) (hb : b.Rises mid mid') (h : mid' <= hi) :
    (Expr.binary op a b hi).Rises lo hi := by
  intro k
  exact ((ha k).append (hb k)).append (.last h)

theorem ternary {op : TernaryOp} {mid'' : Nat} (ha : a.Rises lo mid) (hb : b.Rises mid mid')
    (hc : c.Rises mid' mid'') (h : mid'' <= hi) : (Expr.ternary op a b c hi).Rises lo hi := by
  intro k
  exact (((ha k).append (hb k)).append (hc k)).append (.last h)

theorem connect {op : Connective} (ha : a.Rises lo mid) (h : mid <= opLine)
    (hb : b.Rises opLine hi) : (Expr.connect op a opLine b).Rises lo hi := by
  intro k
  exact (ha k).append ⟨h, Nat.le_refl opLine, hb k⟩

theorem call (ha : a.Rises lo mid) (hes : Expr.AllRise mid mid' es) (h : mid' <= hi) :
    (Expr.call a es hi).Rises lo hi := by
  intro k
  exact ((ha k).append (hes k)).append (.last h)

theorem property {key : String} (ha : a.Rises lo mid) (h : mid <= hi) :
    (Expr.property a key hi).Rises lo hi := by
  intro k
  exact (ha k).append (.last h)

theorem setProperty {key : String} (ha : a.Rises lo mid) (hb : b.Rises mid mid') (h : mid' <= hi) :
    (Expr.setProperty a key b hi).Rises lo hi := by
  intro k
  exact ((ha k).append (hb k)).append (.last h)

theorem updateProperty {key : String} {op : Operator} (ha : a.Rises lo mid) (h : mid <= opLine)
    (hb : b.Rises opLine mid') (h' : mid' <= hi) :
    (Expr.updateProperty a key op opLine b hi).Rises lo hi := by
  intro k
  refine StackScript.Rises.append (m := mid') ?_ ⟨h', .last (Nat.le_refl hi)⟩
  exact (ha k).append ⟨h, Nat.le_refl opLine, hb k⟩

theorem updateItem {op : Operator} {mid'' : Nat} (ha : a.Rises lo mid) (hb : b.Rises mid mid')
    (h : mid' <= opLine) (hc : c.Rises opLine mid'') (h' : mid'' <= hi) :
    (Expr.updateItem a b op opLine c hi).Rises lo hi := by
  intro k
  refine StackScript.Rises.append (m := mid'') ?_ ⟨h', .last (Nat.le_refl hi)⟩
  exact ((ha k).append (hb k)).append ⟨h, Nat.le_refl opLine, hc k⟩

theorem array (hes : Expr.AllRise lo mid es) (h : mid <= hi) : (Expr.array es hi).Rises lo hi := by
  intro k
  exact (hes k).append (.last h)

theorem table (hes : Expr.AllRise lo mid es) (h : mid <= hi) : (Expr.table es hi).Rises lo hi := by
  intro k
  exact (hes k).append (.last h)

end Expr.Rises

theorem Expr.allRise_nil {lo hi : Nat} (h : lo <= hi) : Expr.AllRise lo hi [] :=
  fun _ => h

theorem Expr.AllRise.cons {lo mid hi : Nat} {e : Expr} {es : List Expr} (he : e.Rises lo mid)
    (hes : Expr.AllRise mid hi es) : Expr.AllRise lo hi (e :: es) := by
  intro k
  exact (he k).append (hes k)

/-! ## Statements -/

def Stmt.Rises (lo hi : Nat) (s : Stmt) : Prop :=
  forall k exits ip, StackScript.Rises hi lo (s.code k exits ip)

namespace Stmt.Rises

variable {lo mid mid' hi line : Nat} {e : Expr} {a b : Stmt}

theorem le (h : a.Rises lo hi) : lo <= hi :=
  (h (fun _ => 0) .outside 0).le

theorem earlier {lo' : Nat} (h : a.Rises lo hi) (hlo : lo' <= lo) : a.Rises lo' hi :=
  fun k exits ip => (h k exits ip).earlier hlo

theorem later {hi' : Nat} (h : a.Rises lo hi) (hhi : hi <= hi') : a.Rises lo hi' :=
  fun k exits ip => (h k exits ip).later hhi

theorem skip (h : lo <= hi) : Stmt.skip.Rises lo hi :=
  fun _ _ _ => h

theorem seq (ha : a.Rises lo mid) (hb : b.Rises mid hi) : (Stmt.seq a b).Rises lo hi := by
  intro k exits ip
  exact (ha k exits ip).append (hb k exits _)

theorem drop {n : Nat} (h : lo <= hi) : (Stmt.drop n hi).Rises lo hi :=
  fun _ _ _ => .pops h

theorem expr (he : e.Rises lo mid) (h : mid <= hi) : (Stmt.expr e hi).Rises lo hi := by
  intro k exits ip
  exact (he k).append (.last h)

theorem output {sink : Sink} (he : e.Rises lo mid) (h : mid <= hi) :
    (Stmt.output sink e hi).Rises lo hi := by
  intro k exits ip
  exact (he k).append (.last h)

theorem throw (he : e.Rises lo mid) (h : mid <= hi) : (Stmt.throw e hi).Rises lo hi := by
  intro k exits ip
  exact (he k).append (.last h)

theorem use (he : e.Rises lo mid) (h : mid <= hi) : (Stmt.use e hi).Rises lo hi := by
  intro k exits ip
  exact (he k).append ⟨h, .last (Nat.le_refl hi)⟩

theorem define {name : String} (he : e.Rises lo mid) (h : mid <= hi) :
    (Stmt.define name e hi).Rises lo hi := by
  intro k exits ip
  exact (he k).append (.last h)

theorem bind (he : e.Rises lo hi) : (Stmt.bind e).Rises lo hi :=
  fun k _ _ => he k

theorem ret (he : e.Rises lo mid) (h : mid <= hi) : (Stmt.ret e hi).Rises lo hi := by
  intro k exits ip
  exact (he k).append (.last h)

theorem leave {n : Nat} (h : lo <= hi) : (Stmt.leave n hi).Rises lo hi := by
  intro k exits ip
  exact (StackScript.Rises.pops h).append (.last (Nat.le_refl hi))

theorem again {n : Nat} (h : lo <= hi) : (Stmt.again n hi).Rises lo hi := by
  intro k exits ip
  exact (StackScript.Rises.pops h).append (.last (Nat.le_refl hi))

theorem cond {bodyLine : Nat} (he : e.Rises lo line) (ha : a.Rises line bodyLine)
    (hb : b.Rises bodyLine hi) : (Stmt.cond e line a bodyLine b).Rises lo hi := by
  intro k exits ip
  refine StackScript.Rises.append (m := bodyLine) ?_ ⟨Nat.le_refl _, Nat.le_refl _, hb k _ _⟩
  exact (he k).append ⟨Nat.le_refl _, Nat.le_refl _, ha k _ _⟩

theorem «while» (he : e.Rises lo line) (ha : a.Rises line hi) :
    (Stmt.while e line a hi).Rises lo hi := by
  intro k exits ip
  refine StackScript.Rises.append (m := hi) ?_ ⟨Nat.le_refl _, .last (Nat.le_refl _)⟩
  exact (he k).append ⟨Nat.le_refl _, Nat.le_refl _, ha k _ _⟩

theorem stepping {jumpLine stepLine : Nat} {step : Expr} (he : e.Rises lo line)
    (h : line <= jumpLine) (hstep : step.Rises jumpLine stepLine) (ha : a.Rises stepLine hi) :
    (Stmt.stepping e line jumpLine step stepLine a hi).Rises lo hi := by
  intro k exits ip
  refine StackScript.Rises.append (m := hi) ?_ ⟨Nat.le_refl _, .last (Nat.le_refl _)⟩
  refine StackScript.Rises.append (m := stepLine) ?_ ⟨Nat.le_refl _, Nat.le_refl _, ha k _ _⟩
  exact (he k).append ⟨Nat.le_refl _, Nat.le_refl _, h, hstep k⟩

theorem iterate {slot vars : Nat} (h : lo <= line) (ha : a.Rises line hi) :
    (Stmt.iterate slot vars line a hi).Rises lo hi := by
  intro k exits ip
  exact StackScript.Rises.append (m := hi) ⟨h, ha k _ _⟩ (.last (Nat.le_refl _))

theorem «try» {depth : Nat} (ha : a.Rises lo line) (hb : b.Rises line hi) :
    (Stmt.try depth a line b).Rises lo hi := by
  intro k exits ip
  exact (ha k _ _).append ⟨Nat.le_refl _, hb k _ _⟩

end Stmt.Rises

/-! ## Functions -/

/-- A function has as many lines as instructions, the lines do not go down, and they lie between
the first line and the last one of a text. -/
structure Function.Rising (lines : Nat) (f : Function) : Prop where
  size : f.code.lines.size = f.code.instrs.size
  sorted : f.code.lines.toList.Pairwise (· <= ·)
  bounds : forall line, line ∈ f.code.lines -> 1 <= line ∧ line <= lines

theorem assemble_rising {name script : Option String} {arity line lines : Nat} {body : Stmt}
    (h : body.Rises 1 line) (hline : line <= lines) :
    (assemble name script arity body line).Rising lines := by
  have hrises : Rises line 1 (body.code (poolOf body.constants).idxOf Exits.outside 0 ++
      [(Instr.literal .none, line), (.ret, line)]) :=
    (h _ _ _).append ⟨Nat.le_refl _, .last (Nat.le_refl _)⟩
  refine ⟨?_, hrises.sorted, fun l hl => ?_⟩
  · simp [assemble]
  · rcases List.mem_map.mp (List.mem_toArray.mp hl) with ⟨x, hx, rfl⟩
    rcases hrises.bounds x hx with ⟨hlo, hhi⟩
    exact ⟨hlo, Nat.le_trans hhi hline⟩

end StackScript
