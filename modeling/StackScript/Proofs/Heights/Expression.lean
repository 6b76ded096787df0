import StackScript.Proofs.Heights.Along
import StackScript.Proofs.StackCheck

/-!
# Heights of expressions

The code of an expression has a height at every instruction, which can be read off
the tree: an expression that starts at height `m` ends at height `m + 1`, and every
value in between lies on top of what was there.  If its slots lie below the height
and its constants are in the pool, its code passes the static stack check.
-/

namespace StackScript

/-! ## Expressions -/

/-- A variable in a slot below the height, or a global. -/
def Variable.Within (n : Nat) : Variable -> Prop
  | .slot s => s < n
  | .global _ => True

mutual

/-- The slots of an expression lie below `n`, its functions are known, and its tables have as
many keys as values. -/
def Expr.Within (known : Nat -> Prop) (n : Nat) : Expr -> Prop
  | .literal _ _ => True
  | .text _ _ => True
  | .function id _ => known id
  | .read v _ => v.Within n
  | .assign v a _ => v.Within n ∧ a.Within known n
  | .update v _ _ a _ => v.Within n ∧ a.Within known n
  | .unary _ a _ => a.Within known n
  | .binary _ a b _ => a.Within known n ∧ b.Within known n
  | .ternary _ a b c _ => a.Within known n ∧ b.Within known n ∧ c.Within known n
  | .connect _ a _ b => a.Within known n ∧ b.Within known n
  | .call f args _ => f.Within known n ∧ Expr.AllWithin known n args
  | .property o _ _ => o.Within known n
  | .setProperty o _ a _ => o.Within known n ∧ a.Within known n
  | .updateProperty o _ _ _ a _ => o.Within known n ∧ a.Within known n
  | .updateItem o i _ _ a _ => o.Within known n ∧ i.Within known n ∧ a.Within known n
  | .array items _ => Expr.AllWithin known n items
  | .table items _ => items.length % 2 = 0 ∧ Expr.AllWithin known n items

/-- All expressions of a list are within the same bounds. -/
def Expr.AllWithin (known : Nat -> Prop) (n : Nat) : List Expr -> Prop
  | [] => True
  | e :: rest => e.Within known n ∧ Expr.AllWithin known n rest

end

mutual

/-- The heights at the instructions of an expression that starts at height `n`. -/
def Expr.heights (n : Nat) : Expr -> List Nat
  | .literal _ _ => [n]
  | .text _ _ => [n]
  | .function _ _ => [n]
  | .read _ _ => [n]
  | .assign _ a _ => a.heights n ++ [n + 1]
  | .update v op _ a _ =>
    if (increment? v op a).isSome then [n] else n :: a.heights (n + 1) ++ [n + 2, n + 1]
  | .unary _ a _ => a.heights n ++ [n + 1]
  | .binary _ a b _ => a.heights n ++ b.heights (n + 1) ++ [n + 2]
  | .ternary _ a b c _ =>
    a.heights n ++ b.heights (n + 1) ++ c.heights (n + 2) ++ [n + 3]
  | .connect _ a _ b => a.heights n ++ (n + 1) :: (n + 1) :: b.heights n
  | .call f args _ => f.heights n ++ Expr.allHeights (n + 1) args ++ [n + 1 + args.length]
  | .property o _ _ => o.heights n ++ [n + 1]
  | .setProperty o _ a _ => o.heights n ++ a.heights (n + 1) ++ [n + 2]
  | .updateProperty o _ _ _ a _ =>
    o.heights n ++ (n + 1) :: (n + 2) :: a.heights (n + 2) ++ [n + 3, n + 2]
  | .updateItem o i _ _ a _ =>
    o.heights n ++ i.heights (n + 1) ++ (n + 2) :: (n + 4) :: a.heights (n + 3) ++
      [n + 4, n + 3]
  | .array items _ => Expr.allHeights n items ++ [n + items.length]
  | .table items _ => Expr.allHeights n items ++ [n + items.length]

/-- The heights at the instructions of expressions one after another. -/
def Expr.allHeights (n : Nat) : List Expr -> List Nat
  | [] => []
  | e :: rest => e.heights n ++ Expr.allHeights (n + 1) rest

end

mutual

theorem Expr.head?_heights (n : Nat) (e : Expr) : (e.heights n).head? = some n := by
  cases e with
  | literal | text | function | read => rfl
  | assign v a => simp [Expr.heights, Expr.head?_heights n a]
  | update v op opLine a =>
      rw [Expr.heights]
      split <;> rfl
  | unary op a => simp [Expr.heights, Expr.head?_heights n a]
  | binary op a b => simp [Expr.heights, Expr.head?_heights n a]
  | ternary op a b c => simp [Expr.heights, Expr.head?_heights n a]
  | connect op a opLine b => simp [Expr.heights, Expr.head?_heights n a]
  | call f args => simp [Expr.heights, Expr.head?_heights n f]
  | property o => simp [Expr.heights, Expr.head?_heights n o]
  | setProperty o key a => simp [Expr.heights, Expr.head?_heights n o]
  | updateProperty o key op opLine a => simp [Expr.heights, Expr.head?_heights n o]
  | updateItem o i op opLine a => simp [Expr.heights, Expr.head?_heights n o]
  | array items => simpa [Expr.heights] using Expr.head?_allHeights n items
  | table items => simpa [Expr.heights] using Expr.head?_allHeights n items

theorem Expr.head?_allHeights (n : Nat) (es : List Expr) :
    (Expr.allHeights n es ++ [n + es.length]).head? = some n := by
  cases es with
  | nil => rfl
  | cons e es => simp [Expr.allHeights, Expr.head?_heights n e]

end

mutual

@[simp] theorem Expr.length_heights (n : Nat) (e : Expr) : (e.heights n).length = e.size := by
  cases e with
  | literal | text | function | read => rfl
  | assign v a => simp [Expr.heights, Expr.size, Expr.length_heights n a]
  | update v op opLine a =>
      rw [Expr.heights, Expr.size]
      split
      · rfl
      · simp [Expr.length_heights (n + 1) a]
  | unary op a => simp [Expr.heights, Expr.size, Expr.length_heights n a]
  | binary op a b =>
      simp [Expr.heights, Expr.size, Expr.length_heights n a, Expr.length_heights (n + 1) b,
        Nat.add_assoc]
  | ternary op a b c =>
      simp [Expr.heights, Expr.size, Expr.length_heights n a, Expr.length_heights (n + 1) b,
        Expr.length_heights (n + 2) c, Nat.add_assoc]
  | connect op a opLine b =>
      simp [Expr.heights, Expr.size, Expr.length_heights n a, Expr.length_heights n b]
      lia
  | call f args =>
      simp [Expr.heights, Expr.size, Expr.length_heights n f,
        Expr.length_allHeights (n + 1) args, Nat.add_assoc]
  | property o => simp [Expr.heights, Expr.size, Expr.length_heights n o]
  | setProperty o key a =>
      simp [Expr.heights, Expr.size, Expr.length_heights n o, Expr.length_heights (n + 1) a,
        Nat.add_assoc]
  | updateProperty o key op opLine a =>
      simp [Expr.heights, Expr.size, Expr.length_heights n o, Expr.length_heights (n + 2) a]
      lia
  | updateItem o i op opLine a =>
      simp [Expr.heights, Expr.size, Expr.length_heights n o, Expr.length_heights (n + 1) i,
        Expr.length_heights (n + 3) a]
      lia
  | array items => simp [Expr.heights, Expr.size, Expr.length_allHeights n items]
  | table items => simp [Expr.heights, Expr.size, Expr.length_allHeights n items]

@[simp] theorem Expr.length_allHeights (n : Nat) (es : List Expr) :
    (Expr.allHeights n es).length = Expr.sizes es := by
  cases es with
  | nil => rfl
  | cons e es =>
      simp [Expr.allHeights, Expr.sizes, Expr.length_heights n e,
        Expr.length_allHeights (n + 1) es]

end

/-! ### The code of an expression fits -/

/-- A line of code fits and, if it can fail, leaves `floor` values alone. -/
def LineFits (f : Function) (height : Nat -> Nat) (floor : Nat) (ip : Nat) (x : Instr × Nat) :
    Prop :=
  x.1.Fits f height ip ∧ (x.1.quiet = true ∨ floor + x.1.taken <= height ip)

def Indexed (f : Function) (k : Variable.Index) (constants : List Value) : Prop :=
  forall v, v ∈ constants -> f.code.constants[k v]? = some v

@[simp] theorem indexed_nil (f : Function) (k : Variable.Index) : Indexed f k [] := by
  intro v hv
  cases hv

@[simp] theorem indexed_cons (f : Function) (k : Variable.Index) (v : Value) (l : List Value) :
    Indexed f k (v :: l) ↔ f.code.constants[k v]? = some v ∧ Indexed f k l := by
  simp [Indexed]

@[simp] theorem indexed_append (f : Function) (k : Variable.Index) (a b : List Value) :
    Indexed f k (a ++ b) ↔ Indexed f k a ∧ Indexed f k b := by
  simp [Indexed, or_imp, forall_and]

/-- The heights from index `p` on. -/
abbrev HeightsAt (height : Nat -> Nat) : Nat -> List Nat -> Prop :=
  Along fun ip h => height ip = h

section Fits

variable {f : Function} {height : Nat -> Nat} {known : Nat -> Prop} {k : Variable.Index}

theorem LineFits.mono {floor floor' ip : Nat} {x : Instr × Nat}
    (h : LineFits f height floor ip x) (hfloor : floor' <= floor) :
    LineFits f height floor' ip x := by
  refine ⟨h.1, ?_⟩
  rcases h.2 with hquiet | hkept
  · exact Or.inl hquiet
  · exact Or.inr (by lia)

theorem lineFits_plain {floor ip line h : Nat} {i : Instr} (hi : i.plain = true)
    (hp : height ip = h) (hreach : i.reach < h) (hfloor : floor + i.taken <= h)
    (hin : ip + 1 < f.code.size) (hnext : height (ip + 1) = i.heightAfter h) :
    LineFits f height floor ip (i, line) := by
  subst hp
  exact ⟨Instr.fits_of_plain hi hreach hin hnext, Or.inr hfloor⟩

theorem Variable.get_fits {v : Variable} {n m ip line : Nat} (hv : v.Within n) (hnm : n <= m)
    (hk : Indexed f k v.constants) (hm : m <= height ip) (hpos : 0 < height ip)
    (hin : ip + 1 < f.code.size) (hnext : height (ip + 1) = height ip + 1) :
    LineFits f height m ip (v.get k, line) := by
  cases v with
  | slot s =>
      have hs : s < height ip := Nat.lt_of_lt_of_le hv (Nat.le_trans hnm hm)
      exact ⟨Instr.fits_of_slot rfl rfl hs hpos hin hnext, Or.inr hm⟩
  | global name =>
      have hname : f.code.constants[k (.text name)]? = some (.text name) := by
        simpa [Variable.constants] using hk
      exact ⟨Instr.fits_of_name rfl hname hpos hin hnext, Or.inr hm⟩

theorem Variable.set_fits {v : Variable} {n m ip line : Nat} (hv : v.Within n) (hnm : n <= m)
    (hk : Indexed f k v.constants) (hm : m <= height ip) (hpos : 1 < height ip)
    (hin : ip + 1 < f.code.size) (hnext : height (ip + 1) = height ip) :
    LineFits f height m ip (v.set k, line) := by
  cases v with
  | slot s =>
      have hs : s < height ip := Nat.lt_of_lt_of_le hv (Nat.le_trans hnm hm)
      exact ⟨Instr.fits_of_slot rfl rfl hs hpos hin hnext, Or.inr hm⟩
  | global name =>
      have hname : f.code.constants[k (.text name)]? = some (.text name) := by
        simpa [Variable.constants] using hk
      exact ⟨Instr.fits_of_name rfl hname hpos hin hnext, Or.inr hm⟩

theorem increment?_some {v : Variable} {op : Operator} {a : Expr} {n : Nat} {i : Int64}
    (h : increment? v op a = some (n, i)) :
    v = .slot n ∧ op = .add ∧ exists line, a = .literal (.int i) line := by
  unfold increment? at h
  split at h
  · cases h
    exact ⟨rfl, rfl, _, rfl⟩
  · cases h

theorem HeightsAt.first {p n : Nat} {l : List Nat} (h : HeightsAt height p l)
    (hl : l.head? = some n) : height p = n := by
  cases l with
  | nil => cases hl
  | cons m l =>
      have hm : m = n := by simpa using hl
      rw [← hm]
      exact h.1

theorem HeightsAt.start {p n : Nat} {e : Expr} (h : HeightsAt height p (e.heights n)) :
    height p = n :=
  HeightsAt.first h (e.head?_heights n)

theorem lineFits_lower {m m' p : Nat} {l : Lines} (h : Along (LineFits f height m) p l)
    (hm : m' <= m) : Along (LineFits f height m') p l :=
  h.imp fun _ _ hx => hx.mono hm

theorem lineFits_name {m ip line h key : Nat} {s : String} {i : Instr} (hi : i.name? = some key)
    (hkey : f.code.constants[key]? = some (.text s)) (hp : height ip = h)
    (hreach : i.reach < h) (hfloor : m + i.taken <= h) (hin : ip + 1 < f.code.size)
    (hnext : height (ip + 1) = i.heightAfter h) : LineFits f height m ip (i, line) := by
  subst hp
  exact ⟨Instr.fits_of_name hi hkey hreach hin hnext, Or.inr hfloor⟩

/-- Code that starts at height `n`, has the given heights and ends at height `n'` fits wherever
these are the heights. -/
structure CodeFits (f : Function) (height : Nat -> Nat) (floor n n' : Nat) (code : Lines)
    (heights : List Nat) : Prop where
  start : (heights ++ [n']).head? = some n
  length : heights.length = code.length
  fits : forall p, p + code.length < f.code.size -> HeightsAt height p (heights ++ [n']) ->
    Along (LineFits f height floor) p code

namespace CodeFits

variable {floor n m q line : Nat} {i : Instr} {a b : Lines} {hs hs' : List Nat}

theorem nil : CodeFits f height floor n n [] [] :=
  ⟨rfl, rfl, fun _ _ _ => along_nil _ _⟩

theorem single (h : forall ip, height ip = n -> ip + 1 < f.code.size -> height (ip + 1) = m ->
    LineFits f height floor ip (i, line)) :
    CodeFits f height floor n m [(i, line)] [n] :=
  ⟨rfl, rfl, fun p hin hh => ⟨h p hh.1 hin hh.2.1, along_nil _ _⟩⟩

theorem append (ha : CodeFits f height floor n m a hs)
    (hb : CodeFits f height floor m q b hs') :
    CodeFits f height floor n q (a ++ b) (hs ++ hs') := by
  have hstart := ha.start
  refine ⟨?_, by simp [ha.length, hb.length], fun p hin hh => ?_⟩
  · rw [List.append_assoc, List.head?_append, hb.start]
    rwa [List.head?_append] at hstart
  · rw [List.append_assoc] at hh
    rcases (along_append _ _ _ _).mp hh with ⟨hfirst, hsecond⟩
    have hmiddle : height (p + hs.length) = m := HeightsAt.first hsecond hb.start
    rw [List.length_append] at hin
    rw [ha.length] at hsecond
    refine (along_append _ _ _ _).mpr ⟨ha.fits p (by lia) ?_, hb.fits _ (by lia) hsecond⟩
    exact (along_append _ _ _ _).mpr ⟨hfirst, hmiddle, along_nil _ _⟩

theorem cons (hx : CodeFits f height floor n m [(i, line)] [n])
    (ha : CodeFits f height floor m q a hs) :
    CodeFits f height floor n q ((i, line) :: a) (n :: hs) :=
  hx.append ha

theorem lower {floor' : Nat} (h : CodeFits f height floor n m a hs) (hfloor : floor' <= floor) :
    CodeFits f height floor' n m a hs :=
  { h with fits := fun p hin hh => lineFits_lower (h.fits p hin hh) hfloor }

theorem plain (hi : i.plain = true) (hreach : i.reach < n) (hfloor : floor + i.taken <= n)
    (hnext : m = i.heightAfter n) : CodeFits f height floor n m [(i, line)] [n] :=
  .single fun _ hp hin hend => lineFits_plain hi hp hreach hfloor hin (hend.trans hnext)

theorem name {key : Nat} {s : String} (hi : i.name? = some key)
    (hkey : f.code.constants[key]? = some (.text s)) (hreach : i.reach < n)
    (hfloor : floor + i.taken <= n) (hnext : m = i.heightAfter n) :
    CodeFits f height floor n m [(i, line)] [n] :=
  .single fun _ hp hin hend => lineFits_name hi hkey hp hreach hfloor hin (hend.trans hnext)

theorem constant {c : Nat} {v : Value} (hc : f.code.constants[c]? = some v) (hpos : 0 < n) :
    CodeFits f height n n (n + 1) [(.constant c, line)] [n] :=
  .single fun _ hp hin hend =>
    ⟨Instr.fits_constant hc (by lia) hin (by lia), Or.inr (by simp [hp])⟩

/-- A read of a variable from height `n` on. -/
theorem get {v : Variable} {slots : Nat} (hv : v.Within slots) (hslots : slots <= n)
    (hk : Indexed f k v.constants) (hpos : 0 < n) :
    CodeFits f height n n (n + 1) [(v.get k, line)] [n] :=
  .single fun _ hp hin hend =>
    Variable.get_fits hv hslots hk (by lia) (by lia) hin (by lia)

/-- A write to a variable, which leaves the value. -/
theorem set {v : Variable} {slots : Nat} (hv : v.Within slots) (hslots : slots <= n)
    (hk : Indexed f k v.constants) (hpos : 0 < n) :
    CodeFits f height n (n + 1) (n + 1) [(v.set k, line)] [n + 1] :=
  .single fun _ hp hin hend =>
    Variable.set_fits hv hslots hk (by lia) (by lia) hin (by lia)

/-- A jump over the right operand of a connective, whose value takes the place of the left one. -/
theorem connect {op : Connective} (hpos : 0 < n) (hb : CodeFits f height n n (n + 1) b hs) :
    CodeFits f height n (n + 1) (n + 1) ((op.jump (b.length + 1), line) :: (.pop, line) :: b)
      ((n + 1) :: (n + 1) :: hs) := by
  have hop : op.jump (b.length + 1) = .jumpIfFalse (b.length + 1) ∨
      op.jump (b.length + 1) = .jumpIfTrue (b.length + 1) := by
    cases op
    · exact Or.inl rfl
    · exact Or.inr rfl
  refine ⟨rfl, by simp [hb.length], fun p hin hh => ?_⟩
  rcases hh with ⟨hjump, hpop, hrest⟩
  have hnext : height (p + 1 + 1) = n := HeightsAt.first hrest hb.start
  have hend : height (p + 1 + 1 + hs.length) = n + 1 :=
    ((along_append _ _ _ _).mp hrest).2.1
  have htarget : p + 1 + (b.length + 1) = p + 1 + 1 + hs.length := by
    rw [hb.length]
    lia
  simp only [List.length_cons] at hin
  refine ⟨?_, ?_, hb.fits _ (by lia) hrest⟩
  · refine ⟨Instr.fits_branch hop (by lia) (by lia) (by lia) (by rw [htarget, hend, hjump]),
      Or.inr ?_⟩
    cases op <;> simp [Connective.jump, hjump]
  · exact lineFits_plain rfl hpop (by simp; lia) (by simp) (by lia) (by simpa using hnext)

end CodeFits

mutual

/-- The code of an expression takes the height it starts at to one more. -/
theorem Expr.fits {n m : Nat} (hn : 0 < n) (e : Expr) (hw : e.Within known n) (hnm : n <= m)
    (hk : Indexed f k e.constants) :
    CodeFits f height m m (m + 1) (e.code k) (e.heights m) := by
  have hm : 0 < m := Nat.lt_of_lt_of_le hn hnm
  cases e with
  | literal v line => exact .plain rfl hm (by simp) rfl
  | text s line =>
      simp only [Expr.constants, indexed_cons, indexed_nil, and_true] at hk
      exact .constant hk hm
  | function id line =>
      simp only [Expr.constants, indexed_cons, indexed_nil, and_true] at hk
      exact .constant hk hm
  | read v line => exact .get hw hnm hk hm
  | assign v a line =>
      simp only [Expr.constants, indexed_append] at hk
      exact (a.fits hn hw.2 hnm hk.2).append (.set hw.1 hnm hk.1 hm)
  | update v op opLine a line =>
      simp only [Expr.constants, indexed_append] at hk
      rw [Expr.code, Expr.heights]
      cases hinc : increment? v op a with
      | some i =>
          have hslot : i.1 < n := by
            have hv := hw.1
            rwa [(increment?_some (n := i.1) (i := i.2) hinc).1] at hv
          refine .single fun ip hp hin hend => ?_
          exact ⟨Instr.fits_of_slot rfl rfl (by lia) (by simp; lia) hin (by simpa [hp] using hend),
            Or.inr (by simp [hp])⟩
      | none =>
          have ha := a.fits (m := m + 1) hn hw.2 (by lia) hk.2
          refine (CodeFits.cons (.get hw.1 hnm hk.1 hm) (ha.lower (by lia))).append ?_
          exact .cons (.plain rfl (by simp; lia) (by simp) rfl) (.set hw.1 hnm hk.1 hm)
  | unary op a line =>
      exact (a.fits hn hw hnm hk).append (.plain rfl (by simp; lia) (by simp) rfl)
  | binary op a b line =>
      simp only [Expr.constants, indexed_append] at hk
      have hb := b.fits (m := m + 1) hn hw.2 (by lia) hk.2
      refine ((a.fits hn hw.1 hnm hk.1).append (hb.lower (by lia))).append ?_
      exact .plain rfl (by simp; lia) (by simp) rfl
  | ternary op a b c line =>
      simp only [Expr.constants, indexed_append] at hk
      have hb := b.fits (m := m + 1) hn hw.2.1 (by lia) hk.1.2
      have hc := c.fits (m := m + 2) hn hw.2.2 (by lia) hk.2
      refine (((a.fits hn hw.1 hnm hk.1.1).append (hb.lower (by lia))).append
        (hc.lower (by lia))).append ?_
      exact .plain rfl (by simp; lia) (by simp) rfl
  | connect op a opLine b =>
      simp only [Expr.constants, indexed_append] at hk
      rw [Expr.code, ← b.length_code k]
      exact (a.fits hn hw.1 hnm hk.1).append (.connect hm (b.fits hn hw.2 hnm hk.2))
  | call g args line =>
      simp only [Expr.constants, indexed_append] at hk
      have hargs := Expr.all_fit (m := m + 1) hn args hw.2 (by lia) hk.2
      refine ((g.fits hn hw.1 hnm hk.1).append (hargs.lower (by lia))).append ?_
      exact .plain rfl (by simp; lia) (by simp; lia) (by simp; lia)
  | property o key line =>
      simp only [Expr.constants, indexed_append, indexed_cons] at hk
      refine (o.fits hn hw hnm hk.1).append ?_
      exact .name rfl hk.2.1 (by simp; lia) (by simp) rfl
  | setProperty o key a line =>
      simp only [Expr.constants, indexed_append, indexed_cons] at hk
      have ha := a.fits (m := m + 1) hn hw.2 (by lia) hk.2.2
      refine ((o.fits hn hw.1 hnm hk.1).append (ha.lower (by lia))).append ?_
      exact .name rfl hk.2.1 (by simp; lia) (by simp) rfl
  | updateProperty o key op opLine a line =>
      simp only [Expr.constants, indexed_append, indexed_cons] at hk
      have ha := a.fits (m := m + 2) hn hw.2 (by lia) hk.2.2
      refine ((o.fits hn hw.1 hnm hk.1).append (.cons (m := m + 2) ?_
        (.cons (m := m + 2) ?_ (ha.lower (by lia))))).append (.cons (m := m + 2) ?_ ?_)
      · exact .plain rfl (by simp; lia) (by simp) rfl
      · exact .name rfl hk.2.1 (by simp) (by simp) rfl
      · exact .plain rfl (by simp) (by simp) rfl
      · exact .name rfl hk.2.1 (by simp; lia) (by simp) rfl
  | updateItem o i op opLine a line =>
      simp only [Expr.constants, indexed_append] at hk
      have hi := i.fits (m := m + 1) hn hw.2.1 (by lia) hk.1.2
      have ha := a.fits (m := m + 3) hn hw.2.2 (by lia) hk.2
      refine (((o.fits hn hw.1 hnm hk.1.1).append (hi.lower (by lia))).append
        (.cons (m := m + 4) ?_ (.cons (m := m + 3) ?_ (ha.lower (by lia))))).append
        (.cons (m := m + 3) ?_ ?_)
      · exact .plain rfl (by simp; lia) (by simp; lia) rfl
      · exact .plain rfl (by simp) (by simp) rfl
      · exact .plain rfl (by simp) (by simp) rfl
      · exact .plain rfl (by simp; lia) (by simp) rfl
  | array items line =>
      refine (Expr.all_fit hn items hw hnm hk).append ?_
      exact .plain rfl (by simp; lia) (by simp) (by simp)
  | table items line =>
      have heven : 2 * (items.length / 2) = items.length := by
        have := hw.1
        lia
      refine (Expr.all_fit hn items hw.2 hnm hk).append ?_
      exact .plain rfl (by simp [heven]; lia) (by simp [heven]) (by simp [heven])

/-- Expressions one after another take the height to one more each. -/
theorem Expr.all_fit {n m : Nat} (hn : 0 < n) (es : List Expr) (hw : Expr.AllWithin known n es)
    (hnm : n <= m) (hk : Indexed f k (Expr.allConstants es)) :
    CodeFits f height m m (m + es.length) (Expr.codes k es) (Expr.allHeights m es) := by
  cases es with
  | nil => exact .nil
  | cons e es =>
      simp only [Expr.allConstants, indexed_append] at hk
      have hes := Expr.all_fit (m := m + 1) hn es hw.2 (by lia) hk.2
      rw [List.length_cons, show m + (es.length + 1) = m + 1 + es.length by lia]
      exact (e.fits hn hw.1 hnm hk.1).append (hes.lower (by lia))

end

/-- The code of an expression fits between the height it starts at and one more. -/
theorem Expr.code_fits {n : Nat} (hn : 0 < n) (e : Expr) {m p : Nat} (hw : e.Within known n)
    (hnm : n <= m) (hk : Indexed f k e.constants) (hsize : p + e.size < f.code.size)
    (hh : HeightsAt height p (e.heights m)) (hend : height (p + e.size) = m + 1) :
    Along (LineFits f height m) p (e.code k) := by
  refine (e.fits hn hw hnm hk).fits p (by simpa using hsize) ?_
  simpa using ⟨hh, hend⟩

end Fits

end StackScript
