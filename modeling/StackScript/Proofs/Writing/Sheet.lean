import StackScript.Proofs.Writing.Offsets

/-!
# Code that is written from front to back

The code of a script can also be written in one pass, without knowing how large the parts to come
will be.  A jump to a place that is not reached yet waits for it: the jump over an operand, a
branch, a handler or a loop until that part has been written, and a jump out of a loop's body until
the loop or its body ends.  An integer literal that is added to a local is noticed when its
instructions are being written: if nothing but an integer stands behind the read of the local, both
are taken back and one instruction is written instead.
-/

namespace StackScript

/-- Code that was taken back from an index on, and how things stood just before. -/
structure Cut where
  mark : Nat
  slot : Nat
  amount : Int64
  code : Code
  ranges : Array TryRange

/-- A function that is being written. -/
structure Sheet where
  code : Code := {}
  ranges : Array TryRange := #[]
  /-- The last range that was opened. -/
  head : Option Nat := none
  /-- The jumps out of loops that wait for the end of their loop, the last one first, with the
  depth of the loop. -/
  leaving : List (Nat × Nat) := []
  /-- The jumps to the next round of the innermost loop that wait for the end of its body, the last
  one first. -/
  again : List Nat := []
  /-- The jumps that were written without an offset, the last one first. -/
  holes : List Nat := []
  /-- The jumps that were filled in. -/
  filled : List Nat := []
  cuts : List Cut := []

/-- What a statement knows of the innermost loop around it. -/
structure Round where
  depth : Nat
  /-- Where the next round starts, unless that is behind the body. -/
  start? : Option Nat

/-- The exits of the loop as they are written in its body. -/
def Round.exits (loop : Round) : Exits :=
  ⟨0, loop.start?.getD 0, loop.start?.isNone⟩

/-- Outside of any loop. -/
def Round.outside : Round :=
  ⟨0, some 0⟩

namespace Sheet

def size (s : Sheet) : Nat :=
  s.code.size

/-- Adds constants to the pool. -/
def mention (s : Sheet) (vs : List Value) : Sheet :=
  { s with code := vs.foldl (fun c v => (c.addConstant v).1) s.code }

def write (s : Sheet) (lines : Lines) : Sheet :=
  { s with code := lines.foldl (fun c x => c.write x.1 x.2) s.code }

/-- Writes a jump without its offset. -/
def hole (s : Sheet) (i : Instr) (line : Nat) : Sheet :=
  { s.write [(i, line)] with holes := s.size :: s.holes }

/-- Lets a jump lead to the next instruction to be written. -/
def fill (s : Sheet) (ip : Nat) : Sheet :=
  { s with
    code := { s.code with
      instrs := s.code.instrs.modify ip fun i => i.aim (s.size - (ip + 1)) }
    filled := ip :: s.filled }

def fillAll (s : Sheet) (ips : List Nat) : Sheet :=
  ips.foldl fill s

/-- Writes a jump over what `rest` writes. -/
def jumpOver (s : Sheet) (i : Nat -> Instr) (line : Nat) (rest : Sheet -> Sheet) : Sheet :=
  (rest (s.hole (i 0) line)).fill s.size

/-- Writes a branch, which is left by a jump over `no`, and a jump over the branch. -/
def branch (s : Sheet) (line bodyLine : Nat) (yes no : Sheet -> Sheet) : Sheet :=
  let t := yes (s.hole (.jumpIfFalse 0) line)
  (no ((t.hole (.jump 0) bodyLine).fill s.size)).fill t.size

/-- Writes a jump back to an index. -/
def backTo (s : Sheet) (i : Nat -> Instr) (start line : Nat) : Sheet :=
  s.write [(i (s.size + 1 - start), line)]

/-- Writes a jump out of a loop of the given depth. -/
def leave (s : Sheet) (depth line : Nat) : Sheet :=
  { s.hole (.jump 0) line with leaving := (s.size, depth) :: s.leaving }

/-- Writes a jump to a next round that starts behind the body. -/
def next (s : Sheet) (line : Nat) : Sheet :=
  { s.hole (.jump 0) line with again := s.size :: s.again }

/-- Writes the body of a loop whose next round starts behind it. -/
def round (s : Sheet) (body : Sheet -> Sheet) : Sheet :=
  let t := body { s with again := [] }
  { t with again := s.again }.fillAll t.again

/-- Ends a loop of the given depth. -/
def close (s : Sheet) (depth : Nat) : Sheet :=
  let mine := s.leaving.takeWhile fun e => depth <= e.2
  { s with leaving := s.leaving.dropWhile fun e => depth <= e.2 }.fillAll (mine.map Prod.fst)

/-- Begins a range, whose end is not known yet. -/
def openRange (s : Sheet) (depth : Nat) : Sheet :=
  { s with ranges := s.ranges.push ⟨s.size, 0, depth, s.head⟩, head := some s.ranges.size }

/-- Ends a range in front of the next instruction to be written. -/
def closeRange (s : Sheet) (index : Nat) : Sheet :=
  { s with ranges := s.ranges.modify index fun r => { r with stop := s.size } }

/-- What has been written from an index on. -/
def since (s : Sheet) (mark : Nat) : List Instr :=
  s.code.instrs.toList.drop mark

/-- Takes back what has been written from an index on. -/
def cut (s : Sheet) (mark slot : Nat) (amount : Int64) : Sheet :=
  { s with code := s.code.truncate mark, cuts := ⟨mark, slot, amount, s.code, s.ranges⟩ :: s.cuts }

/-- Writes the end of an assignment with an operator.  The read of the variable stands in front of
`mark`. -/
def update (s : Sheet) (k : Variable.Index) (v : Variable) (op : Operator) (mark line : Nat) :
    Sheet :=
  match v, op, s.since mark with
  | .slot n, .add, [.literal (.int i)] => (s.cut (mark - 1) n i).write [(.increment n i, line)]
  | _, _, _ => s.write [(.binary (.arith op), line), (v.set k, line)]

end Sheet

mutual

/-- Writes the code of an expression. -/
def Expr.emit (k : Variable.Index) : Expr -> Sheet -> Sheet
  | .literal v line, s => s.write [(.literal v, line)]
  | .text t line, s => (s.mention [.text t]).write [(.constant (k (.text t)), line)]
  | .function id line, s =>
    (s.mention [.function id]).write [(.constant (k (.function id)), line)]
  | .read v line, s => (s.mention v.constants).write [(v.get k, line)]
  | .assign v a line, s => (a.emit k (s.mention v.constants)).write [(v.set k, line)]
  | .update v op opLine a line, s =>
    let t := (s.mention v.constants).write [(v.get k, opLine)]
    (a.emit k t).update k v op t.size line
  | .unary op a line, s => (a.emit k s).write [(.unary op, line)]
  | .binary op a b line, s => (b.emit k (a.emit k s)).write [(.binary op, line)]
  | .ternary op a b c line, s =>
    (c.emit k (b.emit k (a.emit k s))).write [(.ternary op, line)]
  | .connect op a opLine b, s =>
    (a.emit k s).jumpOver op.jump opLine fun s => b.emit k (s.write [(.pop, opLine)])
  | .call f args line, s => (Expr.emitAll k args (f.emit k s)).write [(.call args.length, line)]
  | .property o key line, s =>
    ((o.emit k s).mention [.text key]).write [(.getProperty (k (.text key)), line)]
  | .setProperty o key a line, s =>
    (a.emit k ((o.emit k s).mention [.text key])).write [(.setProperty (k (.text key)), line)]
  | .updateProperty o key op opLine a line, s =>
    (a.emit k (((o.emit k s).mention [.text key]).write
      [(.duplicate, opLine), (.getProperty (k (.text key)), opLine)])).write
      [(.binary (.arith op), line), (.setProperty (k (.text key)), line)]
  | .updateItem o i op opLine a line, s =>
    (a.emit k ((i.emit k (o.emit k s)).write
      [(.duplicatePair, opLine), (.binary .get, opLine)])).write
      [(.binary (.arith op), line), (.ternary .set, line)]
  | .array items line, s => (Expr.emitAll k items s).write [(.newArray items.length, line)]
  | .table items line, s => (Expr.emitAll k items s).write [(.newTable (items.length / 2), line)]

/-- Writes the code of expressions one after another. -/
def Expr.emitAll (k : Variable.Index) : List Expr -> Sheet -> Sheet
  | [], s => s
  | e :: rest, s => Expr.emitAll k rest (e.emit k s)

end

/-- Writes the code of a statement. -/
def Stmt.emit (k : Variable.Index) (loop : Round) : Stmt -> Sheet -> Sheet
  | .skip, s => s
  | .seq a b, s => b.emit k loop (a.emit k loop s)
  | .drop n line, s => s.write (pops n line)
  | .expr e line, s => (e.emit k s).write [(.pop, line)]
  | .output sink e line, s => (e.emit k s).write [(sink.instr, line)]
  | .throw e line, s => (e.emit k s).write [(.throw, line)]
  | .use e line, s => (e.emit k s).write [(.use, line), (.pop, line)]
  | .define name e line, s =>
    (e.emit k (s.mention [.text name])).write [(.defineGlobal (k (.text name)), line)]
  | .bind e, s => e.emit k s
  | .ret e line, s => (e.emit k s).write [(.ret, line)]
  | .leave locals line, s => (s.write (pops locals line)).leave loop.depth line
  | .again locals line, s =>
    match loop.start? with
    | some start => (s.write (pops locals line)).backTo .loop start line
    | none => (s.write (pops locals line)).next line
  | .cond c line body bodyLine other, s =>
    (c.emit k s).branch line bodyLine (fun t => body.emit k loop (t.write [(.pop, line)]))
      fun t => other.emit k loop (t.write [(.pop, bodyLine)])
  | .while c line body bodyLine, s =>
    let loop := ⟨loop.depth + 1, some s.size⟩
    let t := (c.emit k s).jumpOver .jumpIfFalse line fun t =>
      (body.emit k loop (t.write [(.pop, line)])).backTo .loop s.size bodyLine
    (t.write [(.pop, bodyLine)]).close loop.depth
  | .stepping c line jumpLine step stepLine body bodyLine, s =>
    -- In front of the step stand two jumps and a pop.
    let start := (c.emit k s).size + 3
    let t := (c.emit k s).jumpOver .jumpIfFalse line fun t =>
      let t := (t.write [(.pop, line)]).jumpOver .jump jumpLine fun t =>
        ((step.emit k t).write [(.pop, stepLine)]).backTo .loop s.size stepLine
      (body.emit k ⟨loop.depth + 1, some start⟩ t).backTo .loop start bodyLine
    (t.write [(.pop, bodyLine)]).close (loop.depth + 1)
  | .iterate slot vars line body bodyLine, s =>
    let t := s.jumpOver (.forBegin slot vars) line fun s =>
      let t := s.round (body.emit k ⟨loop.depth + 1, none⟩)
      t.backTo (.forNext slot vars) s.size bodyLine
    t.close (loop.depth + 1)
  | .try depth body bodyLine handler, s =>
    (body.emit k loop (s.openRange depth)).jumpOver .jump bodyLine fun t =>
      handler.emit k loop (t.closeRange s.ranges.size)

/-- Writes a function whose body ends on the given line. -/
def Stmt.emitBody (body : Stmt) (line : Nat) : Sheet :=
  (body.emit (poolOf body.constants).idxOf Round.outside {}).write
    [(.literal .none, line), (.ret, line)]

end StackScript
