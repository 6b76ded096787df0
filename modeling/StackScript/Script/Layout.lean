import StackScript.Code.Function
import StackScript.Script.Tree

/-!
# The code of a script

Code is laid out from the tree in one pass: the size of every part is known
before its code is written, so a jump is written with its final offset.  An
instruction comes with the line it belongs to.

The code of an expression leaves one value on the stack.  It does not depend on
where it stands, because all its jumps stay inside it.  The code of a statement
leaves the stack as it was, apart from the locals it declares; only the way out
of a loop depends on where it stands.
-/

namespace StackScript

/-- Instructions with their lines. -/
abbrev Lines :=
  List (Instr × Nat)

def pops (n : Nat) (line : Nat) : Lines :=
  List.replicate n (.pop, line)

/-! ## Variables -/

namespace Variable

/-- Where to find the index of a constant. -/
abbrev Index :=
  Value -> Nat

def get (k : Index) : Variable -> Instr
  | slot n => .getLocal n
  | global name => .getGlobal (k (.text name))

def set (k : Index) : Variable -> Instr
  | slot n => .setLocal n
  | global name => .setGlobal (k (.text name))

/-- The constants that a variable needs. -/
def constants : Variable -> List Value
  | slot _ => []
  | global name => [.text name]

end Variable

/-- Adding an integer literal to a local takes one instruction. -/
def increment? : Variable -> Operator -> Expr -> Option (Nat × Int64)
  | .slot n, .add, .literal (.int i) _ => some (n, i)
  | _, _, _ => none

/-! ## Sizes -/

mutual

def Expr.size : Expr -> Nat
  | .literal _ _ => 1
  | .text _ _ => 1
  | .function _ _ => 1
  | .read _ _ => 1
  | .assign _ a _ => a.size + 1
  | .update v op _ a _ => if (increment? v op a).isSome then 1 else a.size + 3
  | .unary _ a _ => a.size + 1
  | .binary _ a b _ => a.size + b.size + 1
  | .ternary _ a b c _ => a.size + b.size + c.size + 1
  | .connect _ a _ b => a.size + b.size + 2
  | .call f args _ => f.size + Expr.sizes args + 1
  | .property o _ _ => o.size + 1
  | .setProperty o _ a _ => o.size + a.size + 1
  | .updateProperty o _ _ _ a _ => o.size + a.size + 4
  | .updateItem o i _ _ a _ => o.size + i.size + a.size + 4
  | .array items _ => Expr.sizes items + 1
  | .table items _ => Expr.sizes items + 1

/-- The number of instructions of expressions one after another. -/
def Expr.sizes : List Expr -> Nat
  | [] => 0
  | e :: rest => e.size + Expr.sizes rest

end

def Stmt.size : Stmt -> Nat
  | .skip => 0
  | .seq a b => a.size + b.size
  | .drop n _ => n
  | .expr e _ => e.size + 1
  | .output _ e _ => e.size + 1
  | .throw e _ => e.size + 1
  | .use e _ => e.size + 2
  | .define _ e _ => e.size + 1
  | .bind e => e.size
  | .ret e _ => e.size + 1
  | .leave locals _ => locals + 1
  | .again locals _ => locals + 1
  | .cond c _ body _ other => c.size + body.size + other.size + 4
  | .while c _ body _ => c.size + body.size + 4
  | .stepping c _ _ step _ body _ => c.size + step.size + body.size + 7
  | .iterate _ _ _ body _ => body.size + 2
  | .try _ body _ handler => body.size + handler.size + 1

/-! ## Constants -/

mutual

/-- The constants of an expression, in the order in which its code mentions them. -/
def Expr.constants : Expr -> List Value
  | .literal _ _ => []
  | .text s _ => [.text s]
  | .function id _ => [.function id]
  | .read v _ => v.constants
  | .assign v a _ => v.constants ++ a.constants
  | .update v _ _ a _ => v.constants ++ a.constants
  | .unary _ a _ => a.constants
  | .binary _ a b _ => a.constants ++ b.constants
  | .ternary _ a b c _ => a.constants ++ b.constants ++ c.constants
  | .connect _ a _ b => a.constants ++ b.constants
  | .call f args _ => f.constants ++ Expr.allConstants args
  | .property o key _ => o.constants ++ [.text key]
  | .setProperty o key a _ => o.constants ++ .text key :: a.constants
  | .updateProperty o key _ _ a _ => o.constants ++ .text key :: a.constants
  | .updateItem o i _ _ a _ => o.constants ++ i.constants ++ a.constants
  | .array items _ => Expr.allConstants items
  | .table items _ => Expr.allConstants items

def Expr.allConstants : List Expr -> List Value
  | [] => []
  | e :: rest => e.constants ++ Expr.allConstants rest

end

/-- The constants of a statement, in the order in which its code mentions them. -/
def Stmt.constants : Stmt -> List Value
  | .skip => []
  | .seq a b => a.constants ++ b.constants
  | .drop _ _ => []
  | .expr e _ => e.constants
  | .output _ e _ => e.constants
  | .throw e _ => e.constants
  | .use e _ => e.constants
  | .define name e _ => .text name :: e.constants
  | .bind e => e.constants
  | .ret e _ => e.constants
  | .leave _ _ => []
  | .again _ _ => []
  | .cond c _ body _ other => c.constants ++ body.constants ++ other.constants
  | .while c _ body _ => c.constants ++ body.constants
  | .stepping c _ _ step _ body _ => c.constants ++ step.constants ++ body.constants
  | .iterate _ _ _ body _ => body.constants
  | .try _ body _ handler => body.constants ++ handler.constants

/-! ## Expressions -/

def Connective.jump : Connective -> Nat -> Instr
  | and, offset => .jumpIfFalse offset
  | or, offset => .jumpIfTrue offset

mutual

/-- The code of an expression, which leaves its value on the stack. -/
def Expr.code (k : Variable.Index) : Expr -> Lines
  | .literal v line => [(.literal v, line)]
  | .text s line => [(.constant (k (.text s)), line)]
  | .function id line => [(.constant (k (.function id)), line)]
  | .read v line => [(v.get k, line)]
  | .assign v a line => a.code k ++ [(v.set k, line)]
  | .update v op opLine a line =>
    match increment? v op a with
    | some (n, i) => [(.increment n i, line)]
    | none =>
      (v.get k, opLine) :: a.code k ++ [(.binary (.arith op), line), (v.set k, line)]
  | .unary op a line => a.code k ++ [(.unary op, line)]
  | .binary op a b line => a.code k ++ b.code k ++ [(.binary op, line)]
  | .ternary op a b c line => a.code k ++ b.code k ++ c.code k ++ [(.ternary op, line)]
  | .connect op a opLine b =>
    a.code k ++ (op.jump (b.size + 1), opLine) :: (.pop, opLine) :: b.code k
  | .call f args line => f.code k ++ Expr.codes k args ++ [(.call args.length, line)]
  | .property o key line => o.code k ++ [(.getProperty (k (.text key)), line)]
  | .setProperty o key a line =>
    o.code k ++ a.code k ++ [(.setProperty (k (.text key)), line)]
  | .updateProperty o key op opLine a line =>
    o.code k ++ (.duplicate, opLine) :: (.getProperty (k (.text key)), opLine) :: a.code k ++
      [(.binary (.arith op), line), (.setProperty (k (.text key)), line)]
  | .updateItem o i op opLine a line =>
    o.code k ++ i.code k ++ (.duplicatePair, opLine) :: (.binary .get, opLine) :: a.code k ++
      [(.binary (.arith op), line), (.ternary .set, line)]
  | .array items line => Expr.codes k items ++ [(.newArray items.length, line)]
  | .table items line => Expr.codes k items ++ [(.newTable (items.length / 2), line)]

/-- The code of expressions one after another, which leaves all their values. -/
def Expr.codes (k : Variable.Index) : List Expr -> Lines
  | [] => []
  | e :: rest => e.code k ++ Expr.codes k rest

end

/-! ## Statements -/

/-- The ways out of a loop's body, as indices into the code. -/
structure Exits where
  /-- Behind the loop. -/
  leave : Nat
  /-- Where the next round starts. -/
  again : Nat
  /-- Whether the next round starts behind the body. -/
  ahead : Bool
  deriving DecidableEq, Repr

def Exits.leaveFrom (x : Exits) (ip : Nat) : Instr :=
  .jump (x.leave - (ip + 1))

def Exits.againFrom (x : Exits) (ip : Nat) : Instr :=
  if x.ahead then .jump (x.again - (ip + 1)) else .loop (ip + 1 - x.again)

def Sink.instr : Sink -> Instr
  | print => .print
  | echo => .echo

/-- The code of a statement that starts at index `ip` inside a loop with the given exits. -/
def Stmt.code (k : Variable.Index) (exits : Exits) (ip : Nat) : Stmt -> Lines
  | .skip => []
  | .seq a b => a.code k exits ip ++ b.code k exits (ip + a.size)
  | .drop n line => pops n line
  | .expr e line => e.code k ++ [(.pop, line)]
  | .output sink e line => e.code k ++ [(sink.instr, line)]
  | .throw e line => e.code k ++ [(.throw, line)]
  | .use e line => e.code k ++ [(.use, line), (.pop, line)]
  | .define name e line => e.code k ++ [(.defineGlobal (k (.text name)), line)]
  | .bind e => e.code k
  | .ret e line => e.code k ++ [(.ret, line)]
  | .leave locals line => pops locals line ++ [(exits.leaveFrom (ip + locals), line)]
  | .again locals line => pops locals line ++ [(exits.againFrom (ip + locals), line)]
  | .cond c line body bodyLine other =>
    c.code k ++ (.jumpIfFalse (body.size + 2), line) :: (.pop, line) ::
      body.code k exits (ip + c.size + 2) ++
      (.jump (other.size + 1), bodyLine) :: (.pop, bodyLine) ::
      other.code k exits (ip + c.size + body.size + 4)
  | .while c line body bodyLine =>
    let exits : Exits := ⟨ip + c.size + body.size + 4, ip, false⟩
    c.code k ++ (.jumpIfFalse (body.size + 2), line) :: (.pop, line) ::
      body.code k exits (ip + c.size + 2) ++
      [(.loop (c.size + body.size + 3), bodyLine), (.pop, bodyLine)]
  | .stepping c line jumpLine step stepLine body bodyLine =>
    let exits : Exits :=
      ⟨ip + c.size + step.size + body.size + 7, ip + c.size + 3, false⟩
    c.code k ++
      (.jumpIfFalse (step.size + body.size + 5), line) :: (.pop, line) ::
      (.jump (step.size + 2), jumpLine) :: step.code k ++
      (.pop, stepLine) :: (.loop (c.size + step.size + 5), stepLine) ::
      body.code k exits (ip + c.size + step.size + 5) ++
      [(.loop (step.size + body.size + 3), bodyLine), (.pop, bodyLine)]
  | .iterate slot vars line body bodyLine =>
    let exits : Exits := ⟨ip + body.size + 2, ip + body.size + 1, true⟩
    (.forBegin slot vars (body.size + 1), line) :: body.code k exits (ip + 1) ++
      [(.forNext slot vars (body.size + 1), bodyLine)]
  | .try _ body bodyLine handler =>
    body.code k exits ip ++ (.jump handler.size, bodyLine) ::
      handler.code k exits (ip + body.size + 1)

/-- The try ranges of a statement that starts at index `ip`, outer ones before inner ones. -/
def Stmt.ranges (ip : Nat) : Stmt -> List TryRange
  | .seq a b => a.ranges ip ++ b.ranges (ip + a.size)
  | .cond c _ body _ other =>
    body.ranges (ip + c.size + 2) ++ other.ranges (ip + c.size + body.size + 4)
  | .while c _ body _ => body.ranges (ip + c.size + 2)
  | .stepping c _ _ step _ body _ => body.ranges (ip + c.size + step.size + 5)
  | .iterate _ _ _ body _ => body.ranges (ip + 1)
  | .try depth body _ handler =>
    ⟨ip, ip + body.size + 1, depth, none⟩ ::
      (body.ranges ip ++ handler.ranges (ip + body.size + 1))
  | _ => []

/-! ## Functions -/

def poolOf (constants : List Value) : Array Value :=
  (constants.foldl (fun c v => (c.addConstant v).1) Code.empty).constants

/-- The index before a given one. -/
def before? : Nat -> Option Nat
  | 0 => none
  | n + 1 => some n

def chain (ranges : List TryRange) : Array TryRange :=
  ranges.toArray.mapIdx fun i r => { r with next := before? i }

/-- The exits outside of any loop, which no statement takes. -/
def Exits.outside : Exits :=
  ⟨0, 0, false⟩

/-- The function of a body that ends on the given line.  Behind the body it gives back
nothing. -/
def assemble (name : Option String) (script : Option String) (arity : Nat) (body : Stmt)
    (line : Nat) : Function :=
  let pool := poolOf body.constants
  let lines :=
    body.code pool.idxOf Exits.outside 0 ++ [(.literal .none, line), (.ret, line)]
  let ranges := body.ranges 0
  { name := name
    script := script
    arity := arity
    code :=
      { instrs := (lines.map Prod.fst).toArray
        lines := (lines.map Prod.snd).toArray
        constants := pool }
    ranges := chain ranges
    head := before? ranges.length }

def Definition.assemble (script : Option String) (d : Definition) : Function :=
  StackScript.assemble (some d.name) script d.arity d.body d.line

end StackScript
