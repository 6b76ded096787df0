import StackScript.Proofs.Reading.Places

/-!
# What stands between two readings

The reader gives trees, declares locals and numbers functions.  Which piece it gives between two
readings is said here by rules that follow the nodes of the trees, whatever function of the reader
has read them and with whatever budget.  A node has the line of the token that was consumed last,
names are resolved in the scope of the moment, and a block leaves the scope that it has entered.
Marks and words between the parts of a piece are passed in front of a part or behind it.

What holds of all trees that the reader gives is shown by induction on these rules.
-/

namespace StackScript

/-- What the reader gives from one reading to another. -/
inductive Piece where
  | expr (e : Expr)
  | exprs (es : List Expr)
  /-- So many locals of the current block, which have their values. -/
  | locals (n : Nat)
  /-- The parameters and the body of a function, in the scope of the function. -/
  | body (d : Definition)
  /-- A function that has got this number. -/
  | function (id : Nat)
  /-- A statement without locals outside of its own blocks. -/
  | statement (s : Stmt)
  /-- A statement that may declare locals of the current block. -/
  | declaration (s : Stmt)
  /-- A loop that declares its locals in the current block, which has been entered for it. -/
  | loop (s : Stmt)

/-- The variable that a name stands for. -/
def Scope.Finds (s : Scope) (name : String) (v : Variable) : Prop :=
  match s.resolve name with
  | .slot n => v = .slot n
  | .unsettled => False
  | .global => v = .global name

/-- Statements that do one thing with the value of an expression. -/
inductive Stmt.Performs (e : Expr) (line : Nat) : Stmt -> Prop where
  | expr : Performs e line (.expr e line)
  | output (sink : Sink) : Performs e line (.output sink e line)
  | throw : Performs e line (.throw e line)
  | use : Performs e line (.use e line)
  | define (name : String) : Performs e line (.define name e line)
  | ret : Performs e line (.ret e line)

namespace Reading

/-- The line of the token consumed last. -/
def line (r : Reading) : Nat :=
  r.previous.start.line

def inScope (r : Reading) (s : Scope) : Reading :=
  { r with scope := s }

def entered (r : Reading) : Reading :=
  r.inScope r.scope.enter

def exited (r : Reading) : Reading :=
  r.inScope r.scope.exit

/-- The code that forgets the locals of the current block. -/
def drop (r : Reading) : Stmt :=
  .drop (r.scope.above (r.scope.depth - 1)) r.line

/-- In a loop of the current depth. -/
def looping (r : Reading) : Reading :=
  { r with loop := some r.scope.depth }

/-- Behind the body of a loop that began at another reading. -/
def behindLoop (r r' : Reading) : Reading :=
  { r' with loop := r.loop }

/-- In front of the parameters of a function. -/
def calling (r : Reading) : Reading :=
  { r with scope := Scope.function, inFunction := true, loop := none }

/-- Behind a function that began at another reading. -/
def behindFunction (r r' : Reading) (d : Definition) : Reading :=
  { r' with
    scope := r.scope
    inFunction := r.inFunction
    loop := r.loop
    definitions := r'.definitions.push d }

/-- The scope with the three locals that a loop over a collection keeps. -/
def keeping (r : Reading) : Reading :=
  r.inScope (((r.scope.hide "<iterable>").hide "<keys>").hide "<index>")

/-- A piece stands between two readings. -/
inductive Spells : Reading -> Piece -> Reading -> Prop where
  | ahead {r r1 r' : Reading} {p : Piece} : r.Steps r1 -> Spells r1 p r' -> Spells r p r'
  | behind {r r1 r' : Reading} {p : Piece} : Spells r p r1 -> r1.Steps r' -> Spells r p r'
  -- Expressions
  | literal {r : Reading} (v : Literal) : Spells r (.expr (.literal v r.line)) r
  | text {r : Reading} (s : String) : Spells r (.expr (.text s r.line)) r
  | closure {r r' : Reading} {id : Nat} : Spells r (.function id) r' ->
      Spells r (.expr (.function id r'.line)) r'
  | read {r : Reading} {name : String} {v : Variable} : r.previous.token = .name name ->
      r.scope.Finds name v -> Spells r (.expr (.read v r.line)) r
  | assign {r r' : Reading} {name : String} {v : Variable} {a : Expr} :
      r.previous.token = .name name -> r.scope.Finds name v -> Spells r (.expr a) r' ->
      Spells r (.expr (.assign v a r'.line)) r'
  | update {r r1 r' : Reading} {name : String} {v : Variable} {a : Expr} (op : Operator) :
      r.previous.token = .name name -> r.scope.Finds name v -> r.Steps r1 ->
      Spells r1 (.expr a) r' -> Spells r (.expr (.update v op r1.line a r'.line)) r'
  | unary {r r' : Reading} {a : Expr} (op : UnaryOp) : Spells r (.expr a) r' ->
      Spells r (.expr (.unary op a r'.line)) r'
  | binary {r r1 r' : Reading} {a b : Expr} (op : BinaryOp) : Spells r (.expr a) r1 ->
      Spells r1 (.expr b) r' -> Spells r (.expr (.binary op a b r'.line)) r'
  | ternary {r r1 r2 r' : Reading} {a b c : Expr} (op : TernaryOp) : Spells r (.expr a) r1 ->
      Spells r1 (.expr b) r2 -> Spells r2 (.expr c) r' ->
      Spells r (.expr (.ternary op a b c r'.line)) r'
  | connect {r r1 r' : Reading} {a b : Expr} (op : Connective) : Spells r (.expr a) r1 ->
      Spells r1 (.expr b) r' -> Spells r (.expr (.connect op a r1.line b)) r'
  | call {r r1 r' : Reading} {f : Expr} {args : List Expr} : Spells r (.expr f) r1 ->
      Spells r1 (.exprs args) r' -> Spells r (.expr (.call f args r'.line)) r'
  | property {r r' : Reading} {o : Expr} (key : String) : Spells r (.expr o) r' ->
      Spells r (.expr (.property o key r'.line)) r'
  | setProperty {r r1 r' : Reading} {o a : Expr} (key : String) : Spells r (.expr o) r1 ->
      Spells r1 (.expr a) r' -> Spells r (.expr (.setProperty o key a r'.line)) r'
  | updateProperty {r r1 r' : Reading} {o a : Expr} (key : String) (op : Operator) :
      Spells r (.expr o) r1 -> Spells r1 (.expr a) r' ->
      Spells r (.expr (.updateProperty o key op r1.line a r'.line)) r'
  | updateItem {r r1 r2 r' : Reading} {o i a : Expr} (op : Operator) : Spells r (.expr o) r1 ->
      Spells r1 (.expr i) r2 -> Spells r2 (.expr a) r' ->
      Spells r (.expr (.updateItem o i op r2.line a r'.line)) r'
  | array {r r' : Reading} {es : List Expr} : Spells r (.exprs es) r' ->
      Spells r (.expr (.array es r'.line)) r'
  | table {r r' : Reading} {es : List Expr} : Spells r (.exprs es) r' -> es.length % 2 = 0 ->
      Spells r (.expr (.table es r'.line)) r'
  | nil {r : Reading} : Spells r (.exprs []) r
  | cons {r r1 r' : Reading} {e : Expr} {es : List Expr} : Spells r (.expr e) r1 ->
      Spells r1 (.exprs es) r' -> Spells r (.exprs (e :: es)) r'
  -- Functions
  | none {r : Reading} : Spells r (.locals 0) r
  | local {r r' : Reading} {name : String} {s : Scope} {n : Nat} :
      r.scope.declare? name = some s -> Spells (r.inScope s.settle) (.locals n) r' ->
      Spells r (.locals (n + 1)) r'
  | body {r r1 r' : Reading} {n : Nat} {s : Stmt} (name : String) : Spells r (.locals n) r1 ->
      Spells r1 (.declaration s) r' -> Spells r (.body ⟨name, n, s, r'.line⟩) r'
  | function {r r' : Reading} {d : Definition} : Spells r.calling (.body d) r' ->
      Spells r (.function (r'.base + r'.definitions.size)) (r.behindFunction r' d)
  -- Statements
  | skip {r : Reading} : Spells r (.statement .skip) r
  | perform {r r' : Reading} {e : Expr} {s : Stmt} : Spells r (.expr e) r' ->
      s.Performs e r'.line -> Spells r (.statement s) r'
  | leave {r : Reading} {depth : Nat} : r.loop = some depth ->
      Spells r (.statement (.leave (r.scope.above depth) r.line)) r
  | again {r : Reading} {depth : Nat} : r.loop = some depth ->
      Spells r (.statement (.again (r.scope.above depth) r.line)) r
  | block {r r' : Reading} {s : Stmt} : Spells r.entered (.declaration s) r' ->
      Spells r (.statement (.seq s r'.drop)) r'.exited
  | cond {r r1 r2 r' : Reading} {c : Expr} {body other : Stmt} : Spells r (.expr c) r1 ->
      Spells r1 (.statement body) r2 -> Spells r2 (.statement other) r' ->
      Spells r (.statement (.cond c r1.line body r2.line other)) r'
  | while {r r1 r' : Reading} {c : Expr} {body : Stmt} : Spells r (.expr c) r1 ->
      Spells r1.looping (.statement body) r' ->
      Spells r (.statement (.while c r1.line body r'.line)) (r1.behindLoop r')
  | for {r r' : Reading} {s : Stmt} : Spells r.entered (.loop s) r' ->
      Spells r (.statement (.seq s r'.drop)) r'.exited
  | try {r r1 r2 r3 r' : Reading} {body handler : Stmt} {name : String} {s : Scope} :
      Spells r (.statement body) r1 -> r1.Steps r2 -> r2.entered.Steps r3 ->
      r3.scope.declare? name = some s -> Spells (r3.inScope s.settle) (.statement handler) r' ->
      Spells r (.statement (.try r.scope.size body r1.line (.seq handler r'.drop))) r'.exited
  | tryAny {r r1 r2 r3 r' : Reading} {body handler : Stmt} :
      Spells r (.statement body) r1 -> r1.Steps r2 -> r2.entered.Steps r3 ->
      Spells r3 (.statement handler) r' ->
      Spells r (.statement
        (.try r.scope.size body r1.line (.seq (.drop 1 r3.line) (.seq handler r'.drop)))) r'.exited
  -- Declarations
  | plain {r r' : Reading} {s : Stmt} : Spells r (.statement s) r' -> Spells r (.declaration s) r'
  | seq {r r1 r' : Reading} {a b : Stmt} : Spells r (.declaration a) r1 ->
      Spells r1 (.declaration b) r' -> Spells r (.declaration (.seq a b)) r'
  | bind {r r' : Reading} {name : String} {s : Scope} {e : Expr} :
      r.scope.declare? name = some s -> Spells (r.inScope s) (.expr e) r' ->
      Spells r (.declaration (.bind e)) (r'.inScope r'.scope.settle)
  | bindFunction {r r' : Reading} {name : String} {s : Scope} {id : Nat} :
      r.scope.declare? name = some s -> Spells (r.inScope s.settle) (.function id) r' ->
      Spells r (.declaration (.bind (.function id r'.line))) r'
  -- Loops
  | stepping {r r1 r2 r3 r4 r' : Reading} {start body : Stmt} {c step : Expr} :
      Spells r (.declaration start) r1 -> Spells r1 (.expr c) r2 -> r2.Steps r3 ->
      Spells r3 (.expr step) r4 -> Spells r4.looping (.statement body) r' ->
      Spells r (.loop (.seq start (.stepping c r2.line r3.line step r4.line body r'.line)))
        (r4.behindLoop r')
  | collection {r r1 r2 r' : Reading} {e : Expr} {n : Nat} {body : Stmt} :
      Spells r (.expr e) r1 -> n = 1 ∨ n = 2 -> Spells r1.keeping (.locals n) r2 ->
      Spells r2.looping (.statement body) r' ->
      Spells r (.loop (.seq (.bind e) (.iterate r1.scope.size n r2.line body r'.line)))
        (r2.behindLoop r')

end Reading
end StackScript
