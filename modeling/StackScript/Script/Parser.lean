import StackScript.Script.Error
import StackScript.Script.Scope
import StackScript.Script.Tree
import StackScript.Token.Binding

/-!
# From tokens to a script

Reading looks one token ahead and never goes back.  The reader keeps the token it
has consumed last and the one in front of it, so an error in the text surfaces
when the faulty token would come to stand in front.  Names are resolved on the
way, which makes scope errors and other errors appear in the order of the text.

Expressions are read by binding power.  The functions call each other with a
budget that shrinks with every call; the budget handed out at the start is linear
in the number of tokens.
-/

namespace StackScript

/-- Why reading stopped. -/
inductive ParseError where
  | lex (e : LexError)
  | fault (f : SyntaxFault) (at_ : Position)
  | exhausted
  deriving DecidableEq

/-- How far a script has been read. -/
structure Reading where
  /-- The token consumed last. -/
  previous : Spanned
  /-- The token in front. -/
  current : Spanned
  rest : List Spanned
  /-- What stands behind the last token, if it is not the end of the script. -/
  failure : Option LexError
  scope : Scope
  inFunction : Bool
  /-- The depth of the innermost loop of the current function. -/
  loop : Option Nat
  definitions : Array Definition
  /-- The number of the first definition. -/
  base : Nat

/-- A step of reading. -/
abbrev Parser :=
  StateT Reading (Except ParseError)

namespace Parser

/-! ## The token in front -/

/-- Stops because the budget is used up. -/
def exhausted {α : Type} : Parser α :=
  fun _ => .error .exhausted

def current : Parser Token :=
  fun r => .ok (r.current.token, r)

def previous : Parser Token :=
  fun r => .ok (r.previous.token, r)

def failHere {α : Type} (f : SyntaxFault) : Parser α :=
  fun r => .error (.fault f r.current.start)

/-- Stops with a fault at the token consumed last. -/
def failBefore {α : Type} (f : SyntaxFault) : Parser α :=
  fun r => .error (.fault f r.previous.start)

/-- The line of the token consumed last, which is the line of code written now. -/
def line : Parser Nat :=
  fun r => .ok (r.previous.start.line, r)

/-- Consumes the token in front.  The end of the script stays in front. -/
def advance : Parser Unit :=
  fun r =>
    match r.rest, r.failure with
    | t :: rest, _ => .ok ((), { r with previous := r.current, current := t, rest := rest })
    | [], some e => .error (.lex e)
    | [], none => .ok ((), { r with previous := r.current })

def at? (t : Token) : Parser Bool :=
  return (← current) == t

/-- Consumes a token if it stands in front, and says whether it did. -/
def accept (t : Token) : Parser Bool := do
  if ← at? t then
    advance
    return true
  else
    return false

def expect (t : Token) (what : String) : Parser Unit := do
  if ← at? t then
    advance
  else
    failHere (.expected what (← current))

def expectName (what : String) : Parser String := do
  match ← current with
  | .name s =>
    advance
    return s
  | t => failHere (.expected what t)

def atName : Parser Bool :=
  return match ← current with
    | .name _ => true
    | _ => false

/-! ## Scopes -/

def scope : Parser Scope :=
  fun r => .ok (r.scope, r)

def modifyScope (f : Scope -> Scope) : Parser Unit :=
  fun r => .ok ((), { r with scope := f r.scope })

/-- Declares a local whose value is still to be computed. -/
def declare (name : String) : Parser Unit :=
  fun r =>
    match r.scope.declare? name with
    | some scope => .ok ((), { r with scope := scope })
    | none => .error (.fault (.duplicateVariable name) r.previous.start)

/-- Declares a local that has its value already. -/
def declareSettled (name : String) : Parser Unit := do
  declare name
  modifyScope Scope.settle

/-- Leaves a block: the code that forgets its locals. -/
def exitScope : Parser Stmt :=
  fun r =>
    .ok (.drop (r.scope.above (r.scope.depth - 1)) r.previous.start.line,
      { r with scope := r.scope.exit })

def resolve (name : String) : Parser Variable := do
  match (← scope).resolve name with
  | .slot n => return .slot n
  | .unsettled => failBefore (.unsettledVariable name)
  | .global => return .global name

/-- Reads a part of the script inside a loop of the current depth. -/
def inLoop {α : Type} (body : Parser α) : Parser α := do
  let outer := (← get).loop
  modify fun r => { r with loop := some r.scope.depth }
  let a ← body
  modify fun r => { r with loop := outer }
  return a

/-- Reads a function's parameters and body in a scope of its own. -/
def inFunction {α : Type} (body : Parser α) : Parser α := do
  let outer ← get
  set { outer with scope := Scope.function, inFunction := true, loop := none }
  let a ← body
  modify fun r =>
    { r with scope := outer.scope, inFunction := outer.inFunction, loop := outer.loop }
  return a

/-- Adds a definition and gives its number. -/
def define (d : Definition) : Parser Nat :=
  fun r => .ok (r.base + r.definitions.size, { r with definitions := r.definitions.push d })

/-- The number of locals to forget on the way out of the innermost loop's body. -/
def loopLocals (outside : SyntaxFault) : Parser Nat :=
  fun r =>
    match r.loop with
    | some depth => .ok (r.scope.above depth, r)
    | none => .error (.fault outside r.previous.start)

/-! ## Pieces -/

/-- Reads parameter names up to the closing parenthesis and counts them. -/
def parameters : Nat -> Parser Nat
  | 0 => exhausted
  | fuel + 1 => do
    if ← at? (.mark .rightParen) then
      return 0
    else
      declareSettled (← expectName "Expected parameter name")
      if ← accept (.mark .comma) then
        return (← parameters fuel) + 1
      else
        return 1

def key : Parser String := do
  match ← current with
  | .name s =>
    advance
    return s
  | .text s .whole =>
    advance
    return s
  | t => failHere (.expectedKey t)

/-- The compound assignment in front, which is consumed. -/
def compound? (canAssign : Bool) : Parser (Option Operator) := do
  match canAssign, (← current).compound? with
  | true, some op =>
    advance
    return some op
  | _, _ => return none

/-- Adds the text of a string literal to what stands in front of it. -/
def glue (e : Expr) (s : String) (line : Nat) : Expr :=
  if s.isEmpty then e else .binary (.arith .add) e (.text s line) line

/-- The handler's variable, with or without parentheses around it. -/
def handlerName : Parser (Option String) := do
  if ← accept (.mark .leftParen) then
    let name ← expectName "Expected exception variable"
    expect (.mark .rightParen) "Expected `)` after exception variable"
    return some name
  else if ← atName then
    return some (← expectName "Expected exception variable")
  else
    return none

/-- The variables of a loop over a collection. -/
def loopNames : Parser (List String) := do
  let first ← expectName "Expected loop variable after `for`"
  if ← accept (.mark .comma) then
    return [first, ← expectName "Expected second loop variable after `,`"]
  else
    return [first]

/-! ## Expressions and statements -/

mutual

/-- Reads an expression whose operators bind at least as tightly as the precedence. -/
def expression : Nat -> Precedence -> Parser Expr
  | 0, _ => exhausted
  | fuel + 1, p => do
    advance
    let canAssign := p.rank <= Precedence.assign.rank
    let e ← operand fuel canAssign
    let e ← follow fuel p canAssign e
    let t ← current
    if canAssign && (t == .mark .assign || t.compound?.isSome) then
      failHere .invalidTarget
    else
      return e

/-- Reads the operand that the token consumed last begins. -/
def operand : Nat -> Bool -> Parser Expr
  | 0, _ => exhausted
  | fuel + 1, canAssign => do
    match ← previous with
    | .integer n => return .literal (.int n) (← line)
    | .float x => return .literal (.float x) (← line)
    | .keyword .true_ => return .literal (.bool true) (← line)
    | .keyword .false_ => return .literal (.bool false) (← line)
    | .keyword .none => return .literal .none (← line)
    | .text s .first => segments fuel (.text s (← line))
    | .text s _ => return .text s (← line)
    | .name s => name fuel canAssign s
    | .keyword .function => function fuel "<function>"
    | .builtin b => builtin fuel b
    | .mark .leftParen =>
      let e ← expression fuel .assign
      expect (.mark .rightParen) "Expected `)` after expression"
      return e
    | .mark .leftSquare =>
      let items ← items fuel .rightSquare
      expect (.mark .rightSquare) "Expected `]` to close array"
      return .array items (← line)
    | .mark .leftCurly =>
      let entries ← entries fuel
      expect (.mark .rightCurly) "Expected `\x7d` to close table"
      return .table entries (← line)
    | .operator .subtract => return .unary .negate (← expression fuel .unary) (← line)
    | .mark .bitNot => return .unary .bitNot (← expression fuel .unary) (← line)
    | .keyword .not => return .unary .not (← expression fuel .unary) (← line)
    | t => failBefore (.expectedExpression t)

/-- Goes on with an operand as long as the token in front binds tightly enough. -/
def follow : Nat -> Precedence -> Bool -> Expr -> Parser Expr
  | 0, _, _, _ => exhausted
  | fuel + 1, p, canAssign, e => do
    let t ← current
    if p.rank <= t.rule.precedence.rank then
      advance
      let e ← continuation fuel canAssign e t
      follow fuel p canAssign e
    else
      return e

/-- Goes on with an operand behind the token that follows it. -/
def continuation : Nat -> Bool -> Expr -> Token -> Parser Expr
  | 0, _, _, _ => exhausted
  | fuel + 1, canAssign, e, t => do
    match t with
    | .operator op =>
      return .binary (.arith op) e (← expression fuel op.precedence.next) (← line)
    | .comparison c =>
      return .binary (.compare c) e (← expression fuel c.precedence.next) (← line)
    | .keyword .and =>
      let opLine ← line
      return .connect .and e opLine (← expression fuel .and)
    | .keyword .or =>
      let opLine ← line
      return .connect .or e opLine (← expression fuel .or)
    | .mark .leftParen =>
      let args ← items fuel .rightParen
      expect (.mark .rightParen) "Expected `)` after function arguments"
      return .call e args (← line)
    | .mark .dot => member fuel canAssign e
    | .mark .leftSquare => square fuel canAssign e
    | _ => return e

/-- Reads a variable, or an assignment to it. -/
def name : Nat -> Bool -> String -> Parser Expr
  | 0, _, _ => exhausted
  | fuel + 1, canAssign, s => do
    let v ← resolve s
    if canAssign && (← current) == .mark .assign then
      advance
      return .assign v (← expression fuel .assign) (← line)
    else
      match ← compound? canAssign with
      | some op =>
        let opLine ← line
        return .update v op opLine (← expression fuel .assign) (← line)
      | none => return .read v (← line)

/-- Reads a property behind its point, or an assignment to it. -/
def member : Nat -> Bool -> Expr -> Parser Expr
  | 0, _, _ => exhausted
  | fuel + 1, canAssign, o => do
    let key ← expectName "Expected property name after `.`"
    if canAssign && (← current) == .mark .assign then
      advance
      return .setProperty o key (← expression fuel .assign) (← line)
    else
      match ← compound? canAssign with
      | some op =>
        let opLine ← line
        return .updateProperty o key op opLine (← expression fuel .assign) (← line)
      | none => return .property o key (← line)

/-- Reads an element or a slice behind its bracket, or an assignment to an element. -/
def square : Nat -> Bool -> Expr -> Parser Expr
  | 0, _, _ => exhausted
  | fuel + 1, canAssign, o => do
    if ← accept (.mark .colon) then
      slice fuel o (.literal (.int 0) (← line))
    else
      let i ← expression fuel .assign
      if ← accept (.mark .colon) then
        slice fuel o i
      else
        expect (.mark .rightSquare) "Expected `]` after index"
        if canAssign && (← current) == .mark .assign then
          advance
          return .ternary .set o i (← expression fuel .assign) (← line)
        else
          match ← compound? canAssign with
          | some op =>
            let opLine ← line
            return .updateItem o i op opLine (← expression fuel .assign) (← line)
          | none => return .binary .get o i (← line)

def slice : Nat -> Expr -> Expr -> Parser Expr
  | 0, _, _ => exhausted
  | fuel + 1, o, start => do
    let stop ←
      if ← at? (.mark .rightSquare) then
        pure (.literal .none (← line))
      else
        expression fuel .assign
    expect (.mark .rightSquare) "Expected `]` after slice"
    return .ternary .slice o start stop (← line)

/-- Reads the interpolations and texts behind the first part of a string literal. -/
def segments : Nat -> Expr -> Parser Expr
  | 0, _ => exhausted
  | fuel + 1, e => do
    let a ← expression fuel .assign
    let e := Expr.binary (.arith .add) e a (← line)
    match ← current with
    | .text s .middle =>
      advance
      segments fuel (glue e s (← line))
    | .text s .last =>
      advance
      return glue e s (← line)
    | _ => failHere .openInterpolation

/-- Reads expressions with commas between them, up to the closing mark. -/
def items : Nat -> Mark -> Parser (List Expr)
  | 0, _ => exhausted
  | fuel + 1, close => do
    if ← at? (.mark close) then
      return []
    else
      let e ← expression fuel .assign
      if ← accept (.mark .comma) then
        return e :: (← items fuel close)
      else
        return [e]

/-- Reads keys and values with commas between them, up to the closing brace. -/
def entries : Nat -> Parser (List Expr)
  | 0 => exhausted
  | fuel + 1 => do
    if ← at? (.mark .rightCurly) then
      return []
    else
      let key ← key
      let keyLine ← line
      expect (.mark .colon) "Expected `:` after table key"
      let e ← expression fuel .assign
      if ← accept (.mark .comma) then
        return .text key keyLine :: e :: (← entries fuel)
      else
        return [.text key keyLine, e]

def builtin : Nat -> Builtin -> Parser Expr
  | 0, _ => exhausted
  | fuel + 1, b => do
    let comma :=
      expect (.mark .comma) ("`" ++ b.word ++ "` expects " ++ toString b.arity ++ " arguments")
    let close :=
      expect (.mark .rightParen) ("Expected `)` after arguments to `" ++ b.word ++ "`")
    expect (.mark .leftParen) ("Expected `(` after `" ++ b.word ++ "`")
    match b.form with
    | .unary op =>
      let x ← expression fuel .assign
      close
      return .unary op x (← line)
    | .binary op =>
      let x ← expression fuel .assign
      comma
      let y ← expression fuel .assign
      close
      return .binary op x y (← line)
    | .ternary op =>
      let x ← expression fuel .assign
      comma
      let y ← expression fuel .assign
      comma
      let z ← expression fuel .assign
      close
      return .ternary op x y z (← line)

def function : Nat -> String -> Parser Expr
  | 0, _ => exhausted
  | fuel + 1, name => do
    let d ← inFunction do
      expect (.mark .leftParen) "Expected `(` before parameters"
      let arity ← parameters fuel
      expect (.mark .rightParen) "Expected `)` after parameters"
      expect (.mark .leftCurly) "Expected `\x7b` before function body"
      let body ← declarations fuel true
      expect (.mark .rightCurly) "Expected `\x7d` after function body"
      return { name := name, arity := arity, body := body, line := ← line : Definition }
    return .function (← define d) (← line)

/-- Reads declarations up to the end of the script or, in a block, up to its closing brace. -/
def declarations : Nat -> Bool -> Parser Stmt
  | 0, _ => exhausted
  | fuel + 1, inBlock => do
    let t ← current
    if t == .endOfFile || (inBlock && t == .mark .rightCurly) then
      return .skip
    else
      let s ← declaration fuel
      return .seq s (← declarations fuel inBlock)

/-- Reads a declaration or a statement and the semicolon that may follow it. -/
def declaration : Nat -> Parser Stmt
  | 0 => exhausted
  | fuel + 1 => do
    let s ←
      match ← current with
      | .keyword .let_ =>
        advance
        letDeclaration fuel
      | .keyword .function =>
        advance
        if ← atName then
          functionDeclaration fuel
        else
          let e ← function fuel "<function>"
          pure (.expr e (← line))
      | _ => statement fuel
    let _ ← accept (.mark .semicolon)
    return s

def letDeclaration : Nat -> Parser Stmt
  | 0 => exhausted
  | fuel + 1 => do
    let name ← expectName "Expected variable name after `let`"
    if (← scope).depth == 0 then
      expect (.mark .assign) "Expected `=` after variable name"
      return .define name (← expression fuel .assign) (← line)
    else
      declare name
      expect (.mark .assign) "Expected `=` after variable name"
      let e ← expression fuel .assign
      modifyScope Scope.settle
      return .bind e

def functionDeclaration : Nat -> Parser Stmt
  | 0 => exhausted
  | fuel + 1 => do
    let name ← expectName "Expected function name"
    if (← scope).depth == 0 then
      return .define name (← function fuel name) (← line)
    else
      declareSettled name
      return .bind (← function fuel name)

def statement : Nat -> Parser Stmt
  | 0 => exhausted
  | fuel + 1 => do
    match ← current with
    | .keyword .echo =>
      advance
      return .output .echo (← expression fuel .assign) (← line)
    | .keyword .print =>
      advance
      return .output .print (← expression fuel .assign) (← line)
    | .keyword .throw =>
      advance
      return .throw (← expression fuel .assign) (← line)
    | .keyword .use =>
      advance
      return .use (← expression fuel .assign) (← line)
    | .keyword .if_ =>
      advance
      conditional fuel
    | .keyword .while_ =>
      advance
      let c ← expression fuel .assign
      let condLine ← line
      let body ← inLoop (block fuel)
      return .while c condLine body (← line)
    | .keyword .for_ =>
      advance
      modifyScope Scope.enter
      let s ←
        if ← accept (.keyword .let_) then
          steppingLoop fuel
        else
          collectionLoop fuel
      return .seq s (← exitScope)
    | .keyword .try_ =>
      advance
      tryStatement fuel
    | .keyword .return_ =>
      advance
      returnStatement fuel
    | .keyword .break_ =>
      advance
      return .leave (← loopLocals .breakOutsideLoop) (← line)
    | .keyword .continue_ =>
      advance
      return .again (← loopLocals .continueOutsideLoop) (← line)
    | _ => return .expr (← expression fuel .assign) (← line)

def block : Nat -> Parser Stmt
  | 0 => exhausted
  | fuel + 1 => do
    expect (.mark .leftCurly) "Expected `\x7b` to begin block"
    modifyScope Scope.enter
    let s ← declarations fuel true
    expect (.mark .rightCurly) "Expected `\x7d` to close block"
    return .seq s (← exitScope)

/-- Reads a condition, its block and what follows in the other case. -/
def conditional : Nat -> Parser Stmt
  | 0 => exhausted
  | fuel + 1 => do
    let c ← expression fuel .assign
    let condLine ← line
    let body ← block fuel
    let bodyLine ← line
    if ← accept (.keyword .elif) then
      return .cond c condLine body bodyLine (← conditional fuel)
    else if ← accept (.keyword .else_) then
      return .cond c condLine body bodyLine (← block fuel)
    else
      return .cond c condLine body bodyLine .skip

/-- Reads a loop with a variable, a condition and a step, behind its `let`. -/
def steppingLoop : Nat -> Parser Stmt
  | 0 => exhausted
  | fuel + 1 => do
    let start ← letDeclaration fuel
    expect (.mark .semicolon) "Expected `;` after loop initializer"
    let c ← expression fuel .assign
    let condLine ← line
    expect (.mark .semicolon) "Expected `;` after loop condition"
    let jumpLine ← line
    let step ← expression fuel .assign
    let stepLine ← line
    let body ← inLoop (block fuel)
    return .seq start (.stepping c condLine jumpLine step stepLine body (← line))

def collectionLoop : Nat -> Parser Stmt
  | 0 => exhausted
  | fuel + 1 => do
    let names ← loopNames
    expect (.keyword .in_) "Expected `in` after loop variables"
    let e ← expression fuel .assign
    let slot := (← scope).size
    modifyScope fun s => ((s.hide "<iterable>").hide "<keys>").hide "<index>"
    names.forM declareSettled
    let startLine ← line
    let body ← inLoop (block fuel)
    return .seq (.bind e) (.iterate slot names.length startLine body (← line))

def tryStatement : Nat -> Parser Stmt
  | 0 => exhausted
  | fuel + 1 => do
    let depth := (← scope).size
    let body ← block fuel
    let bodyLine ← line
    expect (.keyword .except) "Expected `except` after `try` block"
    modifyScope Scope.enter
    match ← handlerName with
    | some name =>
      declareSettled name
      let handler ← block fuel
      return .try depth body bodyLine (.seq handler (← exitScope))
    | none =>
      let dropLine ← line
      let handler ← block fuel
      return .try depth body bodyLine (.seq (.drop 1 dropLine) (.seq handler (← exitScope)))

/-- Reads what a `return` gives back. -/
def returnStatement : Nat -> Parser Stmt
  | 0 => exhausted
  | fuel + 1 => do
    if (← get).inFunction then
      let t ← current
      if t == .mark .rightCurly || t == .mark .semicolon || t == .endOfFile then
        let l ← line
        return .ret (.literal .none l) l
      else
        return .ret (← expression fuel .assign) (← line)
    else
      failBefore .returnOutsideFunction

end

/-! ## Scripts -/

def budget (tokens : Nat) : Nat :=
  8 * (tokens + 2)

def script (fuel : Nat) : Parser Script := do
  advance
  let body ← declarations fuel false
  return { definitions := (← get).definitions, body := body, line := ← line }

/-- The state at the beginning of a script whose definitions are numbered from `base`. -/
def start (base : Nat) (tokens : List Spanned) (failure : Option LexError) : Reading :=
  let none : Spanned := ⟨.endOfFile, Position.start, 0⟩
  { previous := none
    current := none
    rest := tokens
    failure := failure
    scope := Scope.script
    inFunction := false
    loop := Option.none
    definitions := #[]
    base := base }

end Parser

/-- Reads a script whose definitions are numbered from `base`. -/
def parse (base : Nat) (source : String) : Except ParseError Script :=
  let (tokens, failure) := tokenize source
  match (Parser.script (Parser.budget tokens.length)).run (Parser.start base tokens failure) with
  | .ok (s, _) => .ok s
  | .error e => .error e

end StackScript
