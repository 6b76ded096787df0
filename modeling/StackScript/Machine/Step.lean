import StackScript.Machine.Call
import StackScript.Machine.Iteration

/-!
# What each instruction does

Operands are taken from the top of the stack, the last one first, and stay taken
when the instruction fails.
-/

namespace StackScript

def Literal.value : Literal -> Value
  | none => .none
  | bool b => .bool b
  | int n => .integer n
  | float x => .float x

/-- The table with the given keys and values in turn; of two equal keys the later wins. -/
def tableOfPairs : List Value -> Table -> Except Fault Table
  | .text key :: value :: rest, entries => tableOfPairs rest (entries.insert key value)
  | key :: _ :: _, _ => .error (.expected "Table" "`String` keys" key.kind)
  | _, entries => .ok entries

/-- A new table with the given keys and values. -/
def Heap.tableOf (h : Heap) (items : List Value) : Answer :=
  h.check (tableOfPairs items {}) fun entries =>
  .of (h.newTable entries)

namespace Exec

/-! ## Variables -/

/-- Gives a global a value, whether it was there or not. -/
def defineGlobal (name : String) (v : Value) : Exec Unit :=
  modify fun m => { m with globals := m.globals.insert name v }

def getGlobal (name : String) : Exec Value := do
  match (← get).globals[name]? with
  | some v => return v
  | none => fail (.undefinedVariable name)

/-- Gives a global that is there a value. -/
def setGlobal (name : String) (v : Value) : Exec Unit := do
  if (← get).globals.contains name then
    defineGlobal name v
  else
    fail (.undefinedVariable name)

def incrementLocal (slot : Nat) (n : Int64) : Exec Value := do
  let old ← getLocal slot
  let new ← perform fun h => answer h (old.add h (.integer n))
  setLocal slot new
  return new

/-- Whether the topmost value counts as false. -/
def topIsFalsy : Exec Bool := do
  let v ← peek 0
  return (← get).heap.falsy v

/-! ## Instructions -/

def step : Instr -> Exec Unit
  | .constant k => do
    push (← constant k)
  | .literal v => push v.value
  | .pop => do
    let _ ← pop
  | .duplicate => do
    push (← peek 0)
  | .duplicatePair => do
    let a ← peek 1
    let b ← peek 0
    push a
    push b
  | .unary op => do
    let a ← pop
    push (← perform fun h => op.apply h a)
  | .binary op => do
    let b ← pop
    let a ← pop
    push (← perform fun h => op.apply h a b)
  | .ternary op => do
    let c ← pop
    let b ← pop
    let a ← pop
    push (← perform fun h => op.apply h a b c)
  | .defineGlobal k => do
    let x ← name k
    defineGlobal x (← pop)
  | .getGlobal k => do
    push (← getGlobal (← name k))
  | .setGlobal k => do
    let x ← name k
    setGlobal x (← peek 0)
  | .getLocal slot => do
    push (← getLocal slot)
  | .setLocal slot => do
    setLocal slot (← peek 0)
  | .increment slot n => do
    push (← incrementLocal slot n)
  | .getProperty k => do
    let key ← name k
    let object ← pop
    push (← perform fun h => answer h (h.getProperty object key))
  | .setProperty k => do
    let key ← name k
    let value ← pop
    let object ← pop
    push (← perform fun h => h.setProperty object key value)
  | .newArray n => do
    let items ← popMany n
    push (← allocate fun h => h.newArray items)
  | .newTable n => do
    let items ← popMany (2 * n)
    push (← perform fun h => h.tableOf items.toList)
  | .jump offset => jumpForward offset
  | .jumpIfFalse offset => do
    if ← topIsFalsy then
      jumpForward offset
  | .jumpIfTrue offset => do
    if !(← topIsFalsy) then
      jumpForward offset
  | .loop offset => jumpBack offset
  | .forBegin slot vars offset => beginIteration slot vars offset
  | .forNext slot vars offset => continueIteration slot vars offset
  | .call n => call n
  | .ret => leave
  | .throw => do
    throw (.value (← pop))
  | .print => do
    let v ← pop
    write ((← get).heap.render v)
  | .echo => do
    let v ← pop
    write ((← get).heap.render v ++ "\n")
  | .use => use

end Exec
end StackScript
