import StackScript.Text.Column
import StackScript.Value.Render

/-!
# Code as a listing

A listing shows a function as a head with its name and its sizes, a line for each
instruction, a line for each try range, and then the listings of the functions
among its constants.  Instructions that a jump leads to are marked, and a source
line is only written where it differs from that of the instruction before.
-/

namespace StackScript
namespace Listing

/-! ## Instructions -/

def entry (i : Instr) (rest : String) : String :=
  Text.leftAligned 24 i.mnemonic ++ rest

def signed (n : Int64) : String :=
  if n.toInt < 0 then toString n.toInt else "+" ++ toString n.toInt

/-- An index of the pool and what is found there. -/
def constant (h : Heap) (f : Function) (k : Nat) : String :=
  let shown :=
    match f.code.constants[k]? with
    | some (.text s) => Text.quoted s
    | some v => h.render v
    | none => "?"
  "[" ++ toString k ++ "] " ++ shown

def forwards (ip offset : Nat) : String :=
  toString offset ++ " ↓ (→ " ++ Text.zeroPadded 4 (ip + 1 + offset) ++ ")"

/-- A jump backwards by an offset, which may lead out of the code. -/
def backwards (target : Option Nat) (offset : Nat) : String :=
  let shown :=
    match target with
    | some t => Text.zeroPadded 4 t
    | none => "?"
  toString offset ++ " ↑ (→ " ++ shown ++ ")"

def iteration (slot vars : Nat) : String :=
  "$" ++ toString slot ++ " vars " ++ toString vars ++ " "

def instruction (h : Heap) (f : Function) (ip : Nat) (i : Instr) : String :=
  match i with
  | .constant k | .defineGlobal k | .getGlobal k | .setGlobal k | .getProperty k | .setProperty k =>
    entry i (constant h f k)
  | .literal (.int n) => entry i (toString n.toInt)
  | .literal (.float x) => entry i (Notation.plainText x)
  | .getLocal slot | .setLocal slot => entry i ("$" ++ toString slot)
  | .increment slot n => entry i ("$" ++ toString slot ++ " " ++ signed n)
  | .newArray n | .newTable n | .call n => entry i (toString n)
  | .jump offset | .jumpIfFalse offset | .jumpIfTrue offset => entry i (forwards ip offset)
  | .loop offset => entry i (backwards (i.jumpTarget? ip) offset)
  | .forBegin slot vars offset => entry i (iteration slot vars ++ forwards ip offset)
  | .forNext slot vars offset =>
    entry i (iteration slot vars ++ backwards (i.jumpTarget? ip) offset)
  | _ => i.mnemonic

/-! ## Functions -/

def targets (c : Code) : List Nat :=
  c.instrs.toList.zipIdx.filterMap fun (i, ip) => i.jumpTarget? ip

/-- The source line, or a bar where it is the one before. -/
def lineColumn (before line : Nat) : String :=
  if line = before then "   |" else Text.rightAligned 4 line

/-- The lines of the instructions, the first of which has index `ip`. -/
def body (h : Heap) (f : Function) (marked : List Nat) : Nat -> Nat -> List Instr -> String
  | _, _, [] => ""
  | before, ip, i :: rest =>
    let line := f.code.line ip
    Text.zeroPadded 4 ip ++ " " ++ lineColumn before line ++ " " ++
      (if marked.contains ip then "►" else " ") ++ " " ++ instruction h f ip i ++ "\n" ++
      body h f marked line (ip + 1) rest

def range (r : TryRange) : String :=
  "  except " ++ Text.zeroPadded 4 r.start ++ ".." ++ Text.zeroPadded 4 r.stop ++ " handler " ++
    Text.zeroPadded 4 r.stop ++ " stack " ++ toString r.depth ++ "\n"

def rule : String :=
  Text.copies 40 '═' ++ "\n"

/-- The head of a function: its name and its sizes. -/
def head (f : Function) : String :=
  rule ++ " " ++ f.displayName ++ "\n" ++
    " " ++ toString f.code.size ++ " instructions, " ++ toString f.code.constants.size ++
    " constants, " ++ toString f.code.encode.length ++ " bytes encoded\n" ++ rule

/-- The listing of one function without those among its constants. -/
def single (h : Heap) (f : Function) : String :=
  head f ++ body h f (targets f.code) 0 0 f.code.instrs.toList ++
    String.join (f.ranges.toList.map range) ++ "\n"

def functionOf? (h : Heap) : Value -> Option Function
  | .function id => some (h.function id)
  | _ => none

/-- The listing of a function and of those among its constants, so many levels deep. -/
def deep (h : Heap) : Nat -> Function -> String
  | 0, _ => ""
  | depth + 1, f =>
    single h f ++
      String.join ((f.code.constants.toList.filterMap (functionOf? h)).map (deep h depth))

end Listing

/-- The listing of a function and of all functions below it.  A function is made after those
among its constants, so the number of functions bounds the depth. -/
def Heap.listing (h : Heap) (f : Function) : String :=
  Listing.deep h (h.functions.size + 1) f

end StackScript
