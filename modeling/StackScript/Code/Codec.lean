import StackScript.Code.Instr

/-!
# Code as bytes

A list of instructions is its length followed by the instructions; an instruction
is its number followed by its operands.  Natural numbers are varints: seven bits
to a byte, lowest first, all bytes but the last with the high bit set.  Signed
integers are folded onto the naturals first, so that small absolute values stay
short, and floats are their eight bytes, lowest first.

Reading stops at the end of the list.  Whatever follows is left alone.
-/

namespace StackScript
namespace Codec

/-- Why bytes are not a list of instructions. -/
inductive DecodeError where
  /-- The bytes end too early. -/
  | unexpectedEnd
  /-- A varint is longer than its type allows. -/
  | badVarint
  /-- No instruction has this number. -/
  | unknownInstruction
  deriving DecidableEq, Repr

/-- A reader of bytes: a value and the bytes behind it. -/
abbrev Reader (α : Type) :=
  List UInt8 -> Except DecodeError (α × List UInt8)

/-! ## Varints -/

/-- A natural number as a varint. -/
def encodeNat (n : Nat) : List UInt8 :=
  if n < 128 then
    [n.toUInt8]
  else
    (n % 128 + 128).toUInt8 :: encodeNat (n / 128)
termination_by n
decreasing_by omega

/-- Reads a varint of at most `size` bytes, whose last allowed byte is at most `last`. -/
def decodeNat (size last : Nat) : Reader Nat :=
  fun bytes =>
    match size, bytes with
    | 0, _ => .error .badVarint
    | _ + 1, [] => .error .unexpectedEnd
    | size + 1, b :: rest =>
      if b.toNat < 128 then
        if size = 0 && last < b.toNat then .error .badVarint else .ok (b.toNat, rest)
      else
        match decodeNat size last rest with
        | .ok (n, rest) => .ok (b.toNat - 128 + 128 * n, rest)
        | .error e => .error e

/-- Reads a 64-bit natural number. -/
def decodeIndex : Reader Nat :=
  decodeNat 10 1

/-- Reads the number of an instruction, which has 32 bits. -/
def decodeNumber : Reader Nat :=
  decodeNat 5 15

/-! ## Signed integers and floats -/

/-- Folds the signed integers onto the naturals: 0, -1, 1, -2, 2 and so on. -/
def zigzag (n : Int64) : Nat :=
  if 0 <= n.toInt then 2 * n.toInt.toNat else 2 * (-n.toInt).toNat - 1

def unzigzag (n : Nat) : Int64 :=
  Int64.ofInt (if n % 2 = 0 then (n / 2 : Nat) else -((n / 2 + 1 : Nat) : Int))

/-- So many bytes of a natural number, lowest first. -/
def littleEndian : Nat -> Nat -> List UInt8
  | 0, _ => []
  | size + 1, n => (n % 256).toUInt8 :: littleEndian size (n / 256)

def decodeLittleEndian : Nat -> Reader Nat
  | 0, bytes => .ok (0, bytes)
  | _ + 1, [] => .error .unexpectedEnd
  | size + 1, b :: rest =>
    match decodeLittleEndian size rest with
    | .ok (n, rest) => .ok (b.toNat + 256 * n, rest)
    | .error e => .error e

def decodeInt : Reader Int64 :=
  fun bytes => (decodeIndex bytes).map fun (n, rest) => (unzigzag n, rest)

def decodeFloat : Reader Binary64 :=
  fun bytes => (decodeLittleEndian 8 bytes).map fun (n, rest) => (⟨UInt64.ofNat n⟩, rest)

/-! ## Instructions -/

def encodeOperand : Instr.Operand -> List UInt8
  | .index n => encodeNat n
  | .int n => encodeNat (zigzag n)
  | .float x => littleEndian 8 x.bits.toNat

def encodeInstr (i : Instr) : List UInt8 :=
  encodeNat i.number ++ i.operands.flatMap encodeOperand

def decodeOperands : Instr.Shape -> Reader Instr
  | .plain i, bytes => .ok (i, bytes)
  | .index make, bytes => do
    let (n, bytes) ← decodeIndex bytes
    return (make n, bytes)
  | .int make, bytes => do
    let (n, bytes) ← decodeInt bytes
    return (make n, bytes)
  | .float make, bytes => do
    let (x, bytes) ← decodeFloat bytes
    return (make x, bytes)
  | .indexInt make, bytes => do
    let (k, bytes) ← decodeIndex bytes
    let (n, bytes) ← decodeInt bytes
    return (make k n, bytes)
  | .indices make, bytes => do
    let (a, bytes) ← decodeIndex bytes
    let (b, bytes) ← decodeIndex bytes
    let (c, bytes) ← decodeIndex bytes
    return (make a b c, bytes)

def decodeInstr : Reader Instr :=
  fun bytes => do
    let (number, bytes) ← decodeNumber bytes
    match Instr.shape? number with
    | some shape => decodeOperands shape bytes
    | none => .error .unknownInstruction

def decodeMany : Nat -> Reader (List Instr)
  | 0, bytes => .ok ([], bytes)
  | n + 1, bytes => do
    let (i, bytes) ← decodeInstr bytes
    let (is, bytes) ← decodeMany n bytes
    return (i :: is, bytes)

def encode (is : List Instr) : List UInt8 :=
  encodeNat is.length ++ is.flatMap encodeInstr

/-- Reads a list of instructions from the start of the bytes. -/
def decode (bytes : List UInt8) : Except DecodeError (List Instr) := do
  let (n, bytes) ← decodeIndex bytes
  let (is, _) ← decodeMany n bytes
  return is

end Codec
end StackScript
