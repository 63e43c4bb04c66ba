import Mathlib.Data.Finset.Sort
import Mathlib.Data.List.Destutter
import Midwimble.Core.Difficulty
import Midwimble.Core.Types

namespace Midwimble
set_option autoImplicit true

def fprInverse : Nat := 1000000

/-- Golomb-Rice parameter. -/
def golombP : Nat := 20

structure BitWriter where
  buffer : Bytes
  currentByte : Nat
  bitsInByte : Nat

namespace BitWriter

def new : BitWriter := ⟨[], 0, 0⟩

def writeBit (w : BitWriter) (bit : Bool) : BitWriter :=
  let currentByte := if bit then w.currentByte ||| 1 <<< (7 - w.bitsInByte) else w.currentByte
  if w.bitsInByte + 1 = 8 then ⟨w.buffer ++ [UInt8.ofNat currentByte], 0, 0⟩
  else ⟨w.buffer, currentByte, w.bitsInByte + 1⟩

def writeOnes : Nat → BitWriter → BitWriter
  | 0, w => w
  | n + 1, w => writeOnes n (w.writeBit true)

def writeBits (w : BitWriter) (value count : Nat) : BitWriter :=
  (List.range count).reverse.foldl (fun w i => w.writeBit (value.testBit i)) w

def intoBytes (w : BitWriter) : Bytes :=
  if w.bitsInByte > 0 then w.buffer ++ [UInt8.ofNat w.currentByte] else w.buffer

end BitWriter

/-- Golomb-Rice encoding: the quotient in unary, the remainder in binary. -/
def encodeGolomb (w : BitWriter) (value : Nat) : BitWriter :=
  let quotient := value / 2 ^ golombP
  let remainder := value % 2 ^ golombP
  ((BitWriter.writeOnes quotient w).writeBit false).writeBits remainder golombP

/-- The encoding loop of `build`: each value's distance from the one before. -/
def encodeDeltas : (last : Nat) → List Nat → BitWriter → BitWriter
  | _, [], w => w
  | last, h :: hashes, w => encodeDeltas h hashes (encodeGolomb w (h - last))

/-- The bytes of ascending hashes. -/
def encodeValues (hashes : List Nat) : Bytes := (encodeDeltas 0 hashes .new).intoBytes

structure BitReader where
  data : Bytes
  byteIndex : Nat
  bitIndex : Nat

namespace BitReader

def new (data : Bytes) : BitReader := ⟨data, 0, 0⟩

def readBit (r : BitReader) : Option (Bool × BitReader) :=
  match r.data[r.byteIndex]? with
  | none => none
  | some byte =>
    let bit := byte.toNat.testBit (7 - r.bitIndex)
    some (bit, if r.bitIndex + 1 = 8 then ⟨r.data, r.byteIndex + 1, 0⟩
      else ⟨r.data, r.byteIndex, r.bitIndex + 1⟩)

/-- `count` bits after the `value` read so far. -/
def readBits : (count value : Nat) → BitReader → Option (Nat × BitReader)
  | 0, value, r => some (value, r)
  | count + 1, value, r => do
    let (bit, r) ← r.readBit
    readBits count (2 * value + bit.toNat) r

/-- Counts one bits until a zero. A reader of fewer than `fuel` bits runs out first. -/
def readUnary : (fuel quotient : Nat) → BitReader → Option (Nat × BitReader)
  | 0, _, _ => none
  | fuel + 1, quotient, r => do
    let (bit, r) ← r.readBit
    if bit then readUnary fuel (quotient + 1) r else some (quotient, r)

end BitReader

/-- Decodes one value. The quotient's bits past a `u64`'s are shifted out. -/
def decodeGolomb (r : BitReader) : Option (Nat × BitReader) := do
  let (quotient, r) ← r.readUnary (8 * r.data.length + 1) 0
  let (remainder, r) ← r.readBits golombP 0
  some ((quotient * 2 ^ golombP) % 2 ^ 64 ||| remainder, r)

/-- The loop of `decode_filter`. -/
def decodeValues : (n : Nat) → (cumulative : Nat) → BitReader → List Nat
  | 0, _, _ => []
  | n + 1, cumulative, r =>
    match decodeGolomb r with
    | none => []
    | some (delta, r) =>
      let cumulative := (cumulative + delta) % 2 ^ 64
      cumulative :: decodeValues n cumulative r

/-- Decodes a filter into the ascending hashes. -/
def decodeFilter (data : Bytes) (n : Nat) : List Nat :=
  if data.isEmpty ∨ n = 0 then [] else decodeValues n 0 (.new data)

/-- The range of the hashes of `n` items, a wrapping product of 64-bit integers. -/
def filterModulus (n : Nat) : Nat := n * fprInverse % 2 ^ 64

/-- The loop of `match_any` over the queries not yet passed. -/
def matchValues : (n : Nat) → (cumulative : Nat) → (queries : List Nat) → BitReader → Bool
  | 0, _, _, _ => false
  | n + 1, cumulative, queries, r =>
    if queries.isEmpty then false
    else match decodeGolomb r with
      | none => false
      | some (delta, r) =>
        let cumulative := (cumulative + delta) % 2 ^ 64
        let queries := queries.dropWhile (· < cumulative)
        if queries.head? = some cumulative then true else matchValues n cumulative queries r

variable [Primitives]

/-- An item's hash under a block's key, before it is reduced. -/
def keyedHash (blockHash item : Bytes32) : Nat :=
  ((hashConcat blockHash.toBytes item.toBytes).toBytes.take 8).foldr
    (fun b n => b.toNat + 256 * n) 0

/-- A filter over `items`, keyed with a block's hash. -/
def buildFilter (blockHash : Bytes32) (items : Finset Bytes32) : Option Bytes :=
  let n := items.card % 2 ^ 64
  if n = 0 then some []
  else if filterModulus n = 0 then none
  else
    let hashes := items.val.map fun item => keyedHash blockHash item % filterModulus n
    some (encodeValues (hashes.sort (· ≤ ·)))

/-- Whether any of the items might be in a filter. `none` where the source divides by zero. -/
def matchAny (data : Bytes) (blockHash : Bytes32) (n : Nat) (items : List Bytes32) :
    Option Bool :=
  if data.isEmpty ∨ n = 0 ∨ items.isEmpty then some false
  else if filterModulus n = 0 then none
  else
    let hashes := items.map fun item => keyedHash blockHash item % filterModulus n
    some (matchValues n 0 ((hashes.insertionSort (· ≤ ·)).destutter (· ≠ ·)) (.new data))

end Midwimble
