import Mathlib.Algebra.Module.Basic
import Mathlib.Data.BitVec
import Midwimble.Lib.Encoding
import Midwimble.Lib.Fallible

namespace Midwimble
set_option autoImplicit true

/-- A `[u8; 32]`. Its numeric order is the arrays' lexicographic order. -/
abbrev Bytes32 := BitVec 256

instance Bytes32.transOrd : Std.TransOrd Bytes32 := inferInstance

instance Bytes32.lawfulEqOrd : Std.LawfulEqOrd Bytes32 := inferInstance

instance Bytes32.lawfulBEq : LawfulBEq Bytes32 := inferInstance

instance Bytes32.lawfulBEqProd : LawfulBEq (Bytes32 × Nat) := inferInstance

/-- A compressed Ristretto point. -/
abbrev Point32 := Bytes32

/-- A canonically encoded scalar. -/
abbrev Scalar32 := Bytes32

/-- The thirty-two bytes of an array, first to last. -/
def Bytes32.toBytes (b : Bytes32) : Bytes := (Bytes.le 32 b.toNat).reverse

def hexDigit (n : Nat) : Char :=
  if n < 10 then Char.ofNat (48 + n) else Char.ofNat (87 + n)

/-- `hex::encode`. -/
def hexEncode (b : Bytes32) : String :=
  String.ofList (b.toBytes.flatMap fun x => [hexDigit (x.toNat / 16), hexDigit (x.toNat % 16)])

/-- Why a block's timestamp was refused. -/
inductive TimestampError where
  | tooFarInFuture (timestamp now : Nat)
  | notAfterMedian (timestamp floor : Nat)
  deriving DecidableEq

/-- An `anyhow::Error`: a message, the one typed error, or an error in context. -/
inductive Err where
  | message (text : String)
  | timestamp (e : TimestampError)
  | context (text : String) (cause : Err)
  | panic (text : String)
  deriving DecidableEq

instance : Coe String Err := ⟨.message⟩

abbrev Result (α : Type) := Except Err α

/-- The node's dependencies: BLAKE3, Ristretto255, Bulletproofs and the payload cipher, with the
laws their documentation promises of the encodings, and the machine it runs on. -/
class Primitives where
  blake3 : Bytes → Bytes32
  walk : Bytes32 → Nat → Bytes32
  Scalar : Type
  Point : Type
  [scalarRing : CommRing Scalar]
  [scalarDecidableEq : DecidableEq Scalar]
  [pointGroup : AddCommGroup Point]
  [pointDecidableEq : DecidableEq Point]
  [pointModule : Module Scalar Point]
  /-- The Ristretto basepoint. -/
  genG : Point
  /-- The blinding generator. -/
  genH : Point
  compress : Point → Point32
  decompress : Point32 → Option Point
  scalarToBytes : Scalar → Scalar32
  scalarFromBytes : Scalar32 → Option Scalar
  /-- 64 bytes of BLAKE3 output, reduced. -/
  wideScalar : Bytes → Scalar
  /-- `RangeProof::prove_multiple` over a transcript of the output count and a binding. -/
  rangeProve : Nat → Bytes32 → List Nat → List Scalar → Bytes → Option Bytes
  rangeVerify : Nat → Bytes32 → Bytes → List Point32 → Bool
  /-- XChaCha20-Poly1305 under a key and a nonce. -/
  aeadSeal : Bytes32 → Bytes → Bytes → Option Bytes
  /-- SIMD lanes and threads of the machine, which size batches of checks. -/
  lanes : Nat
  threads : Nat
  decompress_compress : ∀ p, decompress (compress p) = some p
  compress_decompress : ∀ {b p}, decompress b = some p → compress p = b
  compress_zero : compress 0 = 0
  scalarFromBytes_toBytes : ∀ s, scalarFromBytes (scalarToBytes s) = some s
  scalarToBytes_zero : scalarToBytes 0 = 0

attribute [reducible, instance] Primitives.scalarRing Primitives.scalarDecidableEq
  Primitives.pointGroup Primitives.pointDecidableEq Primitives.pointModule

export Primitives (blake3 compress decompress scalarToBytes scalarFromBytes genG genH)

/-- The first 32 bytes as a word, first byte highest. -/
def wordOf (data : Bytes) : Bytes32 :=
  BitVec.ofNat 256 ((data.take 32).foldl (fun n b => n * 256 + b.toNat) 0)

theorem wordOf_toBytes (x : Bytes32) (rest : Bytes) : wordOf (x.toBytes ++ rest) = x := by
  have ht : (x.toBytes ++ rest).take 32 = x.toBytes :=
    List.take_left' (by simp [Bytes32.toBytes])
  have hx : x.toNat % 256 ^ 32 = x.toNat := Nat.mod_eq_of_lt x.isLt
  rw [wordOf, ht, Bytes32.toBytes, List.foldl_reverse, Bytes.foldr_le, hx, BitVec.ofNat_toNat,
    BitVec.setWidth_eq]

/-- Words for points and scalars, and proofs that always verify: enough to run the model on fixed
inputs. -/
@[reducible] def Primitives.words : Primitives where
  blake3 data := if data.length = 110 then wordOf (data.drop 38) else 0
  walk _ _ := 0
  Scalar := Bytes32
  Point := Bytes32
  genG := 1 <<< 128
  genH := 1
  compress p := p
  decompress b := some b
  scalarToBytes s := s
  scalarFromBytes b := some b
  wideScalar _ := 0
  rangeProve _ _ _ _ _ := some (List.replicate 672 0)
  rangeVerify _ _ _ _ := true
  aeadSeal _ _ data := some (data ++ List.replicate 16 0)
  lanes := 1
  threads := 1
  decompress_compress _ := rfl
  compress_decompress h := (Option.some.inj h).symm
  compress_zero := rfl
  scalarFromBytes_toBytes _ := rfl
  scalarToBytes_zero := rfl

/-- Words under a hash that takes every byte in, and a walk that adds its nonce. -/
@[reducible] def Primitives.mixing : Primitives :=
  { Primitives.words with
    blake3 := fun data => BitVec.ofNat 256
      (data.foldl (fun n b => (n * 65599 + b.toNat + 1) % 2 ^ 256) data.length)
    walk := fun midstate nonce => midstate + BitVec.ofNat 256 nonce }

/-- Words under a hash that adds up the two words after a tag. -/
@[reducible] def Primitives.adding : Primitives :=
  { Primitives.words with
    blake3 := fun data => wordOf (data.drop 1) + wordOf (data.drop 33) + 1 }

/-- The encoding of the Ristretto identity point. -/
def identity : Point32 := 0

variable [Primitives]

theorem decompress_identity : decompress identity = some 0 := by
  rw [identity, ← Primitives.compress_zero, Primitives.decompress_compress]

theorem scalarFromBytes_zero : scalarFromBytes 0 = some 0 := by
  rw [← Primitives.scalarToBytes_zero, Primitives.scalarFromBytes_toBytes]

def hash (data : Bytes) : Bytes32 := blake3 data

def hashConcat (a b : Bytes) : Bytes32 := blake3 (a ++ b)

/-- What `hash_domain` feeds its hasher. -/
def domainPreimage (domain : Bytes) (parts : List Bytes) : Bytes :=
  Bytes.prefixedAll (domain :: parts)

def hashDomain (domain : Bytes) (parts : List Bytes) : Bytes32 :=
  blake3 (domainPreimage domain parts)

def hashToScalar (domain : Bytes) (parts : List Bytes) : Primitives.Scalar :=
  Primitives.wideScalar (domainPreimage domain parts)

/-- Unsigned 64-bit saturating addition. -/
def satAdd64 (a b : Nat) : Nat := min (a + b) (2 ^ 64 - 1)

end Midwimble
