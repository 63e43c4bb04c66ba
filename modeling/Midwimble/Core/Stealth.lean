import Midwimble.Core.Transaction

namespace Midwimble
set_option autoImplicit true

/-- A recipient address. -/
structure StealthAddress where
  scan : Point32
  spend : Point32
  /-- Public key that can claim this address's outputs in a recovery. -/
  recovery : Bytes32
  deriving DecidableEq

/-- A sender's proof of what an output pays, checkable with public data. -/
structure PayoutReceipt where
  outputIndex : Nat
  value : Nat
  blinding : Scalar32
  ephemeralSecret : Scalar32
  deriving DecidableEq

variable [Primitives]

/-- The randomness one output draws. -/
structure OutputDraw where
  ephemeral : Primitives.Scalar
  blinding : Primitives.Scalar
  nonce : Bytes

/-- The randomness a coinbase draws: each output's, the range proof's and the kernel's. -/
structure CoinbaseDraw where
  output : Nat → OutputDraw
  seed : Bytes
  aux : Bytes32

/-- A freshly created output with the opening its creator knows. -/
structure NewOutput where
  output : Output
  value : Nat
  blinding : Primitives.Scalar
  ephemeralSecret : Primitives.Scalar

namespace StealthAddress

/-- The scan and spend keys. -/
def points (a : StealthAddress) : Result (Primitives.Point × Primitives.Point) := do
  let scan ← Fallible.orBail (decompress a.scan) "invalid scan key"
  let spend ← Fallible.orBail (decompress a.spend) "invalid spend key"
  Fallible.bailIf (scan = 0 ∨ spend = 0) "address keys must not be the identity"
  .ok (scan, spend)

end StealthAddress

def sharedSecret (point : Primitives.Point) : Bytes32 :=
  hashDomain (Bytes.ascii "midwimble.stealth.shared.v1") [(compress point).toBytes]

def ownerTweak (t : Bytes32) : Primitives.Scalar :=
  hashToScalar (Bytes.ascii "midwimble.stealth.owner.v1") [t.toBytes]

/-- The first byte of a hash of the shared secret. -/
def viewTag (t : Bytes32) : UInt8 :=
  (hashDomain (Bytes.ascii "midwimble.stealth.view-tag.v1") [t.toBytes]).toBytes.headD 0

def recoverySalt (sharedSecret : Bytes32) : Bytes32 :=
  hashDomain (Bytes.ascii "midwimble.recovery.salt.v1") [sharedSecret.toBytes]

def recoveryCommitment (recoveryKey : Bytes32) (value : Nat) (blinding : Scalar32)
    (salt : Bytes32) : Bytes32 :=
  hashDomain (Bytes.ascii "midwimble.recovery.v1")
    [networkMagic, recoveryKey.toBytes, Bytes.le 8 value, blinding.toBytes, salt.toBytes]

/-- The nonce, then value and blinding encrypted under the shared secret. -/
def sealPayload (t : Bytes32) (value : Nat) (blinding : Primitives.Scalar) (nonce : Bytes) :
    Result Bytes := do
  let key := hashDomain (Bytes.ascii "midwimble.stealth.payload-key.v1") [t.toBytes]
  let plaintext := (Bytes.le 8 value).reverse ++ (scalarToBytes blinding).toBytes
  let ciphertext ← Fallible.orBail (Primitives.aeadSeal key nonce plaintext)
    (.panic "XChaCha20-Poly1305 encryption is infallible for this input size")
  .ok (nonce ++ ciphertext)

/-- Creates a stealth output paying `value`. -/
def newOutput («to» : StealthAddress) (value : Nat) (draw : OutputDraw) : Result NewOutput := do
  let (scan, spend) ← «to».points
  let r := draw.ephemeral
  let t := sharedSecret (r • scan)
  let payload ← sealPayload t value draw.blinding draw.nonce
  .ok
    { output :=
        { commitment := compress (commit value draw.blinding)
          ownerKey := compress (ownerTweak t • genG + spend)
          ephemeralKey := compress (r • genG)
          viewTag := viewTag t
          payload := payload
          recoveryCommitment := recoveryCommitment «to».recovery value
            (scalarToBytes draw.blinding) (recoverySalt t) }
      value := value
      blinding := draw.blinding
      ephemeralSecret := r }

/-- The outputs of a coinbase, the first at `index`. -/
def newOutputs (draw : CoinbaseDraw) : (index : Nat) → List (StealthAddress × Nat) →
    Result (List NewOutput)
  | _, [] => .ok []
  | index, («to», value) :: rest => do
    Fallible.bailIf (value = 0) "coinbase payouts must be positive"
    let created ← newOutput «to» value (draw.output index)
    let others ← newOutputs draw (index + 1) rest
    .ok (created :: others)

def payoutReceipt (index : Nat) (c : NewOutput) : PayoutReceipt :=
  ⟨index, c.value, scalarToBytes c.blinding, scalarToBytes c.ephemeralSecret⟩

/-- Whether `output` is spendable by `to` and commits to the receipt's value. -/
def PayoutReceipt.verify (receipt : PayoutReceipt) («to» : StealthAddress) (output : Output) :
    Bool :=
  match «to».points, scalarFromBytes receipt.ephemeralSecret, scalarFromBytes receipt.blinding with
  | .ok (scan, spend), some r, some blinding =>
    if compress (r • genG) ≠ output.ephemeralKey then false
    else
      let t := sharedSecret (r • scan)
      let owner := ownerTweak t • genG + spend
      compress owner = output.ownerKey ∧
        compress (commit receipt.value blinding) = output.commitment ∧
        viewTag t = output.viewTag ∧
        output.recoveryCommitment =
          recoveryCommitment «to».recovery receipt.value receipt.blinding (recoverySalt t)
  | _, _, _ => false

/-- Builds a coinbase paying `payouts`, with miner data in `extra`. -/
def buildCoinbaseWith (payouts : List (StealthAddress × Nat)) (extra : Bytes32)
    (draw : CoinbaseDraw) : Result (Coinbase × List PayoutReceipt) := do
  Fallible.bailIf payouts.isEmpty "coinbase needs at least one payout"
  let created ← newOutputs draw 0 payouts
  let blindings := created.map NewOutput.blinding
  let receipts := created.zipIdx.map fun p => payoutReceipt p.2 p.1
  let group ← OutputGroup.prove (created.map NewOutput.output) (created.map NewOutput.value)
    blindings draw.seed
  let cb : Coinbase := ⟨group, Kernel.new .coinbase 0 0 blindings.sum 0 draw.aux, extra⟩
  cb.validateStructure
  .ok (cb, receipts)

/-- Scan and spend secrets, and the public key of the recovery signatures. -/
structure WalletKeys where
  scanSecret : Primitives.Scalar
  spendSecret : Primitives.Scalar
  recoveryKey : Bytes32

def WalletKeys.address (keys : WalletKeys) : StealthAddress :=
  ⟨compress (keys.scanSecret • genG), compress (keys.spendSecret • genG), keys.recoveryKey⟩

/-- What a wallet learns about one of its outputs. -/
structure OwnedOutput where
  value : Nat
  blinding : Primitives.Scalar
  /-- Signs inputs spending this output. -/
  ownerSecret : Primitives.Scalar
  recoverySalt : Bytes32
  /-- Whether the sender built the recovery commitment correctly. -/
  recoveryOk : Bool

/-- XChaCha20-Poly1305 decryption under a key and a nonce. -/
class Decryption where
  aeadOpen : Bytes32 → Bytes → Bytes → Option Bytes

variable [Decryption]

def openPayload (t : Bytes32) (payload : Bytes) : Option (Nat × Primitives.Scalar) := do
  if payload.length ≠ payloadLen then none
  let key := hashDomain (Bytes.ascii "midwimble.stealth.payload-key.v1") [t.toBytes]
  let plaintext ← Decryption.aeadOpen key (payload.take 24) (payload.drop 24)
  if plaintext.length ≠ 8 + 32 then none
  let blinding ← scalarFromBytes (wordOf (plaintext.drop 8))
  some ((plaintext.take 8).foldl (fun n b => n * 256 + b.toNat) 0, blinding)

/-- The value, blinding, owner tweak and recovery salt of an output that pays the address. -/
def detect (scanSecret : Primitives.Scalar) (spendPublic : Point32) (output : Output) :
    Option (Nat × Primitives.Scalar × Primitives.Scalar × Bytes32) := do
  let ephemeral ← decompress output.ephemeralKey
  let t := sharedSecret (scanSecret • ephemeral)
  if viewTag t ≠ output.viewTag then none
  let (value, blinding) ← openPayload t output.payload
  if compress (commit value blinding) ≠ output.commitment then none
  let tweak := ownerTweak t
  let spend ← decompress spendPublic
  if compress (tweak • genG + spend) ≠ output.ownerKey then none
  some (value, blinding, tweak, recoverySalt t)

/-- Recognises and opens an output addressed to `keys`. -/
def scanOutput (keys : WalletKeys) (output : Output) : Option OwnedOutput := do
  let address := keys.address
  let (value, blinding, tweak, salt) ← detect keys.scanSecret address.spend output
  let ownerSecret := tweak + keys.spendSecret
  if compress (ownerSecret • genG) ≠ output.ownerKey then none
  some ⟨value, blinding, ownerSecret, salt, output.recoveryCommitment =
    recoveryCommitment address.recovery value (scalarToBytes blinding) salt⟩

end Midwimble
