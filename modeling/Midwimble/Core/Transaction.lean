import Mathlib.Data.List.Sort
import Mathlib.Algebra.BigOperators.Group.List.Basic
import Midwimble.Core.Emission

namespace Midwimble
set_option autoImplicit true

/-- Largest number of outputs one aggregated range proof may cover. -/
def maxGroupOutputs : Nat := 32

def rangeBits : Nat := 64

/-- `usize::next_power_of_two`. -/
def nextPowerOfTwo (n : Nat) : Nat := if n ≤ 1 then 1 else 2 ^ (Nat.log2 (n - 1) + 1)

/-- Serialized length of an aggregated proof over `n` values. -/
def rangeProofLen (n : Nat) : Nat :=
  let m := nextPowerOfTwo (max n 1)
  (9 + 2 * Nat.log2 (rangeBits * m)) * 32

/-- Exact payload size: nonce, value and blinding, tag. -/
def payloadLen : Nat := 24 + (8 + 32) + 16

structure SchnorrSig where
  e : Scalar32
  s : Scalar32
  deriving DecidableEq

structure KernelSig where
  c : Scalar32
  s1 : Scalar32
  s2 : Scalar32
  deriving DecidableEq

structure Output where
  /-- Pedersen commitment `v•G + r•H`. -/
  commitment : Point32
  ownerKey : Point32
  ephemeralKey : Point32
  viewTag : UInt8
  payload : Bytes
  recoveryCommitment : Bytes32
  deriving DecidableEq

structure OutputGroup where
  outputs : List Output
  rangeProof : Bytes
  deriving DecidableEq

structure Input where
  commitment : Point32
  ownerKey : Point32
  signature : SchnorrSig
  deriving DecidableEq

inductive KernelFeatures where
  | plain
  | coinbase
  deriving DecidableEq

structure Kernel where
  features : KernelFeatures
  fee : Nat
  minHeight : Nat
  /-- `E = e•H`. -/
  excess : Point32
  /-- `E' = e'•G`; the identity for coinbase kernels. -/
  ownerExcess : Point32
  signature : KernelSig
  deriving DecidableEq

structure TxBody where
  inputs : List Input
  outputs : List OutputGroup
  kernels : List Kernel
  deriving DecidableEq

/-- Where a transaction is being validated. -/
inductive Context where
  | relay
  | block
  deriving DecidableEq

structure Transaction where
  body : TxBody
  kernelOffset : Scalar32
  ownerOffset : Scalar32
  deriving DecidableEq

/-- Block reward outputs and their kernel. -/
structure Coinbase where
  outputs : OutputGroup
  kernel : Kernel
  extra : Bytes32
  deriving DecidableEq

/-- A member of a stored output group. -/
inductive GroupMember where
  | unspent (output : Output)
  | spent (commitment : Point32) (metadataHash : Bytes32)
  deriving DecidableEq

/-- An output group as a pruning node stores it. -/
structure StoredGroup where
  rangeProof : Bytes
  members : List GroupMember
  deriving DecidableEq

/-- The bincode form of a sequence. -/
def encodeList (encode : α → Bytes) (xs : List α) : Bytes :=
  Bytes.le 8 xs.length ++ xs.flatMap encode

namespace SchnorrSig

def encode (s : SchnorrSig) : Bytes := s.e.toBytes ++ s.s.toBytes

end SchnorrSig

def Output.encode (o : Output) : Bytes :=
  o.commitment.toBytes ++ o.ownerKey.toBytes ++ o.ephemeralKey.toBytes ++ [o.viewTag] ++
    encodeList (fun b => [b]) o.payload ++ o.recoveryCommitment.toBytes

def OutputGroup.encode (g : OutputGroup) : Bytes :=
  encodeList Output.encode g.outputs ++ encodeList (fun b => [b]) g.rangeProof

def Input.encode (i : Input) : Bytes :=
  i.commitment.toBytes ++ i.ownerKey.toBytes ++ i.signature.encode

def KernelFeatures.tag : KernelFeatures → UInt8
  | .plain => 0
  | .coinbase => 1

def Kernel.encode (k : Kernel) : Bytes :=
  Bytes.le 4 k.features.tag.toNat ++ Bytes.le 8 k.fee ++ Bytes.le 8 k.minHeight ++
    k.excess.toBytes ++ k.ownerExcess.toBytes ++ k.signature.c.toBytes ++
    k.signature.s1.toBytes ++ k.signature.s2.toBytes

def Transaction.encode (t : Transaction) : Bytes :=
  encodeList Input.encode t.body.inputs ++ encodeList OutputGroup.encode t.body.outputs ++
    encodeList Kernel.encode t.body.kernels ++ t.kernelOffset.toBytes ++ t.ownerOffset.toBytes

def Coinbase.encode (c : Coinbase) : Bytes :=
  c.outputs.encode ++ c.kernel.encode ++ c.extra.toBytes

variable [Primitives]

/-- Whether an encoding decodes to a point other than the identity. -/
def isNonIdentity (b : Point32) : Bool :=
  match decompress b with
  | some p => p ≠ 0
  | none => false

/-- `v•G + r•H`. -/
def commit (value : Nat) (blinding : Primitives.Scalar) : Primitives.Point :=
  (value : Primitives.Scalar) • genG + blinding • genH

/-- Sums a list of compressed points, failing on any invalid encoding. -/
def sumPoints (points : List Point32) : Result Primitives.Point :=
  points.foldlM (fun acc p => do
    let pt ← Fallible.orBail (decompress p) s!"invalid point encoding {hexEncode p}"
    .ok (acc + pt)) 0

/-- Verifies an aggregated range proof over these commitments, padded with identities. -/
def verifyRange (proofBytes : Bytes) (commitments : List Point32) (binding : Bytes32) : Bool :=
  let n := commitments.length
  if n = 0 ∨ n > maxGroupOutputs ∨ proofBytes.length ≠ rangeProofLen n then false
  else
    Primitives.rangeVerify n binding proofBytes
      (commitments ++ List.replicate (nextPowerOfTwo n - n) identity)

/-- Proves each value in range. `seed` is the prover's randomness. -/
def proveRange (values : List Nat) (blindings : List Primitives.Scalar) (binding : Bytes32)
    (seed : Bytes) : Result Bytes := do
  let n := values.length
  Fallible.bailIf (n = 0 ∨ n > maxGroupOutputs)
    s!"range proof must cover 1..={maxGroupOutputs} values, got {n}"
  Fallible.bailIf (blindings.length ≠ n) s!"{n} values but {blindings.length} blindings"
  let m := nextPowerOfTwo n
  Fallible.orBail (Primitives.rangeProve n binding (values ++ List.replicate (m - n) 0)
    (blindings ++ List.replicate (m - n) 0) seed) "range proof generation failed"

def schnorrChallenge (publicKey r : Point32) (msg : Bytes32) : Primitives.Scalar :=
  hashToScalar (Bytes.ascii "midwimble.schnorr.challenge.v1")
    [publicKey.toBytes, r.toBytes, msg.toBytes]

/-- Signs `msg`. `aux` is the nonce's fresh randomness. -/
def schnorrSign (secret : Primitives.Scalar) (msg aux : Bytes32) : SchnorrSig :=
  let publicKey := compress (secret • genG)
  let k := hashToScalar (Bytes.ascii "midwimble.schnorr.nonce.v1")
    [(scalarToBytes secret).toBytes, publicKey.toBytes, msg.toBytes, aux.toBytes]
  let r := compress (k • genG)
  let e := schnorrChallenge publicKey r msg
  ⟨scalarToBytes e, scalarToBytes (k + e * secret)⟩

def schnorrVerify (publicKey : Point32) (msg : Bytes32) (sig : SchnorrSig) : Bool :=
  match decompress publicKey, scalarFromBytes sig.e, scalarFromBytes sig.s with
  | some p, some e, some s =>
    if p = 0 then false
    else schnorrChallenge publicKey (compress (s • genG - e • p)) msg = e
  | _, _, _ => false

def kernelChallenge (excess ownerExcess r1 r2 : Point32) (msg : Bytes32) : Primitives.Scalar :=
  hashToScalar (Bytes.ascii "midwimble.kernel.challenge.v1")
    [excess.toBytes, ownerExcess.toBytes, r1.toBytes, r2.toBytes, msg.toBytes]

/-- Proves knowledge of both excess keys. `aux` is the nonces' fresh randomness. -/
def kernelSign (excessSecret ownerSecret : Primitives.Scalar) (excess ownerExcess : Point32)
    (msg aux : Bytes32) : KernelSig :=
  let nonce (side : String) := hashToScalar (Bytes.ascii "midwimble.kernel.nonce.v1")
    [Bytes.ascii side, (scalarToBytes excessSecret).toBytes,
      (scalarToBytes ownerSecret).toBytes, msg.toBytes, aux.toBytes]
  let k1 := nonce "H"
  let k2 := nonce "G"
  let c := kernelChallenge excess ownerExcess (compress (k1 • genH)) (compress (k2 • genG)) msg
  ⟨scalarToBytes c, scalarToBytes (k1 + c * excessSecret), scalarToBytes (k2 + c * ownerSecret)⟩

def kernelVerify (excess ownerExcess : Point32) (msg : Bytes32) (sig : KernelSig) : Bool :=
  match decompress excess, decompress ownerExcess, scalarFromBytes sig.c,
    scalarFromBytes sig.s1, scalarFromBytes sig.s2 with
  | some ePt, some oPt, some c, some s1, some s2 =>
    kernelChallenge excess ownerExcess (compress (s1 • genH - c • ePt))
      (compress (s2 • genG - c • oPt)) msg = c
  | _, _, _, _, _ => false

namespace Output

/-- Hash of every field that the range proof does not bind by itself. -/
def metadataHash (o : Output) : Bytes32 :=
  hashDomain (Bytes.ascii "midwimble.output.metadata.v1")
    [o.ownerKey.toBytes, o.ephemeralKey.toBytes, [o.viewTag], o.payload,
      o.recoveryCommitment.toBytes]

def checkEncoding (o : Output) : Result Unit := do
  Fallible.bailIf (!isNonIdentity o.commitment)
    "output commitment is not a valid non-identity point"
  Fallible.bailIf (!isNonIdentity o.ownerKey)
    "output owner key is not a valid non-identity point"
  Fallible.bailIf (decompress o.ephemeralKey).isNone "output ephemeral key is not a valid point"
  Fallible.bailIf (o.payload.length ≠ payloadLen)
    s!"output payload must be {payloadLen} bytes, got {o.payload.length}"

end Output

namespace OutputGroup

/-- The transcript binding, from members' metadata hashes alone. -/
def bindingForHashes (hashes : List Bytes32) : Bytes32 :=
  hashDomain (Bytes.ascii "midwimble.output.group.v1")
    (networkMagic :: Bytes.le 8 hashes.length :: hashes.map Bytes32.toBytes)

def bindingFor (outputs : List Output) : Bytes32 :=
  bindingForHashes (outputs.map Output.metadataHash)

/-- Builds the group and proves it. -/
def prove (outputs : List Output) (values : List Nat) (blindings : List Primitives.Scalar)
    (seed : Bytes) : Result OutputGroup := do
  Fallible.bailIf (outputs.length ≠ values.length)
    s!"{outputs.length} outputs but {values.length} values"
  let rangeProof ← proveRange values blindings (bindingFor outputs) seed
  .ok ⟨outputs, rangeProof⟩

def commitments (g : OutputGroup) : List Point32 := g.outputs.map Output.commitment

def sortKey (g : OutputGroup) : Point32 :=
  (g.outputs.head?.map Output.commitment).getD identity

def verifyRangeProof (g : OutputGroup) : Bool :=
  verifyRange g.rangeProof g.commitments (bindingFor g.outputs)

def checkStructure (g : OutputGroup) : Result Unit := do
  let n := g.outputs.length
  Fallible.bailIf (n = 0 ∨ n > maxGroupOutputs)
    s!"output group must hold 1..={maxGroupOutputs} outputs, got {n}"
  Fallible.bailIf (g.rangeProof.length ≠ rangeProofLen n)
    s!"range proof for {n} outputs must be {rangeProofLen n} bytes"
  Fallible.checkAll Output.checkEncoding g.outputs

end OutputGroup

namespace GroupMember

def commitment : GroupMember → Point32
  | unspent o => o.commitment
  | spent c _ => c

def metadataHash : GroupMember → Bytes32
  | unspent o => o.metadataHash
  | spent _ m => m

def isSpent : GroupMember → Bool
  | unspent _ => false
  | spent _ _ => true

end GroupMember

namespace StoredGroup

def fromGroup (g : OutputGroup) : StoredGroup := ⟨g.rangeProof, g.outputs.map .unspent⟩

/-- Stable while members are pruned: hashes the proof and all commitments. -/
def id (g : StoredGroup) : Bytes32 :=
  hashDomain (Bytes.ascii "midwimble.output-group.id.v1")
    (g.rangeProof :: g.members.map fun m => m.commitment.toBytes)

/-- Marks member `index` spent. Fails if it is not an unspent member. -/
def spend (g : StoredGroup) (index : Nat) : Result StoredGroup :=
  match g.members[index]? with
  | some (.unspent o) =>
    .ok ⟨g.rangeProof, g.members.set index (.spent o.commitment o.metadataHash)⟩
  | _ => .error s!"group member {index} is not unspent"

def isFullySpent (g : StoredGroup) : Bool := g.members.all GroupMember.isSpent

def verify (g : StoredGroup) : Bool :=
  let n := g.members.length
  if n = 0 ∨ n > maxGroupOutputs ∨ g.rangeProof.length ≠ rangeProofLen n then false
  else if g.members.any (fun m => match m with
      | .unspent o => !decide (o.checkEncoding = .ok ())
      | .spent _ _ => false) then false
  else
    verifyRange g.rangeProof (g.members.map GroupMember.commitment)
      (OutputGroup.bindingForHashes (g.members.map GroupMember.metadataHash))

/-- The outputs of unspent members. -/
def unspent (g : StoredGroup) : List Output :=
  g.members.filterMap fun m => match m with
    | .unspent o => some o
    | .spent _ _ => none

end StoredGroup

namespace Input

/-- Binds the signature to the specific output. -/
def message (commitment ownerKey : Point32) : Bytes32 :=
  hashDomain (Bytes.ascii "midwimble.input.v1")
    [networkMagic, commitment.toBytes, ownerKey.toBytes]

def verifySignature (i : Input) : Bool :=
  schnorrVerify i.ownerKey (message i.commitment i.ownerKey) i.signature

end Input

namespace Kernel

def message (features : KernelFeatures) (fee minHeight : Nat) : Bytes32 :=
  hashDomain (Bytes.ascii "midwimble.kernel.v1")
    [networkMagic, [features.tag], Bytes.le 8 fee, Bytes.le 8 minHeight]

/-- Consensus identifier; unique across the whole chain. -/
def id (k : Kernel) : Bytes32 :=
  hashDomain (Bytes.ascii "midwimble.kernel.id.v1") [k.excess.toBytes, k.ownerExcess.toBytes]

def new (features : KernelFeatures) (fee minHeight : Nat)
    (excessSecret ownerSecret : Primitives.Scalar) (aux : Bytes32) : Kernel :=
  let excess := compress (excessSecret • genH)
  let ownerExcess := compress (ownerSecret • genG)
  let msg := message features fee minHeight
  ⟨features, fee, minHeight, excess, ownerExcess,
    kernelSign excessSecret ownerSecret excess ownerExcess msg aux⟩

def verifySignature (k : Kernel) : Bool :=
  kernelVerify k.excess k.ownerExcess (message k.features k.fee k.minHeight) k.signature

def checkRules (k : Kernel) : Result Unit := do
  Fallible.bailIf (!isNonIdentity k.excess) "kernel excess is not a valid non-identity point"
  Fallible.bailIf (decompress k.ownerExcess).isNone "kernel owner excess is not a valid point"
  match k.features with
  | .plain =>
    -- An identity owner excess would publish the owner secrets' sum.
    Fallible.bailIf (k.ownerExcess = identity)
      "plain kernel must carry a non-identity owner excess"
  | .coinbase =>
    Fallible.bailIf (k.ownerExcess ≠ identity ∨ k.fee ≠ 0 ∨ k.minHeight ≠ 0)
      "coinbase kernel must have zero fee, zero min_height and no owner excess"

end Kernel

/-- The uniqueness loop over outputs: no commitment and no owner key twice. -/
def checkUnique : (commitments ownerKeys : List Point32) → List Output → Result Unit
  | _, _, [] => .ok ()
  | commitments, ownerKeys, o :: rest => do
    Fallible.bailIf (o.commitment ∈ commitments)
      s!"duplicate output commitment {hexEncode o.commitment}"
    Fallible.bailIf (o.ownerKey ∈ ownerKeys) "duplicate output owner key"
    checkUnique (o.commitment :: commitments) (o.ownerKey :: ownerKeys) rest

namespace Transaction

def empty : Transaction := ⟨⟨[], [], []⟩, 0, 0⟩

def isEmpty (t : Transaction) : Bool :=
  t.body.inputs.isEmpty && t.body.outputs.isEmpty && t.body.kernels.isEmpty

def outputs (t : Transaction) : List Output := t.body.outputs.flatMap OutputGroup.outputs

def outputCount (t : Transaction) : Nat :=
  (t.body.outputs.map fun g => g.outputs.length).sum

def inputCommitments (t : Transaction) : List Point32 := t.body.inputs.map Input.commitment

def outputCommitments (t : Transaction) : List Point32 := t.outputs.map Output.commitment

def kernelIds (t : Transaction) : List Bytes32 := t.body.kernels.map Kernel.id

def fee (t : Transaction) : Result Nat :=
  t.body.kernels.foldlM (fun acc k =>
    if acc + k.fee > 2 ^ 64 - 1 then .error "fee overflow" else .ok (acc + k.fee)) 0

/-- The earliest block that may include this transaction. -/
def lockHeight (t : Transaction) : Nat := (t.body.kernels.map Kernel.minHeight).foldl max 0

def weight (t : Transaction) : Nat :=
  t.body.inputs.length * inputWeight + t.outputCount * outputWeight +
    t.body.kernels.length * kernelWeight

/-- Stable identifier over the full serialization. -/
def hash (t : Transaction) : Bytes32 :=
  hashDomain (Bytes.ascii "midwimble.tx.v1") [t.encode]

/-- The size limits of the place a transaction is validated for. -/
def checkSize (t : Transaction) (ctx : Context) : Result Unit :=
  match ctx with
  | .relay => do
    Fallible.bailIf (t.body.inputs.isEmpty ∨ t.body.outputs.isEmpty ∨ t.body.kernels.isEmpty)
      "transaction needs at least one input, output and kernel"
    Fallible.bailIf (t.weight > maxTxWeight)
      s!"transaction weight {t.weight} exceeds {maxTxWeight}"
  | .block =>
    Fallible.bailIf (t.weight > maxBlockWeight)
      s!"block body weight {t.weight} exceeds {maxBlockWeight}"

/-- Cheap checks: counts, encodings, ordering, uniqueness, kernel rules. -/
def validateStructure (t : Transaction) (ctx : Context) : Result Unit := do
  let b := t.body
  t.checkSize ctx
  Fallible.bailIf (b.kernels.isEmpty ∧ ¬ (b.inputs.isEmpty ∧ b.outputs.isEmpty))
    "inputs or outputs without any kernel"
  Fallible.bailIf ((scalarFromBytes t.kernelOffset).isNone ∨
    (scalarFromBytes t.ownerOffset).isNone) "offsets must be canonical scalars"
  Fallible.bailIf (¬ t.inputCommitments.IsChain (· < ·))
    "inputs must be strictly ascending by commitment"
  Fallible.bailIf (¬ (b.outputs.map OutputGroup.sortKey).IsChain (· < ·))
    "output groups must be strictly ascending by first commitment"
  Fallible.checkAll OutputGroup.checkStructure b.outputs
  checkUnique [] [] t.outputs
  Fallible.bailIf (b.inputs.any fun i => i.commitment ∈ t.outputCommitments)
    "input spends an output created in the same body"
  Fallible.bailIf (¬ t.kernelIds.IsChain (· < ·)) "kernels must be strictly ascending by id"
  Fallible.checkAll (fun k => do
    Fallible.bailIf (k.features ≠ .plain) "only plain kernels are allowed in a transaction body"
    k.checkRules) b.kernels

/-- Both balance equations. No signature or proof checks. -/
def verifySums (t : Transaction) : Result Unit := do
  let offset ← Fallible.orBail (scalarFromBytes t.kernelOffset) "bad kernel offset"
  let ownerOffset ← Fallible.orBail (scalarFromBytes t.ownerOffset) "bad owner offset"
  let fee ← t.fee
  let outputs ← sumPoints t.outputCommitments
  let inputs ← sumPoints t.inputCommitments
  let excesses ← sumPoints (t.body.kernels.map Kernel.excess)
  Fallible.bailIf (outputs - inputs + (fee : Primitives.Scalar) • genG ≠
    excesses + offset • genH) "Pedersen balance check failed"
  let ownerIn ← sumPoints (t.body.inputs.map Input.ownerKey)
  let ownerExcesses ← sumPoints (t.body.kernels.map Kernel.ownerExcess)
  Fallible.bailIf (ownerIn ≠ ownerExcesses + ownerOffset • genG) "owner sum check failed"

/-- Range proofs, input signatures and kernel signatures. -/
def verifyCrypto (t : Transaction) : Result Unit := do
  Fallible.bailIf (!t.body.outputs.all OutputGroup.verifyRangeProof) "invalid range proof"
  Fallible.bailIf (!t.body.inputs.all Input.verifySignature)
    "invalid input ownership signature"
  Fallible.bailIf (!t.body.kernels.all Kernel.verifySignature) "invalid kernel signature"

/-- The sums of both offsets over the transactions. -/
def sumOffsets (txs : List Transaction) : Result (Primitives.Scalar × Primitives.Scalar) :=
  txs.foldlM (fun acc t => do
    let o ← Fallible.orBail (scalarFromBytes t.kernelOffset) "bad kernel offset"
    let x ← Fallible.orBail (scalarFromBytes t.ownerOffset) "bad owner offset"
    .ok (acc.1 + o, acc.2 + x)) (0, 0)

/-- Merges transactions into one: offsets add, lists merge in canonical order. -/
def aggregate (txs : List Transaction) : Result Transaction := do
  let (offset, ownerOffset) ← sumOffsets txs
  let inputs := (txs.flatMap fun t => t.body.inputs).insertionSort
    (fun a b => a.commitment ≤ b.commitment)
  Fallible.bailIf (¬ (inputs.map Input.commitment).IsChain (· ≠ ·))
    "aggregate would double-spend an input"
  let outputs := (txs.flatMap fun t => t.body.outputs).insertionSort
    (fun a b => a.sortKey ≤ b.sortKey)
  let kernels := (txs.flatMap fun t => t.body.kernels).insertionSort (fun a b => a.id ≤ b.id)
  Fallible.bailIf (¬ (kernels.map Kernel.id).IsChain (· ≠ ·))
    "aggregate would duplicate a kernel"
  let agg : Transaction :=
    ⟨⟨inputs, outputs, kernels⟩, scalarToBytes offset, scalarToBytes ownerOffset⟩
  agg.validateStructure .block
  .ok agg

end Transaction

/-- The uniqueness loop over coinbase outputs. -/
def checkCoinbaseUnique : (commitments ownerKeys : List Point32) → List Output → Result Unit
  | _, _, [] => .ok ()
  | commitments, ownerKeys, o :: rest => do
    Fallible.bailIf (o.commitment ∈ commitments ∨ o.ownerKey ∈ ownerKeys)
      "duplicate coinbase output"
    checkCoinbaseUnique (o.commitment :: commitments) (o.ownerKey :: ownerKeys) rest

namespace Coinbase

def weight (c : Coinbase) : Nat := c.outputs.outputs.length * outputWeight + kernelWeight

def hash (c : Coinbase) : Bytes32 :=
  hashDomain (Bytes.ascii "midwimble.coinbase.v1") [c.encode]

def validateStructure (c : Coinbase) : Result Unit := do
  c.outputs.checkStructure
  checkCoinbaseUnique [] [] c.outputs.outputs
  Fallible.bailIf (c.kernel.features ≠ .coinbase) "coinbase must carry a coinbase kernel"
  c.kernel.checkRules

def verifySum (c : Coinbase) (amount : Nat) : Result Unit := do
  let outputs ← sumPoints c.outputs.commitments
  let excess ← Fallible.orBail (decompress c.kernel.excess) "bad coinbase excess"
  Fallible.bailIf (outputs - (amount : Primitives.Scalar) • genG ≠ excess)
    s!"coinbase does not pay exactly {amount}"

def verifyCrypto (c : Coinbase) : Result Unit := do
  Fallible.bailIf (!c.outputs.verifyRangeProof) "invalid coinbase range proof"
  Fallible.bailIf (!c.kernel.verifySignature) "invalid coinbase kernel signature"

end Coinbase

end Midwimble
