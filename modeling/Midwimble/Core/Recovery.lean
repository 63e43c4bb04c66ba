import Midwimble.Core.Snapshot
import Midwimble.Core.Stealth

namespace Midwimble
set_option autoImplicit true

/-- A signature of one leaf of a Merkle tree of Winternitz keys. -/
structure MssSignature where
  leafIndex : Nat
  wotsPk : Bytes32
  wotsSig : List Bytes32
  authPath : List Bytes32
  deriving DecidableEq

/-- The generators openings are checked against. -/
structure Generators [Primitives] where
  g : Primitives.Point
  h : Primitives.Point

/-- One output being claimed. -/
structure ClaimedOutput where
  commitment : Point32
  entry : UtxoEntry
  value : Nat
  blinding : Scalar32
  salt : Bytes32
  /-- Membership of the output's leaf in the checkpoint's UTXO root. -/
  proof : UtxoProof
  deriving DecidableEq

structure RecoveryClaim where
  checkpointId : Bytes32
  recoveryKey : Bytes32
  outputs : List ClaimedOutput
  destination : Bytes32
  signature : MssSignature
  deriving DecidableEq

/-- The recovery epoch's state. -/
structure RecoveryState [Primitives] where
  checkpoint : Checkpoint
  parts : StateRootParts
  gens : Generators
  claimed : Std.ExtTreeSet Point32
  /-- Signed leaves of recovery keys. -/
  usedLeaves : List (Bytes32 × Nat)
  totalClaimed : Nat
  credited : List (Bytes32 × Nat)

/-- The sixteen 16-bit digits of a message, then the two of their checksum. -/
def wotsDigits (message : Bytes32) : List Nat :=
  let digits := (List.range 16).map fun i => message.toNat >>> (16 * (15 - i)) % 2 ^ 16
  let sum := (digits.map fun d => 65535 - d).sum
  digits ++ [sum >>> 16 % 2 ^ 16, sum % 2 ^ 16]

variable [Primitives]

def Generators.standard : Generators := ⟨genG, genH⟩

def Generators.commit (gens : Generators) (value : Nat) (blinding : Primitives.Scalar) :
    Point32 :=
  compress ((value : Primitives.Scalar) • gens.g + blinding • gens.h)

/-- Hashes each part of the signature on to its chain's end. -/
def wotsVerify (sig : List Bytes32) (message wotsPk : Bytes32) : Bool :=
  let endpoints := List.zipWith (fun x d => (fun y => hash (Bytes32.toBytes y))^[65535 - d] x) sig
    (wotsDigits message)
  hash (endpoints.flatMap Bytes32.toBytes) = wotsPk

/-- The root an authentication path leads to from a leaf. -/
def authRoot : (index : Nat) → List Bytes32 → Bytes32 → Bytes32
  | _, [], current => current
  | index, node :: path, current =>
    authRoot (index / 2) path
      (if index % 2 = 0 then hashConcat current.toBytes node.toBytes
        else hashConcat node.toBytes current.toBytes)

def MssSignature.verify (sig : MssSignature) (message masterPk : Bytes32) : Bool :=
  let length := sig.authPath.length % 2 ^ 32
  let capacity := if length < 64 then 2 ^ length else u64Max
  sig.leafIndex < capacity && wotsVerify sig.wotsSig message sig.wotsPk &&
    authRoot sig.leafIndex sig.authPath sig.wotsPk = masterPk

def claimDigest (checkpointId recoveryKey destination : Bytes32)
    (outputs : List ClaimedOutput) : Bytes32 :=
  hashDomain (Bytes.ascii "midwimble.recovery-claim.v1")
    ([networkMagic, checkpointId.toBytes, recoveryKey.toBytes, destination.toBytes] ++
      outputs.flatMap fun o => [o.commitment.toBytes, Bytes.le 8 o.value])

def RecoveryClaim.digest (c : RecoveryClaim) : Bytes32 :=
  claimDigest c.checkpointId c.recoveryKey c.destination c.outputs

namespace RecoveryState

/-- Starts recovery from an anchored checkpoint, whose state root is the parts'. -/
def activate (checkpoint : Checkpoint) (parts : StateRootParts) (gens : Generators) :
    Result RecoveryState := do
  Fallible.bailIf (parts.root ≠ checkpoint.mwStateRoot)
    "state-root parts do not match the checkpoint"
  .ok ⟨checkpoint, parts, gens, ∅, [], 0, []⟩

/-- Checks one output of a claim, adding its commitment to those seen and its value to the total. -/
def checkOutput (s : RecoveryState) (recoveryKey : Bytes32) (acc : List Point32 × Nat)
    (o : ClaimedOutput) : Result (List Point32 × Nat) := do
  Fallible.bailIf (o.commitment ∈ acc.1 ∨ o.commitment ∈ s.claimed)
    s!"output {hexEncode o.commitment} is already claimed"
  let leaf := utxoLeaf o.commitment o.entry
  Fallible.bailIf (!verifyUtxoProof leaf o.proof s.parts.utxoRoot true)
    s!"output {hexEncode o.commitment} is not in the checkpoint's UTXO set"
  Fallible.bailIf
    (o.entry.recoveryCommitment ≠ recoveryCommitment recoveryKey o.value o.blinding o.salt)
    s!"recovery commitment mismatch for output {hexEncode o.commitment}"
  let blinding ← Fallible.orBail (scalarFromBytes o.blinding) "non-canonical blinding"
  Fallible.bailIf (s.gens.commit o.value blinding ≠ o.commitment)
    s!"revealed opening does not match output {hexEncode o.commitment}"
  let total ← Fallible.orBail (checkedAdd64 acc.2 o.value) "value overflow"
  .ok (acc.1 ++ [o.commitment], total)

/-- What a claim is worth and what will have been claimed with it. -/
def check (s : RecoveryState) (claim : RecoveryClaim) : Result (Nat × Nat) := do
  Fallible.bailIf (claim.checkpointId ≠ s.checkpoint.id) "claim is for a different checkpoint"
  Fallible.bailIf claim.outputs.isEmpty "claim has no outputs"
  Fallible.bailIf ((claim.recoveryKey, claim.signature.leafIndex) ∈ s.usedLeaves)
    s!"recovery key leaf {claim.signature.leafIndex} was already used"
  let (_, total) ← claim.outputs.foldlM (s.checkOutput claim.recoveryKey) ([], 0)
  let newTotal ← Fallible.orBail (checkedAdd64 s.totalClaimed total) "value overflow"
  Fallible.bailIf (newTotal > s.parts.supply) "claims would exceed the checkpoint's supply"
  Fallible.bailIf (!claim.signature.verify claim.digest claim.recoveryKey)
    "invalid recovery signature"
  .ok (total, newTotal)

/-- Validates and applies a claim, returning the value credited. -/
def apply (s : RecoveryState) (claim : RecoveryClaim) : RecoveryState × Result Nat :=
  match s.check claim with
  | .error e => (s, .error e)
  | .ok (total, newTotal) =>
    ({ s with
        usedLeaves := (claim.recoveryKey, claim.signature.leafIndex) :: s.usedLeaves
        claimed := claim.outputs.foldl (fun m o => m.insert o.commitment) s.claimed
        totalClaimed := newTotal
        credited := s.credited ++ [(claim.destination, total)] }, .ok total)

/-- The state after the claims are tried in order. -/
def applyAll (s : RecoveryState) (claims : List RecoveryClaim) : RecoveryState :=
  claims.foldl (fun s claim => (s.apply claim).1) s

/-- The claims that succeed when they are tried in order. -/
def accepted (s : RecoveryState) : List RecoveryClaim → List RecoveryClaim
  | [] => []
  | claim :: claims =>
    match (s.apply claim).2 with
    | .ok _ => claim :: (s.apply claim).1.accepted claims
    | .error _ => (s.apply claim).1.accepted claims

end RecoveryState

end Midwimble
