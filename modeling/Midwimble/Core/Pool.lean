import Midwimble.Core.Stealth
import Midwimble.Core.Types

namespace Midwimble
set_option autoImplicit true

/-- A credited share, with what its proof of work is re-checked from. -/
structure ShareRecord where
  seq : Nat
  owner : Bytes32
  weight : Nat
  jobId : Nat
  nonce : Nat
  finalHash : Bytes32
  auth : Option Bytes32
  deriving DecidableEq

/-- A node of a share tree: the weight beneath it and the range of final hashes there. -/
structure TreeNode where
  hash : Bytes32
  weight : Nat
  low : Bytes32
  high : Bytes32
  deriving DecidableEq

/-- What the mining hash of any miner's copy of a job is recomputed from. -/
structure JobProof where
  prevHeaderHash : Bytes32
  timestamp : Nat
  target : Bytes32
  stateRoot : Bytes32
  bodyMidstate : Bytes32
  coinbase : Coinbase
  registrations : Option Bytes32
  relay : Option Bytes32
  signer : Option Bytes32
  chainWeight : Nat
  payingRoot : Bytes32
  nextRoot : Bytes32
  deriving DecidableEq

structure WindowOwner where
  id : Bytes32
  weight : Nat
  sharesRoot : Bytes32
  shares : Nat
  deriving DecidableEq

/-- The shares a block pays, per owner. -/
structure Window where
  startSeq : Nat
  endSeq : Nat
  shareBits : Nat
  owners : List WindowOwner
  deriving DecidableEq

/-- `u64::checked_add`. -/
def checkedAdd (a b : Nat) : Option Nat := if a + b < 2 ^ 64 then some (a + b) else none

def addrKey (a : StealthAddress) : Bytes := a.scan.toBytes ++ a.spend.toBytes ++ a.recovery.toBytes

variable [Primitives]

def ownerOf (key : Bytes) : Bytes32 := hashDomain (Bytes.ascii "midwimble.pool.owner.v1") [key]

def jobCommitment (payingRoot nextRoot : Bytes32) : Bytes32 :=
  hashDomain (Bytes.ascii "midwimble.pool.commit.v2") [payingRoot.toBytes, nextRoot.toBytes]

/-- The coinbase `extra` of an owner's copy of a job. -/
def bindExtra (commitment owner : Bytes32) : Bytes32 :=
  hashDomain (Bytes.ascii "midwimble.pool.bind.v2") [commitment.toBytes, owner.toBytes]

namespace ShareRecord

def leaf (s : ShareRecord) : Bytes32 :=
  hashDomain (Bytes.ascii "midwimble.pool.share.v1")
    [Bytes.le 8 s.seq, s.owner.toBytes, Bytes.le 8 s.weight, Bytes.le 8 s.jobId,
      Bytes.le 8 s.nonce, s.finalHash.toBytes, [if s.auth.isSome then 1 else 0],
      (s.auth.getD 0).toBytes]

def node (s : ShareRecord) : TreeNode := ⟨s.leaf, s.weight, s.finalHash, s.finalHash⟩

end ShareRecord

namespace TreeNode

def join (left right : TreeNode) : TreeNode where
  hash := hashDomain (Bytes.ascii "midwimble.pool.share-node.v1")
    [left.hash.toBytes, Bytes.le 8 left.weight, left.low.toBytes, left.high.toBytes,
      right.hash.toBytes, Bytes.le 8 right.weight, right.low.toBytes, right.high.toBytes]
  weight := satAdd64 left.weight right.weight
  low := left.low
  high := right.high

/-- `join` as a verifier does it. -/
def joinChecked (left right : TreeNode) : Option TreeNode := do
  let _ ← checkedAdd left.weight right.weight
  if left.high < right.low then some (join left right) else none

end TreeNode

/-- The loop of `fold_share_path`: from `node`, the `i`th of the `n` on its level. -/
def foldShareUp (node : TreeNode) (i n start : Nat) (siblings : List TreeNode) :
    Option (TreeNode × Nat) :=
  if n > 1 then
    if i ^^^ 1 < n then
      match siblings with
      | [] => none
      | sibling :: rest =>
        if i % 2 = 1 then do
          let start ← checkedAdd start sibling.weight
          let node ← TreeNode.joinChecked sibling node
          foldShareUp node (i / 2) ((n + 1) / 2) start rest
        else do
          let node ← TreeNode.joinChecked node sibling
          foldShareUp node (i / 2) ((n + 1) / 2) start rest
    else foldShareUp node (i / 2) ((n + 1) / 2) start siblings
  else if siblings.isEmpty then some (node, start) else none
termination_by n

/-- The root a leaf's path leads to, and where the leaf's weight starts on its owner's span. -/
def foldSharePath (leaf : TreeNode) (index count : Nat) (path : List TreeNode) :
    Option (TreeNode × Nat) :=
  if index ≥ count then none else foldShareUp leaf index count 0 path

namespace JobProof

/-- The coinbase of an owner's copy. -/
def copyFor (p : JobProof) (owner : Bytes32) : Coinbase :=
  { p.coinbase with extra := bindExtra (jobCommitment p.payingRoot p.nextRoot) owner }

/-- The mining hash of an owner's copy, signed with `auth` if any. -/
def miningHash (p : JobProof) (owner : Bytes32) (auth : Option Bytes32) : Bytes32 :=
  let midstate := hashConcat p.bodyMidstate.toBytes (p.copyFor owner).hash.toBytes
  let midstate := hashConcat midstate.toBytes p.stateRoot.toBytes
  let midstate := match p.registrations with
    | some registrations => hashConcat midstate.toBytes registrations.toBytes
    | none => midstate
  let midstate := match p.relay with
    | some relay => hashConcat midstate.toBytes relay.toBytes
    | none => midstate
  let midstate := match auth with
    | some auth => hashConcat midstate.toBytes auth.toBytes
    | none => midstate
  computeHeaderHash
    { height := 0
      prevMidstate := 0
      postTxMidstate := midstate
      extension := ⟨0, 0⟩
      timestamp := p.timestamp
      target := p.target
      stateRoot := p.stateRoot
      prevHeaderHash := p.prevHeaderHash
      signer := auth.bind fun _ => p.signer
      chainWeight := p.chainWeight
      auxPow := none }

end JobProof

end Midwimble
