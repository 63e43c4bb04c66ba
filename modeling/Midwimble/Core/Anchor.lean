import Mathlib.Data.Finset.Basic
import Midwimble.Core.Finality
import Midwimble.Core.Relay

namespace Midwimble
set_option autoImplicit true

inductive AnchoredItem
  /-- A midstate commit whose commitment is a checkpoint id. -/
  | commit
  /-- A midstate coinbase output whose salt merge-commits to a midwimble header. -/
  | mergeMined (address : Bytes32) (value : Nat)
  deriving DecidableEq

/-- A 32-byte item folded into a midstate block's mining hash, and the headers after it. -/
structure MidstateInclusion where
  midstateHeight : Nat
  kind : AnchoredItem
  preItemMidstate : Bytes32
  itemsAfter : List Bytes32
  prevHeaderHash : Bytes32
  block : HeaderLink
  confirmations : List HeaderLink

/-- A checkpoint with the evidence that midstate recorded it. -/
structure EvidencedRecord extends AnchorRecord where
  checkpointId : String
  evidence : Option MidstateInclusion
  mwHeader : Option BatchHeader

structure AnchorConfig extends FinalityConfig where
  /-- Midstate blocks required, the anchor block included. -/
  anchorDepth : Nat
  minWork : Nat

inductive RecordFault
  /-- Weaker than this node's policy asks, or for another network. -/
  | policy (e : Err)
  | invalid (e : Err)
  deriving DecidableEq

variable [Primitives]

def AnchoredItem.foldItem (kind : AnchoredItem) (payload : Bytes32) : Bytes32 :=
  match kind with
  | .commit => payload
  | .mergeMined address value => midstateCoinId address value (mergeCommitment payload)

def linkDomain : PowAlgo → String
  | .blake3Chain => "midwimble.checked-midstate-header.v1"
  | .walk => "midwimble.checked-midstate-header.walk.v1"

/-- Identifies a midstate header whose proof of work was checked under `algo`. -/
def linkKey (miningHash : Bytes32) (link : HeaderLink) (algo : PowAlgo) : Bytes32 :=
  hashDomain (Bytes.ascii (linkDomain algo))
    [miningHash.toBytes, Bytes.le 8 link.nonce, link.finalHash.toBytes]

namespace MidstateInclusion

def links (m : MidstateInclusion) : List HeaderLink := m.block :: m.confirmations

/-- The cheap half: enough confirmations, each claiming enough work. -/
def checkPolicy (m : MidstateInclusion) (depth minWork : Nat) : Result Unit := do
  Fallible.bailIf (m.confirmations.length + 1 < depth)
    s!"anchor has {m.confirmations.length + 1} confirmation(s), {depth} required"
  match m.links.findIdx? fun l => calculateWork l.target < minWork with
  | some i => .error s!"Midstate header {i} of the anchor evidence claims too little work"
  | none => .ok ()

/-- The keys of a run of headers from the `i`th on, and the jobs `known` does not spare, each
with its header's place. -/
def gather (known : Bytes32 → Bool) (midstateHeight : Nat) :
    (i : Nat) → (prev : Bytes32) → List HeaderLink →
      Result (List Bytes32 × List (PowJob × Nat))
  | _, _, [] => .ok ([], [])
  | i, prev, link :: rest => do
    Fallible.bailIf (link.finalHash ≥ link.target)
      s!"Midstate header {i} of the anchor evidence misses its own target"
    let algo := midstatePowAlgoAt (satAdd64 midstateHeight i)
    let mining := linkMiningHash prev link
    let key := linkKey mining link algo
    let (keys, jobs) ← gather known midstateHeight (i + 1) link.finalHash rest
    .ok (key :: keys,
      if known key then jobs else (⟨algo, mining, link.nonce, link.finalHash⟩, i) :: jobs)

/-- The anchor block's post-transaction midstate, from the fold. -/
def foldedMidstate (m : MidstateInclusion) (payload : Bytes32) : Bytes32 :=
  let x := hashConcat m.preItemMidstate.toBytes (m.kind.foldItem payload).toBytes
  let x := m.itemsAfter.foldl (fun x item => hashConcat x.toBytes item.toBytes) x
  if m.block.stateRoot ≠ 0 then hashConcat x.toBytes m.block.stateRoot.toBytes else x

/-- The half that proves the evidence genuine, without the proofs of work `known` recognises. -/
def verifyProofsWith (m : MidstateInclusion) (payload : Bytes32) (known : Bytes32 → Bool) :
    Result (List Bytes32) := do
  Fallible.bailIf (m.foldedMidstate payload ≠ m.block.postTxMidstate)
    "the anchored item does not fold into the Midstate block"
  let (keys, jobs) ← gather known m.midstateHeight 0 m.prevHeaderHash m.links
  match checkPowJobs (jobs.map Prod.fst) with
  | .ok () => .ok keys
  | .error (.bad j) =>
    .error s!"Midstate header {(jobs.map Prod.snd).getD j 0} of the anchor evidence fails its proof of work"
  | .error .abandoned => .error "anchor verification abandoned"

/-- Drops confirmations beyond the depth a verifier asks for. -/
def trim (m : MidstateInclusion) (depth : Nat) : MidstateInclusion :=
  { m with confirmations := m.confirmations.take (depth - 1) }

end MidstateInclusion

namespace EvidencedRecord

/-- What the evidence is about: the checkpoint's id, or its header's mining hash. -/
def payload (r : EvidencedRecord) (kind : AnchoredItem) : Result Bytes32 :=
  match kind, r.mwHeader with
  | .commit, _ => .ok r.checkpoint.id
  | .mergeMined _ _, some h => do
    Fallible.bailIf (h.height + 1 ≠ r.checkpoint.mwHeight ∨
        h.extension.finalHash ≠ r.checkpoint.mwHeaderHash ∨
        h.stateRoot ≠ r.checkpoint.mwStateRoot)
      "carried header does not match the checkpoint"
    .ok (computeHeaderHash h)
  | .mergeMined _ _, none => .error "merged-mining record without its header"

/-- The checkpoint id, the header and the evidence, without the proofs of work `known`
recognises. -/
def verifyStandaloneWith (r : EvidencedRecord) (depth minWork : Nat)
    (known : Bytes32 → Bool) : Result (List Bytes32) := do
  Fallible.bailIf (hexEncode r.checkpoint.id ≠ r.checkpointId)
    "stored id does not match the checkpoint"
  let evidence ← Fallible.orBail r.evidence (.message "no Midstate evidence")
  let payload ← r.payload evidence.kind
  evidence.checkPolicy depth minWork
  evidence.verifyProofsWith payload known

def verifyStandalone (r : EvidencedRecord) (depth minWork : Nat) : Result Unit :=
  (r.verifyStandaloneWith depth minWork fun _ => false) >>= fun _ => .ok ()

/-- The cheap checks on a record. Gives it back with its evidence trimmed. -/
def precheck (r : EvidencedRecord) (cfg : AnchorConfig) : Except RecordFault EvidencedRecord :=
  if r.checkpoint.network ≠ networkAnchor then
    .error (.policy "anchor for another network")
  else if hexEncode r.checkpoint.id ≠ r.checkpointId then
    .error (.invalid "stored id does not match the checkpoint")
  else match r.evidence with
    | none => .error (.policy "no Midstate evidence")
    | some evidence =>
      match evidence.checkPolicy cfg.anchorDepth cfg.minWork with
      | .error e => .error (.policy e)
      | .ok () => .ok { r with evidence := some (evidence.trim cfg.anchorDepth) }

end EvidencedRecord

/-- Most midstate headers `CheckedLinks` remembers. -/
def maxCheckedLinks : Nat := 16384

/-- Midstate headers whose proof of work was verified in accepted evidence, oldest first. -/
structure CheckedLinks where
  keys : Finset Bytes32
  order : List Bytes32

namespace CheckedLinks

def empty : CheckedLinks := ⟨∅, []⟩

def contains (c : CheckedLinks) (key : Bytes32) : Bool := key ∈ c.keys

def insert (c : CheckedLinks) (key : Bytes32) : CheckedLinks :=
  if key ∈ c.keys then c else ⟨Insert.insert key c.keys, c.order ++ [key]⟩

/-- Drops the oldest keys until `maxCheckedLinks` are left. -/
def evict (keys : Finset Bytes32) : List Bytes32 → CheckedLinks
  | [] => ⟨keys, []⟩
  | old :: order =>
    if order.length + 1 > maxCheckedLinks then evict (keys.erase old) order
    else ⟨keys, old :: order⟩

def insertAll (c : CheckedLinks) (keys : List Bytes32) : CheckedLinks :=
  let c := keys.foldl insert c
  evict c.keys c.order

end CheckedLinks

/-- The expensive check: every proof of work that `checked` has not seen before. -/
def verifyEvidence (record : EvidencedRecord) (cfg : AnchorConfig) (checked : CheckedLinks) :
    Except RecordFault CheckedLinks :=
  match record.verifyStandaloneWith cfg.anchorDepth cfg.minWork checked.contains with
  | .error e => .error (.invalid e)
  | .ok keys => .ok (checked.insertAll keys)

end Midwimble
