import Midwimble.Core.State

namespace Midwimble
set_option autoImplicit true

def checkpointVersion : Nat := 1

/-- Headers a snapshot carries, for the timestamp and fork-choice windows. -/
def snapshotHeaders : Nat := max 60 (max capWindow workCapWindow)

/-- A midwimble state commitment small enough to notarise anywhere. -/
structure Checkpoint where
  version : Nat
  network : Bytes32
  /-- Blocks in the checkpointed chain. -/
  mwHeight : Nat
  mwHeaderHash : Bytes32
  mwStateRoot : Bytes32
  mwCumulativeWork : Nat
  previousCheckpoint : Bytes32
  deriving DecidableEq

/-- A state at a checkpoint, for a node that starts there. -/
structure Snapshot where
  checkpoint : Checkpoint
  headers : List BatchHeader
  parts : StateRootParts
  /-- Peaks of the chain MMR without the tip's own hash. -/
  mmrPeaks : List Bytes32
  utxos : List (Point32 × UtxoEntry)
  groups : List StoredGroup
  kernels : List Kernel
  bonds : List (Bytes32 × BondEntry)
  /-- The relay's window, lowest first. -/
  relay : List RelayEntry

/-- The bincode form of a checkpoint. -/
def Checkpoint.encode (c : Checkpoint) : Bytes :=
  Bytes.le 1 c.version ++ c.network.toBytes ++ Bytes.le 8 c.mwHeight ++
    c.mwHeaderHash.toBytes ++ c.mwStateRoot.toBytes ++ Bytes.le 16 c.mwCumulativeWork ++
    c.previousCheckpoint.toBytes

/-- An MMR over `leaves` leaves that holds only its peaks. -/
def mmrFromPeaks (leaves : Nat) (values : List Bytes32) : Result MerkleMountainRange := do
  let positions := peaks (mmrSize leaves)
  Fallible.bailIf (positions.length ≠ values.length)
    s!"expected {positions.length} MMR peaks, got {values.length}"
  .ok ⟨(positions.zip values).foldl (fun nodes p => nodes.set p.1 p.2)
    (List.replicate (mmrSize leaves) 0), leaves⟩

variable [Primitives]

namespace Checkpoint

def id (c : Checkpoint) : Bytes32 :=
  hashDomain (Bytes.ascii "midwimble.midstate-anchor.v1") [c.encode]

/-- Checks the checkpoint describes the chain that ends with `tip`. -/
def «matches» (c : Checkpoint) (tip : BatchHeader) (cumulativeWork : Nat) : Result Unit := do
  Fallible.bailIf (c.version ≠ checkpointVersion ∨ c.network ≠ networkAnchor)
    "checkpoint is for another network or version"
  Fallible.bailIf (tip.height + 1 ≠ c.mwHeight ∨ tip.extension.finalHash ≠ c.mwHeaderHash ∨
      tip.stateRoot ≠ c.mwStateRoot ∨ cumulativeWork ≠ c.mwCumulativeWork)
    s!"checkpoint does not describe this chain at height {c.mwHeight}"

end Checkpoint

/-- The loop of `check_headers`: each header links to the one before and adds a possible weight. -/
def checkHeaderLinks : List BatchHeader → Result Unit
  | prev :: h :: rest => do
    Fallible.bailIf (h.height ≠ prev.height + 1 ∨
        h.prevHeaderHash ≠ prev.extension.finalHash ∨
        h.prevMidstate ≠ prev.postTxMidstate ∨ h.target ≠ calculateTarget h.height prev.timestamp)
      s!"snapshot headers do not link at height {h.height}"
    Fallible.bailIf (¬ (prev.chainWeight + 1 ≤ h.chainWeight ∧
        h.chainWeight - prev.chainWeight ≤ calculateWork h.target))
      s!"snapshot header {h.height} claims an impossible chain weight"
    checkHeaderLinks (h :: rest)
  | _ => .ok ()

def checkHeaders (checkpoint : Checkpoint) (headers : List BatchHeader) : Result Unit := do
  let tip ← Fallible.orBail headers.getLast? "snapshot has no headers"
  Fallible.bailIf (tip.height + 1 ≠ checkpoint.mwHeight ∨
      tip.extension.finalHash ≠ checkpoint.mwHeaderHash ∨
      tip.stateRoot ≠ checkpoint.mwStateRoot)
    "snapshot headers do not end at the checkpoint"
  let expected := min checkpoint.mwHeight snapshotHeaders
  Fallible.bailIf (headers.length ≠ expected)
    s!"snapshot must carry {expected} headers, has {headers.length}"
  checkHeaderLinks headers
  Fallible.checkAll (fun h : BatchHeader =>
    Fallible.bailIf (h.height > 0 ∧
        verifyPow h.height (computeHeaderHash h) h.extension h.target h.auxPow ≠ .ok ())
      s!"snapshot header {h.height} has invalid proof of work") headers

namespace Snapshot

/-- The UTXO map and its accumulator. -/
def utxoState (s : Snapshot) : Result (Std.ExtTreeMap Point32 UtxoEntry × UtxoAccumulator) := do
  let (utxos, leaves) ← s.utxos.foldlM (fun acc p => do
    Fallible.bailIf (acc.1.contains p.1) "duplicate UTXO in snapshot"
    .ok (acc.1.insert p.1 p.2, acc.2.insert (utxoLeaf p.1 p.2)))
    ((∅, ∅) : Std.ExtTreeMap Point32 UtxoEntry × Std.ExtTreeSet Bytes32)
  let utxoSet : UtxoAccumulator := ⟨leaves⟩
  Fallible.bailIf (utxoSet.root true ≠ s.parts.utxoRoot)
    "snapshot UTXO set does not match the checkpoint"
  .ok (utxos, utxoSet)

/-- The kernels' accumulator: all valid, ids unique, sums and root as committed. -/
def kernelState (s : Snapshot) : Result UtxoAccumulator := do
  Fallible.bailIf (!s.kernels.all fun k => decide (k.checkRules = .ok ()) && k.verifySignature)
    "snapshot contains an invalid kernel"
  let ids := Std.ExtTreeSet.ofList (s.kernels.map Kernel.id)
  Fallible.bailIf (ids.size ≠ s.kernels.length) "duplicate kernel in snapshot"
  let kernels : UtxoAccumulator := ⟨ids⟩
  Fallible.bailIf (kernels.root true ≠ s.parts.kernelRoot)
    "snapshot kernels do not match the checkpoint"
  let excess ← sumPoints (s.kernels.map Kernel.excess)
  Fallible.bailIf (compress excess ≠ s.parts.kernelExcessSum)
    "snapshot kernel excesses do not sum to the committed total"
  let coinbaseKernels := (s.kernels.filter fun k => k.features = .coinbase).length
  let mintingBlocks := match emission.finalRewardHeight with
    | none => s.checkpoint.mwHeight - 1
    | some final => min final (s.checkpoint.mwHeight - 1)
  Fallible.bailIf (coinbaseKernels < mintingBlocks) "snapshot is missing coinbase kernels"
  .ok kernels

/-- The range-proof groups: all valid, covering every UTXO exactly once. -/
def checkGroups (s : Snapshot) : Result Unit := do
  Fallible.bailIf (!s.groups.all StoredGroup.verify)
    "snapshot contains an invalid range-proof group"
  Fallible.bailIf (¬ (s.groups.map StoredGroup.id).Nodup ∨ s.groups.any StoredGroup.isFullySpent)
    "snapshot has a duplicate or fully spent group"
  let covered := s.groups.flatMap StoredGroup.unspent
  Fallible.bailIf (¬ (covered.map Output.commitment).Nodup) "output covered by two groups"
  Fallible.bailIf (covered.length ≠ s.utxos.length)
    "snapshot groups do not cover the UTXO set exactly"
  Fallible.checkAll (fun p : Point32 × UtxoEntry => do
    let o ← Fallible.orBail (covered.find? fun o => o.commitment = p.1)
      s!"UTXO {hexEncode p.1} has no range proof"
    Fallible.bailIf (p.2.outputHash ≠ o.metadataHash ∨ p.2.ownerKey ≠ o.ownerKey ∨
        p.2.recoveryCommitment ≠ o.recoveryCommitment)
      s!"UTXO {hexEncode p.1} does not match its stored output") s.utxos

/-- The chain MMR: peaks over the blocks before the tip, then the tip itself. -/
def chainMmr (s : Snapshot) : Result MerkleMountainRange := do
  let mmr ← mmrFromPeaks (s.checkpoint.mwHeight - 1) s.mmrPeaks
  Fallible.bailIf (mmr.root true ≠ s.parts.chainMmrRoot)
    "snapshot MMR does not match the checkpoint"
  .ok (mmr.append s.checkpoint.mwHeaderHash true)

/-- The bonds and the relay, each against the committed parts. -/
def bondsAndRelay (s : Snapshot) : Result (BondSet × Relay) := do
  let bonds := s.bonds.foldl (fun b p => (b.insert p.1 p.2).2) BondSet.empty
  Fallible.bailIf (bonds.entries.size ≠ s.bonds.length) "duplicate bond in snapshot"
  let relay ← Relay.fromEntries s.relay
  Fallible.bailIf (relay.commitment ≠ s.parts.relayRoot)
    "snapshot relay does not match the checkpoint"
  .ok (bonds, relay)

/-- Verifies the snapshot against a trusted checkpoint id and returns its state. -/
def verify (s : Snapshot) (trustedId : Bytes32) : Result State := do
  let cp := s.checkpoint
  Fallible.bailIf (cp.id ≠ trustedId)
    s!"snapshot is for checkpoint {hexEncode cp.id}, not the trusted one"
  let tip ← Fallible.orBail s.headers.getLast? "no headers"
  cp.matches tip cp.mwCumulativeWork
  checkHeaders cp s.headers
  Fallible.bailIf (s.parts.root ≠ cp.mwStateRoot)
    "snapshot state parts do not hash to the checkpoint's state root"
  let (utxos, utxoSet) ← s.utxoState
  let kernels ← s.kernelState
  s.checkGroups
  let chainMmr ← s.chainMmr
  Fallible.bailIf (cp.mwCumulativeWork < tip.chainWeight)
    "snapshot tip claims more weight than the checkpoint's work"
  let (bonds, relay) ← s.bondsAndRelay
  let state : State :=
    { bonds := bonds
      relay := relay
      signers := rebuildSignerWindow bonds
        ((s.headers.drop (s.headers.length - capWindow)).map BatchHeader.signer)
      workFloor := rebuildWorkFloor
        ((s.headers.drop (s.headers.length - workCapWindow)).map fun h =>
          (h.height, calculateWork h.target))
      effects := .empty
      capped := cp.mwCumulativeWork - tip.chainWeight
      mwMidstate := tip.postTxMidstate
      utxos := utxos
      utxoSet := utxoSet
      kernels := kernels
      kernelExcessSum := s.parts.kernelExcessSum
      totalKernelOffset := s.parts.totalKernelOffset
      supply := s.parts.supply
      depth := cp.mwCumulativeWork
      target := calculateTarget cp.mwHeight tip.timestamp
      height := cp.mwHeight
      timestamp := tip.timestamp
      chainMmr := chainMmr
      headerHash := cp.mwHeaderHash }
  Fallible.bailIf (state.supply > issuedBefore cp.mwHeight)
    s!"snapshot claims a supply of {state.supply} at height {cp.mwHeight}, but the schedule allows at most {issuedBefore cp.mwHeight}"
  state.verifySupply
  Fallible.bailIf (state.checkpointParts ≠ s.parts)
    "rebuilt state does not reproduce the checkpoint"
  .ok state

end Snapshot

end Midwimble
