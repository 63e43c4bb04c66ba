import Midwimble.Core.BlockSync
import Midwimble.Core.Database
import Midwimble.Core.MmrProof
import Midwimble.Core.Snapshot

namespace Midwimble
open OrderedMap
set_option autoImplicit true

namespace Database

/-- The stored headers of `start..start + count`, lowest first. -/
def loadHeaders (db : Database) (start count : Nat) : List BatchHeader :=
  (db.headers.toList.filter fun p => start ≤ p.1 ∧ p.1 < satAdd64 start count).map Prod.snd

def setFinality (db : Database) (info : FinalityInfo) : Database :=
  { db with finality := some info }

/-- Deletes block bodies below `height` (never above the floor). -/
def pruneBodiesBelow (db : Database) (height : Nat) : Database :=
  let finality := db.finality.getD .default
  let height := min height finality.floor
  { db with
    batches := db.batches.filter fun h _ => decide (height ≤ h)
    finality := some { finality with prunedBelow := max finality.prunedBelow height } }

end Database

variable [Primitives]

/-- The midstate relay as a table holds it. An empty table is the relay's genesis. -/
def readRelay (table : Std.ExtTreeMap Nat RelayEntry) : Result Relay :=
  match table.toList.map Prod.snd with
  | [] => .ok .genesis
  | entries => (Relay.fromEntries entries).mapError fun _ =>
    "the stored midstate relay is corrupt"

/-- What `load_state` has read of the headers: the chain MMR over the blocks below the tip and
the tip's header. -/
structure HeaderScan where
  expected : Nat
  mmr : MerkleMountainRange
  tipHeader : Option BatchHeader

def HeaderScan.step (tip : Nat) (s : HeaderScan) (p : Nat × BatchHeader) : Result HeaderScan := do
  Fallible.bailIf (p.1 ≠ s.expected) s!"header {s.expected} missing; the database is corrupt"
  if p.1 = tip then .ok { s with expected := s.expected + 1, tipHeader := some p.2 }
  else .ok { s with
    expected := s.expected + 1
    mmr := s.mmr.append p.2.extension.finalHash true }

namespace Database

/-- Refills the fork-choice windows from the stored blocks just below `state`. -/
def rebuildForkChoiceWindows (db : Database) (state : State) : Result State := do
  let stop := state.height
  let start := stop - capWindow
  let signers ← (List.range' start (stop - start)).mapM (loggedSigner db.signers db.batches)
  let works ← headerWorks db.headers (stop - workCapWindow) stop
  .ok { state with
    signers := rebuildSignerWindow state.bonds signers
    workFloor := rebuildWorkFloor works }

/-- The MMR that `load_state` starts from, and the first header it reads. -/
def mmrStart (db : Database) : Result (MerkleMountainRange × Nat) :=
  match db.base with
  | some b => do
    let mmr ← mmrFromPeaks (b.height - 1) b.mmrPeaks
    .ok (mmr, b.height - 1)
  | none => .ok (.new, 0)

/-- Rebuilds the tip state from the tables and verifies it against the state root the tip header
commits to. -/
def loadState (db : Database) : Result (Option State) :=
  match db.stateMeta with
  | none => .ok none
  | some m => do
    Fallible.bailIf (m.height = 0) "stored state has no blocks; the database is corrupt"
    let leaves := db.ledger.utxos.toList.foldl (fun leaves p => leaves.insert (utxoLeaf p.1 p.2))
      (∅ : Std.ExtTreeSet Bytes32)
    let kernelIds := db.ledger.kernels.toList.foldl (fun ids p => ids.insert p.1)
      (∅ : Std.ExtTreeSet Bytes32)
    let relay ← readRelay db.ledger.relay
    let tip := m.height - 1
    let (mmr, first) ← db.mmrStart
    let scan ← (db.headers.toList.filter fun p => first ≤ p.1 ∧ p.1 < m.height).foldlM
      (HeaderScan.step tip) ⟨first, mmr, none⟩
    let tipHeader ← Fallible.orBail scan.tipHeader
      s!"tip header {tip} missing; the database is corrupt"
    let state : State :=
      { mwMidstate := m.mwMidstate
        bonds := readBonds db.ledger.bonds
        relay := relay
        signers := .empty
        workFloor := []
        effects := .empty
        capped := 0
        utxos := db.ledger.utxos
        utxoSet := ⟨leaves⟩
        kernels := ⟨kernelIds⟩
        kernelExcessSum := m.kernelExcessSum
        totalKernelOffset := m.totalKernelOffset
        supply := m.supply
        depth := m.depth
        target := m.target
        height := m.height
        timestamp := m.timestamp
        chainMmr := scan.mmr
        headerHash := m.headerHash }
    Fallible.bailIf (state.stateRoot ≠ tipHeader.stateRoot ∨
        tipHeader.extension.finalHash ≠ m.headerHash)
      "stored state does not match the tip header's commitments; the database is corrupt"
    let state ← db.rebuildForkChoiceWindows { state with
      chainMmr := state.chainMmr.append tipHeader.extension.finalHash true
      capped := db.cappedBefore state.height }
    .ok (some state)

end Database

/-- Takes one created output back. -/
def State.uncreate (h : Nat) (s : State) (c : Point32) : Result State := do
  let entry ← Fallible.orBail s.utxos[c]? s!"undo: created output {h} missing"
  .ok { s with
    utxos := s.utxos.erase c
    utxoSet := s.utxoSet.remove (utxoLeaf c entry) }

/-- Puts one spent output back. -/
def State.unspend (s : State) (p : Point32 × UtxoEntry) : State :=
  { s with
    utxoSet := (s.utxoSet.insert (utxoLeaf p.1 p.2)).2
    utxos := s.utxos.insert p.1 p.2 }

/-- Takes the block at `h` back in memory, with its undo record. -/
def State.undoBlock (s : State) (h : Nat) (undo : BlockUndo) : Result State := do
  let s ← undo.created.foldlM (State.uncreate h) s
  let s := undo.spent.foldl State.unspend s
  let p := undo.prev
  .ok { s with
    kernels := undo.kernels.foldl UtxoAccumulator.remove s.kernels
    bonds := undoBondEffects s.bonds undo.effects
    relay := s.relay.revertChange undo.effects.relayRemoved undo.effects.relayAdded
    mwMidstate := p.mwMidstate
    kernelExcessSum := p.kernelExcessSum
    totalKernelOffset := p.totalKernelOffset
    supply := p.supply
    depth := p.depth
    target := p.target
    height := p.height
    timestamp := p.timestamp
    headerHash := p.headerHash }

namespace Database

/-- The undo loop of `state_at`: the blocks from `height` on, newest first. -/
def undoBlocks (db : Database) (height : Nat) : (count : Nat) → State → Result State
  | 0, s => .ok s
  | count + 1, s => do
    let h := height + count
    let undo ← Fallible.orBail db.undo[h]?
      s!"no undo record for block {h} (outside the retained window)"
    let s ← s.undoBlock h undo
    db.undoBlocks height count s

/-- The state after `height` blocks, derived from `current` by applying undo records in memory. -/
def stateAt (db : Database) (current : State) (height : Nat) : Result State := do
  Fallible.bailIf (height > current.height) "cannot derive a future state"
  Fallible.bailIf (current.height ≠ 0 ∧
      (db.headers[current.height - 1]?.map fun h => h.extension.finalHash) ≠
        some current.headerHash)
    "the chain has been reorganised since the state was taken"
  let state ← db.undoBlocks height (current.height - height) current
  db.rebuildForkChoiceWindows { state with
    chainMmr := current.chainMmr.truncated height
    capped := db.cappedBefore height }

end Database

namespace Ledger

/-- A group from those read so far, or from its table. -/
def cachedGroup (l : Ledger) (cache : Std.ExtTreeMap Bytes32 StoredGroup) (gid : Bytes32) :
    Result (StoredGroup × Std.ExtTreeMap Bytes32 StoredGroup) :=
  match cache[gid]? with
  | some group => .ok (group, cache)
  | none => do
    let group ← Fallible.orBail l.groups[gid]? "dangling group reference"
    .ok (group, cache.insert gid group)

/-- The output of a group's unspent member. -/
def memberOutput (group : StoredGroup) (idx : Nat) : Result Output :=
  match group.members[idx]? with
  | some (.unspent o) => .ok o
  | _ => .error s!"group member {idx} is not unspent"

/-- The loop of `unspent_outputs`. `cache` holds the groups read so far. -/
def pageOf (l : Ledger) : (limit : Nat) → (cache : Std.ExtTreeMap Bytes32 StoredGroup) →
    List (Point32 × Bytes32 × Nat) → Result (List (Output × UtxoEntry))
  | 0, _, _ => .ok []
  | _ + 1, _, [] => .ok []
  | limit + 1, cache, (commitment, gid, idx) :: rest => do
    let (group, cache) ← l.cachedGroup cache gid
    let output ← memberOutput group idx
    let record ← Fallible.orBail l.utxos[commitment]? "member without a UTXO record"
    let page ← l.pageOf limit cache rest
    .ok ((output, record) :: page)

/-- Unspent outputs in commitment order. `after` continues a previous page. -/
def unspentOutputs (l : Ledger) (after : Option Point32) (limit : Nat) :
    Result (List (Output × UtxoEntry)) :=
  l.pageOf limit ∅ (l.members.toList.filter fun p => after.all fun c => compare c p.1 = .lt)

/-- The paging loop of `restore_from_unspent`, at most `fuel` pages: it stops at a short page. -/
def collectUnspent (l : Ledger) (page : Nat) : (fuel : Nat) → (cursor : Option Point32) →
    Result (List (Output × UtxoEntry))
  | 0, _ => .ok []
  | fuel + 1, cursor => do
    let outputs ← l.unspentOutputs cursor page
    match outputs.getLast?, decide (outputs.length = page) with
    | some last, true => do
      let rest ← l.collectUnspent page fuel (some last.1.commitment)
      .ok (outputs ++ rest)
    | _, _ => .ok outputs

end Ledger

/-- The places of a group's unspent outputs. -/
def StoredGroup.places (g : StoredGroup) : List (Point32 × Bytes32 × Nat) :=
  g.members.zipIdx.filterMap fun m => match m.1 with
    | .unspent o => some (o.commitment, g.id, m.2)
    | .spent _ _ => none

namespace Database

/-- The groups as they were below block `height`: later blocks' changes undone. -/
def groupsAt (db : Database) (height : Nat) : (count : Nat) →
    Std.ExtTreeMap Bytes32 StoredGroup → Result (Std.ExtTreeMap Bytes32 StoredGroup)
  | 0, groups => .ok groups
  | count + 1, groups => do
    let k := height + count
    let undo ← Fallible.orBail db.undo[k]? s!"no undo record for block {k}"
    db.groupsAt height count (insertAll (eraseAll groups undo.createdGroups) undo.touchedGroups)

/-- A snapshot at `checkpoint`, which must describe this chain and lie inside the undo window. -/
def exportSnapshot (db : Database) (current : State) (checkpoint : Checkpoint) :
    Result Snapshot := do
  let h := checkpoint.mwHeight
  let state ← db.stateAt current h
  let tip ← Fallible.orBail (db.loadHeader (h - 1)) s!"no header at {h - 1}"
  checkpoint.matches tip state.depth
  let parts := state.checkpointParts
  Fallible.bailIf (parts.root ≠ checkpoint.mwStateRoot)
    "derived state does not match the checkpoint"
  let stored := insertAll ∅ (db.ledger.groups.toList.map fun p => (p.2.id, p.2))
  let groups ← db.groupsAt h (current.height - h) stored
  let first := h - snapshotHeaders
  let peaks ← mmrPeakValues (state.chainMmr.truncated (h - 1))
  .ok {
    checkpoint := checkpoint
    headers := db.loadHeaders first (h - first)
    parts := parts
    mmrPeaks := peaks
    utxos := state.utxos.toList
    groups := groups.toList.map Prod.snd
    kernels := (db.ledger.kernels.toList.map Prod.snd).filter fun k =>
      state.kernels.coins.contains k.id
    bonds := state.bonds.entries.toList
    relay := state.relay.values }

/-- Initialises an empty database from a verified snapshot. -/
def importSnapshot (db : Database) (snapshot : Snapshot) (state : State) : Result Database := do
  Fallible.bailIf db.stateMeta.isSome
    "refusing to import a snapshot into a non-empty database"
  let h := snapshot.checkpoint.mwHeight
  .ok { db with
    ledger := {
      utxos := insertAll db.ledger.utxos snapshot.utxos
      kernels := insertAll db.ledger.kernels (snapshot.kernels.map fun k => (k.id, k))
      groups := insertAll db.ledger.groups (snapshot.groups.map fun g => (g.id, g))
      members := insertAll db.ledger.members (snapshot.groups.flatMap StoredGroup.places)
      bonds := insertAll db.ledger.bonds state.bonds.entries.toList
      relay := insertAll db.ledger.relay (state.relay.values.map fun e => (e.height, e)) }
    headers := insertAll db.headers (snapshot.headers.map fun header => (header.height, header))
    signers := insertAll db.signers
      (snapshot.headers.map fun header => (header.height, header.signer))
    depths := db.depths.insert (h - 1) snapshot.checkpoint.mwCumulativeWork
    capped := db.capped.insert (h - 1) state.capped
    stateMeta := some (.of state)
    base := some ⟨h, snapshot.mmrPeaks, snapshot.checkpoint⟩
    finality := some ⟨h, some snapshot.checkpoint.id, h, h⟩ }

end Database

end Midwimble
