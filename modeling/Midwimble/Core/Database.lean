import Midwimble.Core.Finality
import Midwimble.Core.Storage
import Midwimble.Lib.OrderedMap

namespace Midwimble
open OrderedMap
set_option autoImplicit true

/-- Undo records always kept (at least); more if a retained checkpoint needs them. -/
def undoKeep : Nat := 1200

/-- The scalar part of `State` (everything except the sets, the windows and the MMR). -/
structure StateMeta where
  mwMidstate : Bytes32
  kernelExcessSum : Point32
  totalKernelOffset : Scalar32
  supply : Nat
  depth : Nat
  target : Bytes32
  height : Nat
  timestamp : Nat
  headerHash : Bytes32
  deriving DecidableEq

/-- Everything needed to take one block back off the chain. -/
structure BlockUndo where
  spent : List (Point32 × UtxoEntry)
  created : List Point32
  kernels : List Bytes32
  prev : StateMeta
  /-- Range-proof groups the block created. -/
  createdGroups : List Bytes32
  /-- Groups the block's spends touched, as they were before it. -/
  touchedGroups : List (Bytes32 × StoredGroup)
  /-- Group membership of the outputs it spent. -/
  spentMembers : List (Point32 × Bytes32 × Nat)
  effects : BlockEffects
  deriving DecidableEq

/-- The tables that blocks change by diffs. -/
structure Ledger where
  utxos : Std.ExtTreeMap Point32 UtxoEntry
  kernels : Std.ExtTreeMap Bytes32 Kernel
  groups : Std.ExtTreeMap Bytes32 StoredGroup
  /-- The group of each unspent output and its place there. -/
  members : Std.ExtTreeMap Point32 (Bytes32 × Nat)
  bonds : Std.ExtTreeMap Bytes32 BondEntry
  relay : Std.ExtTreeMap Nat RelayEntry
  deriving DecidableEq

/-- One committed version of the database. -/
structure Database where
  batches : Std.ExtTreeMap Nat Batch
  headers : Std.ExtTreeMap Nat BatchHeader
  ledger : Ledger
  undo : Std.ExtTreeMap Nat BlockUndo
  signers : Std.ExtTreeMap Nat (Option Bytes32)
  capped : Std.ExtTreeMap Nat Nat
  subsidy : Std.ExtTreeMap Nat Nat
  depths : Std.ExtTreeMap Nat Nat
  stateMeta : Option StateMeta
  base : Option SnapshotBase
  finality : Option FinalityInfo
  deriving DecidableEq

namespace Database

/-- A new database. -/
def empty : Database where
  batches := ∅
  headers := ∅
  ledger := ⟨∅, ∅, ∅, ∅, ∅, ∅⟩
  undo := ∅
  signers := ∅
  capped := ∅
  subsidy := ∅
  depths := ∅
  stateMeta := none
  base := none
  finality := none

def loadHeader (db : Database) (height : Nat) : Option BatchHeader := db.headers[height]?

/-- Work fork choice withheld from blocks `0..height`. -/
def cappedBefore (db : Database) (height : Nat) : Nat :=
  match height with
  | 0 => 0
  | last + 1 => db.capped[last]?.getD 0

end Database

/-- The signer of block `h`: from the signer log, else from its body. -/
def loggedSigner (log : Std.ExtTreeMap Nat (Option Bytes32)) (blocks : Std.ExtTreeMap Nat Batch)
    (h : Nat) : Result (Option Bytes32) :=
  match log[h]? with
  | some signer => .ok signer
  | none =>
    match blocks[h]? with
    | some batch => .ok batch.signer
    | none => .error s!"the signer of block {h} is missing; the database is corrupt"

/-- Height and work of each block in `start..stop`, oldest first, from its stored header. -/
def headerWorks (headers : Std.ExtTreeMap Nat BatchHeader) (start stop : Nat) :
    Result (List (Nat × Nat)) := do
  let out := (headers.toList.filter fun p => start ≤ p.1 ∧ p.1 < stop).map fun p =>
    (p.1, calculateWork p.2.target)
  Fallible.bailIf (out.length ≠ stop - start)
    s!"headers {start}..{stop} are incomplete; the database is corrupt"
  .ok out

variable [Primitives]

namespace StateMeta

def of (s : State) : StateMeta where
  mwMidstate := s.mwMidstate
  kernelExcessSum := s.kernelExcessSum
  totalKernelOffset := s.totalKernelOffset
  supply := s.supply
  depth := s.depth
  target := s.target
  height := s.height
  timestamp := s.timestamp
  headerHash := s.headerHash

/-- Adds one kernel's excess. -/
def addExcess (excess : Primitives.Point) (k : Kernel) : Result Primitives.Point := do
  let p ← Fallible.orBail (decompress k.excess) "invalid kernel excess"
  .ok (excess + p)

/-- The scalars after `batch`: the updates `applyBatch` makes, for blocks already validated. -/
def advance (m : StateMeta) (batch : Batch) (subsidy : Nat) : Result StateMeta := do
  let excess ← Fallible.orBail (decompress m.kernelExcessSum) "corrupt excess sum"
  let excess ← (blockKernels batch.body batch.coinbase).foldlM addExcess excess
  let total ← Fallible.orBail (scalarFromBytes m.totalKernelOffset) "corrupt offset"
  let offset ← Fallible.orBail (scalarFromBytes batch.body.kernelOffset) "invalid offset"
  let reward := if batch.coinbase.isSome then subsidy else 0
  let supply ← Fallible.orBail (checkedAdd64 m.supply reward) "supply overflow"
  .ok {
    mwMidstate := foldBlock m.mwMidstate batch
    kernelExcessSum := compress excess
    totalKernelOffset := scalarToBytes (total + offset)
    supply := supply
    depth := satAdd128 m.depth (calculateWork batch.target)
    target := calculateTarget (m.height + 1) batch.timestamp
    height := m.height + 1
    timestamp := batch.timestamp
    headerHash := batch.extension.finalHash }

end StateMeta

/-- The bond set as a table holds it. -/
def readBonds (table : Std.ExtTreeMap Bytes32 BondEntry) : BondSet :=
  table.toList.foldl (fun bonds p => (bonds.insert p.1 p.2).2) .empty

/-- What spending a block's inputs makes of the tables, and the record that undoes it. -/
structure SpendScan where
  utxos : Std.ExtTreeMap Point32 UtxoEntry
  members : Std.ExtTreeMap Point32 (Bytes32 × Nat)
  working : Std.ExtTreeMap Bytes32 StoredGroup
  spent : List (Point32 × UtxoEntry)
  touched : List (Bytes32 × StoredGroup)
  spentMembers : List (Point32 × Bytes32 × Nat)

/-- The group to spend from, read from its table when it is first touched. -/
def SpendScan.touch (groups : Std.ExtTreeMap Bytes32 StoredGroup) (s : SpendScan)
    (gid : Bytes32) : Result (StoredGroup × List (Bytes32 × StoredGroup)) :=
  match s.working[gid]? with
  | some group => .ok (group, s.touched)
  | none => do
    let group ← Fallible.orBail groups[gid]? s!"missing group {hexEncode gid}"
    .ok (group, s.touched ++ [(gid, group)])

/-- One input: its UTXO record and its place in its group. -/
def spendRecord (groups : Std.ExtTreeMap Bytes32 StoredGroup) (height : Nat) (s : SpendScan)
    (input : Input) : Result SpendScan := do
  let entry ← Fallible.orBail s.utxos[input.commitment]?
    s!"block {height} spends an output not in storage"
  let (gid, idx) ← Fallible.orBail s.members[input.commitment]?
    s!"output {hexEncode input.commitment} has no range-proof group"
  let (group, touched) ← s.touch groups gid
  let group ← group.spend idx
  .ok {
    utxos := s.utxos.erase input.commitment
    members := s.members.erase input.commitment
    working := s.working.insert gid group
    spent := s.spent ++ [(input.commitment, entry)]
    touched := touched
    spentMembers := s.spentMembers ++ [(input.commitment, gid, idx)] }

/-- Writes a touched group back, or drops it once all its members are spent. -/
def putGroup (groups : Std.ExtTreeMap Bytes32 StoredGroup) (p : Bytes32 × StoredGroup) :
    Std.ExtTreeMap Bytes32 StoredGroup :=
  if p.2.isFullySpent then groups.erase p.1 else groups.insert p.1 p.2

/-- The groups of a block with whether they are the coinbase's. -/
def blockGroups (batch : Batch) : List (OutputGroup × Bool) :=
  (batch.body.body.outputs.map fun g => (g, false)) ++
    (batch.coinbase.map fun c => (c.outputs, true)).toList

/-- The records of the outputs a block at `height` creates. -/
def createdRecords (height : Nat) (batch : Batch) : List (Point32 × UtxoEntry) :=
  (blockGroups batch).flatMap fun p =>
    p.1.outputs.map fun o => (o.commitment, utxoEntry height p.2 o)

/-- The places of the outputs a block creates in their groups. -/
def createdMembers (batch : Batch) : List (Point32 × Bytes32 × Nat) :=
  (blockGroups batch).flatMap fun p =>
    p.1.outputs.zipIdx.map fun o => (o.1.commitment, (StoredGroup.fromGroup p.1).id, o.2)

/-- The groups a block creates. -/
def createdGroups (batch : Batch) : List (Bytes32 × StoredGroup) :=
  (blockGroups batch).map fun p =>
    ((StoredGroup.fromGroup p.1).id, StoredGroup.fromGroup p.1)

namespace Ledger

/-- Step 2 of `commit_chain` on these tables: spends, new outputs with their groups, kernels, bonds
and relay. -/
def applyBlock (l : Ledger) (height : Nat) (prev : StateMeta) (batch : Batch)
    (effects : BlockEffects) : Result (Ledger × BlockUndo) := do
  let s ← batch.body.body.inputs.foldlM (spendRecord l.groups height)
    ⟨l.utxos, l.members, ∅, [], [], []⟩
  let groups := s.working.toList.foldl putGroup l.groups
  let kernels := blockKernels batch.body batch.coinbase
  .ok ({
    utxos := insertAll s.utxos (createdRecords height batch)
    members := insertAll s.members (createdMembers batch)
    groups := insertAll groups (createdGroups batch)
    kernels := insertAll l.kernels (kernels.map fun k => (k.id, k))
    bonds := insertAll (eraseAll l.bonds (effects.bondsRemoved.map Prod.fst)) effects.bondsAdded
    relay := insertAll (eraseAll l.relay (effects.relayRemoved.map RelayEntry.height))
      (effects.relayAdded.map fun e => (e.height, e)) }, {
    spent := s.spent
    created := (createdRecords height batch).map Prod.fst
    kernels := kernels.map Kernel.id
    prev := prev
    createdGroups := (createdGroups batch).map Prod.fst
    touchedGroups := s.touched
    spentMembers := s.spentMembers
    effects := effects })

/-- Step 1 of `commit_chain` on these tables: takes a block back. -/
def revertBlock (l : Ledger) (u : BlockUndo) : Ledger where
  groups := insertAll (eraseAll l.groups u.createdGroups) u.touchedGroups
  utxos := insertAll (eraseAll l.utxos u.created) u.spent
  members := insertAll (eraseAll l.members u.created) u.spentMembers
  kernels := eraseAll l.kernels u.kernels
  bonds := insertAll (eraseAll l.bonds (u.effects.bondsAdded.map Prod.fst)) u.effects.bondsRemoved
  relay := insertAll (eraseAll l.relay (u.effects.relayAdded.map RelayEntry.height))
    (u.effects.relayRemoved.map fun e => (e.height, e))

end Ledger

namespace Database

/-- A new database's relay starts at its root. -/
def rootRelay (db : Database) : Database :=
  if db.ledger.relay.isEmpty then
    { db with ledger := { db.ledger with
      relay := db.ledger.relay.insert RelayEntry.root.height .root } }
  else db

/-- Takes the block at `h` back with its undo record. -/
def revertBlock (db : Database) (h : Nat) : Result (StateMeta × Database) := do
  let undo ← Fallible.orBail db.undo[h]?
    s!"no undo record for block {h}; cannot reorganise that deep"
  .ok (undo.prev, { db with
    undo := db.undo.erase h
    ledger := db.ledger.revertBlock undo
    batches := db.batches.erase h
    headers := db.headers.erase h
    signers := db.signers.erase h
    capped := db.capped.erase h
    subsidy := db.subsidy.erase h
    depths := db.depths.erase h })

/-- Takes the last `count` blocks down to `firstHeight` back, newest first. -/
def revertBlocks (firstHeight : Nat) : (count : Nat) → StateMeta × Database →
    Result (StateMeta × Database)
  | 0, acc => .ok acc
  | count + 1, (_, db) => do
    let acc ← db.revertBlock (firstHeight + count)
    revertBlocks firstHeight count acc

end Database

/-- What `commit_chain` carries from block to block as it writes them. -/
structure Replay where
  db : Database
  scalars : StateMeta
  bonds : BondSet
  window : SignerWindow
  floor : List (Nat × Nat)
  capped : Nat

namespace Replay

/-- The windows below the first new block, rebuilt as the node rebuilds its own. -/
def start (db : Database) (scalars : StateMeta) (firstHeight : Nat) : Result Replay := do
  let bonds := readBonds db.ledger.bonds
  let windowStart := firstHeight - capWindow
  let signers ← (List.range' windowStart (firstHeight - windowStart)).mapM
    (loggedSigner db.signers db.batches)
  let works ← headerWorks db.headers (firstHeight - workCapWindow) firstHeight
  .ok {
    db := db
    scalars := scalars
    bonds := bonds
    window := rebuildSignerWindow bonds signers
    floor := rebuildWorkFloor works
    capped := db.cappedBefore firstHeight }

/-- Writes one new block. -/
def block (r : Replay) (height : Nat) (batch : Batch) (effects : BlockEffects) :
    Result Replay := do
  Fallible.bailIf (r.scalars.height ≠ height)
    s!"commit_chain: scalar height {r.scalars.height} != block height {height}"
  let (ledger, undo) ← r.db.ledger.applyBlock height r.scalars batch effects
  let bonds := applyBondEffects r.bonds effects
  let signer := batch.signer
  let work := calculateWork batch.target
  let (creditable, floor) := capWork r.floor height work
  let (credited, window) :=
    creditInWindow r.window bonds height signer creditable batch.timestamp
  let subsidy := subsidyFor signer window.counts bonds height batch.timestamp
  let next ← r.scalars.advance batch subsidy
  let capped := satAdd128 r.capped (work - credited)
  Fallible.bailIf (batch.chainWeight ≠ next.depth - capped)
    s!"commit_chain: block {height} claims chain weight {batch.chainWeight}, the replay gives {next.depth - capped}"
  .ok {
    db := { r.db with
      ledger := ledger
      signers := r.db.signers.insert height signer
      capped := r.db.capped.insert height capped
      subsidy := r.db.subsidy.insert height subsidy
      depths := r.db.depths.insert height next.depth
      undo := r.db.undo.insert height undo
      batches := r.db.batches.insert height batch
      headers := r.db.headers.insert height (batch.headerAt height) }
    scalars := next
    bonds := bonds
    window := window
    floor := floor
    capped := capped }

/-- Writes the new blocks, oldest first. -/
def run : Replay → (height : Nat) → List (Batch × BlockEffects) → Result Replay
  | r, _, [] => .ok r
  | r, height, (batch, effects) :: rest => do
    let next ← r.block height batch effects
    next.run (height + 1) rest

/-- Step 3: the result must be exactly the caller's state. -/
def check (r : Replay) (state : State) : Result Unit := do
  Fallible.bailIf (r.scalars ≠ .of state)
    "commit_chain: stored diffs disagree with the supplied state"
  Fallible.bailIf (r.capped ≠ state.capped)
    "commit_chain: replayed fork-choice weight disagrees with the supplied state"
  Fallible.bailIf (r.bonds.root ≠ state.bonds.root ∨
      r.db.ledger.bonds.size ≠ state.bonds.entries.size)
    "commit_chain: stored bond diffs disagree with the supplied state"
  Fallible.bailIf (r.db.ledger.relay.toList.getLast?.map Prod.snd ≠ some state.relay.tip ∨
      r.db.ledger.relay.size ≠ state.relay.entries.size)
    "commit_chain: stored relay diffs disagree with the supplied state"

end Replay

namespace Database

/-- Step 4: bounds the undo window. -/
def pruneUndo (db : Database) (keepFrom : Nat) : Database :=
  { db with undo := db.undo.filter fun h _ => decide (keepFrom ≤ h) }

/-- Replaces every block at or above `firstHeight` with `batches`, whose application yields `state`.
-/
def commitChain (db : Database) (firstHeight : Nat) (batches : List Batch)
    (effects : List BlockEffects) (state : State) : Result Database := do
  Fallible.bailIf (firstHeight + batches.length ≠ state.height)
    s!"commit_chain: {batches.length} blocks from {firstHeight} do not end at state height {state.height}"
  Fallible.bailIf (effects.length ≠ batches.length)
    s!"commit_chain: {batches.length} blocks but {effects.length} sets of effects"
  let finality := db.finality.getD .default
  Fallible.bailIf (firstHeight < finality.floor)
    s!"refusing to rewrite height {firstHeight} below the finalized floor {finality.floor}"
  Fallible.bailIf (db.base.any fun b => firstHeight < b.height)
    s!"cannot rewrite below the snapshot base {(db.base.map SnapshotBase.height).getD 0}"
  let db := db.rootRelay
  let oldLen := (db.stateMeta.map StateMeta.height).getD 0
  Fallible.bailIf (firstHeight > oldLen)
    s!"commit_chain: gap between stored tip {oldLen} and {firstHeight}"
  let scalars := db.stateMeta.getD (.of .genesis)
  let (scalars, db) ← revertBlocks firstHeight (oldLen - firstHeight) (scalars, db)
  let start ← Replay.start db scalars firstHeight
  let done ← start.run firstHeight (batches.zip effects)
  done.check state
  let db := { done.db with stateMeta := some done.scalars }
  .ok (db.pruneUndo (min (state.height - undoKeep) finality.retainFrom))

end Database

end Midwimble
