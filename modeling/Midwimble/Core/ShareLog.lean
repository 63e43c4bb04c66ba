import Std.Data.ExtTreeMap
import Mathlib.Data.Finset.Basic
import Midwimble.Core.Bond
import Midwimble.Core.Pool

namespace Midwimble
set_option autoImplicit true

/-- The tables of the pool's database that its share log is kept in. -/
structure PoolDb where
  shareRecords : Std.ExtTreeMap Nat ShareRecord
  /-- The address keys behind the owners. -/
  owners : Std.ExtTreeMap Bytes32 Bytes
  jobProofs : Std.ExtTreeMap Nat JobProof
  jobHeights : Std.ExtTreeMap Nat Nat

/-- Credited shares, oldest first, and the addresses of their owners. -/
structure ShareLog where
  entries : List ShareRecord
  addresses : Std.ExtTreeMap Bytes32 StealthAddress
  nextSeq : Nat

/-- What a prune of the log in memory leaves for the one on disk. -/
structure PendingPrune where
  firstKept : Nat
  firstJob : Nat
  owners : Finset Bytes32

def keyAddr (key : Bytes) : StealthAddress :=
  ⟨wordOf (key.take 32), wordOf ((key.drop 32).take 32), wordOf (key.drop 64)⟩

/-- How much share weight a window holds, in shares of the pool's minimum difficulty. -/
def windowSize (networkTarget : Bytes32) (shareBits windowBlocks : Nat) : Nat :=
  let target := max networkTarget.toNat 1
  let perBlock := (2 ^ 256 - 1) / target / 2 ^ min shareBits 255
  let size := min (perBlock * max windowBlocks 1) (2 ^ 256 - 1)
  let cap := (2 ^ 64 - 1) / 2
  if size > cap then cap else max size 1

namespace ShareLog

def empty : ShareLog := ⟨[], ∅, 0⟩

def loadOwners : List (Bytes32 × Bytes) → ShareLog → Result ShareLog
  | [], log => .ok log
  | (id, key) :: rest, log => do
    Fallible.bailIf (key.length ≠ 96) (Err.message "corrupt owner address")
    loadOwners rest { log with addresses := log.addresses.insert id (keyAddr key) }

def loadShares : List (Nat × ShareRecord) → ShareLog → Result ShareLog
  | [], log => .ok log
  | (seq, share) :: rest, log => do
    Fallible.bailIf (share.seq ≠ seq ∨ share.owner ∉ log.addresses)
      (Err.message s!"corrupt share {seq}")
    loadShares rest { log with nextSeq := share.seq + 1, entries := log.entries ++ [share] }

def load (db : PoolDb) : Result ShareLog := do
  let log ← loadOwners db.owners.toList empty
  loadShares db.shareRecords.toList log

/-- Appends a share, mined for `address`, under the next sequence number. -/
def append (log : ShareLog) (db : PoolDb) (address : StealthAddress) (share : ShareRecord) :
    ShareLog × PoolDb :=
  let share := { share with seq := log.nextSeq }
  let owners :=
    if share.owner ∈ log.addresses then db.owners else db.owners.insert share.owner (addrKey address)
  let db := { db with owners := owners, shareRecords := db.shareRecords.insert share.seq share }
  let log :=
    { log with
      addresses := log.addresses.insert share.owner address
      nextSeq := share.seq + 1
      entries := log.entries ++ [share] }
  (log, db)

/-- The first sequence number kept, from the newest share on. -/
def firstKept (keepFrom keep : Nat) : (weight first : Nat) → List ShareRecord → Nat
  | _, first, [] => first
  | weight, first, share :: older =>
    if weight ≥ keep ∧ share.seq < keepFrom then first
    else firstKept keepFrom keep (weight + share.weight) share.seq older

def prune (log : ShareLog) (keepFrom keep : Nat) : ShareLog × Nat × Finset Bytes32 :=
  let first := firstKept keepFrom keep 0 log.nextSeq log.entries.reverse
  let entries := log.entries.dropWhile fun share => share.seq < first
  let owners := (entries.map ShareRecord.owner).toFinset
  ({ log with entries := entries, addresses := log.addresses.filter fun id _ => id ∈ owners },
    first, owners)

/-- The oldest job a kept share was mined on. -/
def firstJob (log : ShareLog) : Option Nat := (log.entries.map ShareRecord.jobId).min?

end ShareLog

def pruneDb (db : PoolDb) (first job : Nat) (owners : Finset Bytes32) : PoolDb where
  shareRecords := db.shareRecords.filter fun seq _ => first ≤ seq
  jobProofs := db.jobProofs.filter fun id _ => job ≤ id
  jobHeights := db.jobHeights.filter fun id _ => job ≤ id
  owners := db.owners.filter fun id _ => id ∈ owners

def storeJobProof (db : PoolDb) (jobId height : Nat) (proof : JobProof) : PoolDb :=
  { db with
    jobProofs := db.jobProofs.insert jobId proof
    jobHeights := db.jobHeights.insert jobId height }

/-- A pool's database, its share log, and the prunes of the log not yet made on disk. -/
structure PoolStore where
  db : PoolDb
  log : ShareLog
  pending : List PendingPrune

namespace PoolStore

/-- A pool that never ran. -/
def fresh : PoolStore := ⟨⟨∅, ∅, ∅, ∅⟩, .empty, []⟩

inductive Event
  /-- A verified share is credited to its miner. -/
  | credit (miner : StealthAddress) (share : ShareRecord)
  | job (jobId height : Nat) (proof : JobProof)
  /-- A job is published and the log pruned in memory. -/
  | prune (keepFrom : Nat) (networkTarget : Bytes32) (shareBits windowBlocks : Nat)
      (firstRecentJob : Option Nat) (jobId : Nat)
  /-- The `i`th pending prune is made on disk. -/
  | pruneDb (i : Nat)
  /-- The pool stops and loads its log again. -/
  | restart

variable [Primitives]

def step (p : PoolStore) : Event → Option PoolStore
  | .credit miner share =>
    let (log, db) := p.log.append p.db miner { share with owner := ownerOf (addrKey miner) }
    some { p with db := db, log := log }
  | .job jobId height proof => some { p with db := storeJobProof p.db jobId height proof }
  | .prune keepFrom networkTarget shareBits windowBlocks firstRecentJob jobId =>
    let size := windowSize networkTarget shareBits windowBlocks
    let (log, first, owners) := p.log.prune keepFrom (satMul128 size 4)
    let job := ((log.firstJob.toList ++ firstRecentJob.toList).min?).getD jobId
    some { p with log := log, pending := p.pending ++ [⟨first, job, owners⟩] }
  | .pruneDb i =>
    p.pending[i]?.map fun due =>
      { p with
        db := Midwimble.pruneDb p.db due.firstKept due.firstJob due.owners
        pending := p.pending.eraseIdx i }
  | .restart => (ShareLog.load p.db).toOption.map fun log => ⟨p.db, log, []⟩

/-- A property of every store that a list of events leads through. -/
def Along (P : PoolStore → Prop) : PoolStore → List Event → Prop
  | p, [] => P p
  | p, event :: events => P p ∧ ∀ next ∈ p.step event, Along P next events

end PoolStore

end Midwimble
