import Mathlib.Data.List.Destutter
import Mathlib.Data.Prod.Lex
import Mathlib.Order.Interval.Finset.Nat
import Midwimble.Core.Snapshot
import Midwimble.Lib.KeySort
import Std.Data.ExtTreeMap

namespace Midwimble
set_option autoImplicit true

/-- Most anchor records a node keeps. -/
def maxRecords : Nat := 256

structure FinalityConfig where
  /-- Blocks required after the checkpoint. -/
  finalityDepth : Nat
  /-- Finalized checkpoints whose past state stays derivable. -/
  retainedCheckpoints : Nat
  /-- Delete block bodies below the floor. -/
  prune : Bool

/-- A checkpoint published in midstate, its evidence verified. -/
structure AnchorRecord where
  checkpoint : Checkpoint
  deriving DecidableEq

inductive FinalityTracker.Standing
  /-- Matches this chain and is deep enough. -/
  | final
  /-- Matches this chain but is not deep enough yet. -/
  | pending
  /-- Contradicts this chain. -/
  | conflict
  /-- Beyond this node's tip. -/
  | ahead
  deriving DecidableEq

structure FinalityInfo where
  /-- No block below this height may be rewritten. -/
  floor : Nat
  checkpointId : Option Bytes32
  /-- Undo records are kept from this height. -/
  retainFrom : Nat
  /-- Block bodies below this height have been deleted. -/
  prunedBelow : Nat
  deriving DecidableEq

def FinalityInfo.default : FinalityInfo := ⟨0, none, 2 ^ 64 - 1, 0⟩

/-- Where a checkpoint-synced database begins. -/
structure SnapshotBase where
  height : Nat
  /-- Chain MMR peaks over the blocks below the base's tip. -/
  mmrPeaks : List Bytes32
  checkpoint : Checkpoint
  deriving DecidableEq

/-- The tables a checkpoint is held against. -/
structure ChainTables where
  headers : Nat → Option BatchHeader
  /-- Cumulative work up to and including each block, where it was recorded. -/
  depths : Nat → Option Nat
  base : Option SnapshotBase

/-- The headers of a range of heights, those that are stored. -/
def ChainTables.loadHeaders (tables : ChainTables) (start count : Nat) : List BatchHeader :=
  (List.range' start count).filterMap tables.headers

structure FinalityTracker where
  cfg : FinalityConfig
  /-- Verified records by checkpoint id. -/
  records : Std.ExtTreeMap Bytes32 AnchorRecord
  /-- Heights of finalized checkpoints, oldest first. -/
  finalized : List (Nat × Bytes32)
  floor : Nat
  /-- The chain height at the last refresh. -/
  tip : Nat

/-- `Iterator::max_by_key` on heights: the last of the highest. -/
def lastHighest : List (Nat × Bytes32) → Option (Nat × Bytes32)
  | [] => none
  | c :: cs => some (cs.foldl (fun best c => if c.1 ≥ best.1 then c else best) c)

/-- The order of the byte tuples a record is dropped by. -/
def evictionOrder (e : Bool × Nat × Bytes32) : Bool ×ₗ Nat ×ₗ Nat :=
  toLex (e.1, toLex (e.2.1, e.2.2.toNat))

def finalizedOrder (e : Nat × Bytes32) : Nat ×ₗ Nat := toLex (e.1, e.2.toNat)

namespace FinalityTracker

def new (cfg : FinalityConfig) (info : FinalityInfo) : FinalityTracker where
  cfg := cfg
  records := ∅
  finalized := (info.checkpointId.map fun id => [(info.floor, id)]).getD []
  floor := info.floor
  tip := info.floor

/-- The ids of finalized checkpoints, which are never dropped. -/
def retained (t : FinalityTracker) : List Bytes32 := t.finalized.map Prod.snd

/-- Beyond the tip the highest first, otherwise the lowest first. -/
def evictionKey (t : FinalityTracker) (id : Bytes32) (record : AnchorRecord) :
    Bool × Nat × Bytes32 :=
  let h := record.checkpoint.mwHeight
  if h > t.tip then (false, 2 ^ 64 - 1 - h, id) else (true, h, id)

/-- The records that may be dropped, each by its place in the order. -/
def evictable (t : FinalityTracker) : List (Bool × Nat × Bytes32) :=
  (t.records.toList.filter fun (id, _) => id ∉ t.retained).map fun (id, r) => t.evictionKey id r

def evict (t : FinalityTracker) : FinalityTracker :=
  if t.records.size ≤ maxRecords then t
  else
    let order := KeySort.sortBy evictionOrder t.evictable
    let excess := t.records.size - maxRecords
    { t with
      records := (order.take excess).foldl (fun records e => records.erase e.2.2) t.records }

variable [Primitives]

/-- Keeps a record whose evidence the caller verified. -/
def insertVerified (t : FinalityTracker) (record : AnchorRecord) : FinalityTracker :=
  let id := record.checkpoint.id
  if id ∈ t.records then t else evict { t with records := t.records.insert id record }

/-- How a checkpoint relates to this node's chain. -/
def standing (t : FinalityTracker) (record : AnchorRecord) (tables : ChainTables) (state : State) :
    Standing :=
  let cp := record.checkpoint
  let h := cp.mwHeight
  if h = 0 ∨ h > state.height then .ahead
  else
    match tables.headers (h - 1) with
    | none => if tables.base.any fun b => b.checkpoint = cp then .final else .ahead
    | some ours =>
      if ours.extension.finalHash ≠ cp.mwHeaderHash ∨ ours.stateRoot ≠ cp.mwStateRoot then .conflict
      else
        let onWork (work : Nat) : Standing :=
          if work ≠ cp.mwCumulativeWork then .conflict
          else if state.height - h ≥ t.cfg.finalityDepth then .final else .pending
        match tables.depths (h - 1) with
        | some work => onWork work
        | none =>
          let after := tables.loadHeaders h (state.height - h)
          if after.length ≠ state.height - h then .pending
          else
            let workAfter := after.foldl (fun acc x => satAdd128 acc (calculateWork x.target)) 0
            if state.depth < workAfter then .conflict else onWork (state.depth - workAfter)

/-- Recomputes the floor. Returns the new bookkeeping if it rose. -/
def refresh (t : FinalityTracker) (tables : ChainTables) (finality : FinalityInfo)
    (state : State) : FinalityTracker × Option FinalityInfo :=
  let t := { t with tip := state.height }
  let standings := t.records.toList.map fun (id, record) =>
    (id, record.checkpoint.mwHeight, t.standing record tables state)
  let stale := (standings.filter fun (id, h, s) =>
    h ≤ t.floor ∧ s ≠ .conflict ∧ id ∉ t.retained).map Prod.fst
  let t := { t with records := t.records.filter fun id _ => id ∉ stale }
  let standings := standings.filter fun (id, _, _) => id ∉ stale
  let lowestConflict :=
    ((standings.filter fun (_, _, s) => s = .conflict).map fun (_, h, _) => h).min?.getD
      (2 ^ 64 - 1)
  let candidates := (standings.filter fun (_, h, s) => s = .final ∧ h < lowestConflict).map
    fun (id, h, _) => (h, id)
  match lastHighest candidates with
  | none => (t, none)
  | some (height, id) =>
    if height ≤ t.floor then (t, none)
    else
      let finalized := (KeySort.sortBy finalizedOrder (t.finalized ++ [(height, id)])).destutter
        (· ≠ ·)
      let finalized := finalized.drop (finalized.length - max t.cfg.retainedCheckpoints 1)
      let retainFrom := ((finalized.map Prod.fst).min?).getD height
      ({ t with floor := height, finalized := finalized },
        some { finality with floor := height, checkpointId := some id, retainFrom := retainFrom })

end FinalityTracker

/-- A `prune_bodies_below` on its own thread, and the record it has read, if it has. -/
structure PruneJob where
  height : Nat
  read : Option FinalityInfo

/-- What a node keeps of finality: on disk, in its tracker, and on the way between the two. -/
structure FinalityNode where
  stored : FinalityInfo
  /-- Heights whose block bodies are on disk. -/
  bodies : Finset Nat
  base : Option SnapshotBase
  tracker : FinalityTracker
  /-- What a refresh is about to record. -/
  setting : Option FinalityInfo
  jobs : List PruneJob

/-- The second half of `prune_bodies_below`: its write, made from the record it read. -/
def FinalityNode.pruneBodies (node : FinalityNode) (height : Nat) (finality : FinalityInfo) :
    FinalityNode :=
  let height := min height finality.floor
  { node with
    bodies := node.bodies.filter (height ≤ ·)
    stored := { finality with prunedBelow := max finality.prunedBelow height } }

namespace FinalityNode

/-- A node started on what its database says. -/
def start (cfg : FinalityConfig) (info : FinalityInfo) (bodies : Finset Nat)
    (base : Option SnapshotBase) : FinalityNode where
  stored := info
  bodies := bodies
  base := base
  tracker := .new cfg info
  setting := none
  jobs := []

/-- `commit_chain` does not refuse to write from a height on. -/
def Accepts (node : FinalityNode) (firstHeight : Nat) : Prop :=
  node.stored.floor ≤ firstHeight ∧ ∀ b ∈ node.base, b.height ≤ firstHeight

instance (node : FinalityNode) (firstHeight : Nat) : Decidable (node.Accepts firstHeight) :=
  inferInstanceAs (Decidable (_ ∧ _))

inductive Event
  | insert (record : AnchorRecord)
  /-- `refresh` reads the stored record and works out the next. -/
  | refresh (tables : ChainTables) (state : State)
  /-- `set_finality` records it, and a prune is started. -/
  | set
  /-- `commit_chain` writes some blocks. -/
  | commit (firstHeight count : Nat)
  /-- The `i`th prune reads the stored record. -/
  | read (i : Nat)
  /-- The `i`th prune writes. -/
  | write (i : Nat)

variable [Primitives]

/-- One step of the event loop or of a prune; the loop does nothing else before it has recorded
what a refresh worked out. -/
def step (node : FinalityNode) : Event → Option FinalityNode
  | .insert record =>
    if node.setting.isSome then none
    else some { node with tracker := node.tracker.insertVerified record }
  | .refresh tables state =>
    if node.setting.isSome then none
    else
      let (tracker, info) := node.tracker.refresh tables node.stored state
      some { node with tracker := tracker, setting := info }
  | .set => node.setting.map fun info =>
    { node with
      stored := info
      setting := none
      jobs := if node.tracker.cfg.prune then node.jobs ++ [⟨info.floor, none⟩] else node.jobs }
  | .commit firstHeight count =>
    if node.setting.isSome ∨ ¬ node.Accepts firstHeight then none
    else some { node with
      bodies := node.bodies.filter (· < firstHeight) ∪ Finset.Ico firstHeight (firstHeight + count) }
  | .read i => node.jobs[i]?.map fun job =>
    { node with jobs := node.jobs.set i { job with read := some node.stored } }
  | .write i => do
    let job ← node.jobs[i]?
    let finality ← job.read
    some { node.pruneBodies job.height finality with jobs := node.jobs.eraseIdx i }

end FinalityNode

end Midwimble
