import Mathlib.Data.Fin.VecNotation
import Midwimble.Core.Database

namespace Midwimble
set_option autoImplicit true

/-- A block as the database's height-indexed tables tell it. -/
structure BlockRecord where
  height : Nat
  /-- The block's hash. -/
  hash : Bytes32
  timestamp : Nat
  /-- The bond that signed it, if any. -/
  signer : Option Bytes32
  /-- What it minted, if that was recorded. -/
  minted : Option Nat
  deriving DecidableEq

/-- The entries up to the first gap between their heights. -/
def upToGap : List (Nat × α) → List (Nat × α)
  | a :: b :: rest => if a.1 + 1 = b.1 then a :: upToGap (b :: rest) else [a]
  | entries => entries

namespace Database

/-- The record of a stored header. -/
def recordOf (db : Database) (height : Nat) (header : BatchHeader) : BlockRecord where
  height := height
  hash := header.extension.finalHash
  timestamp := header.timestamp
  signer := db.signers[height]?.getD header.signer
  minted := db.subsidy[height]?

/-- The records of the stored headers in `start..start + count`, oldest first: from the first
stored header in that range up to the next gap. -/
def blockRecords (db : Database) (start count : Nat) : List BlockRecord :=
  (upToGap (db.headers.toList.filter fun p => start ≤ p.1 ∧ p.1 < satAdd64 start count)).map
    fun p => db.recordOf p.1 p.2

end Database

namespace Burn

/-- Blocks of margin read below the first block found stamped at or after the switch. -/
def switchMargin : Nat := 24 * 60

/-- Blocks read from storage per transaction while catching up. -/
def readChunk : Nat := 4096

/-- Hashes kept of the newest rows, to spot a reorg by. -/
def reorgHashes : Nat := 2048

def day : Nat := 24 * 60 * 60

/-- The leaderboard's periods, by how far back from the tip's timestamp each reaches: all of
it, a week, a day. -/
def periods : Fin 3 → Nat := ![u64Max, 7 * day, day]

/-- A row's `minted` when this node keeps no record of the block. -/
def unknown : Nat := u64Max

/-- A row's `signer` when nobody signed the block. -/
def unsigned : Nat := 2 ^ 32 - 1

/-- One block, as the tracker counts it. -/
structure Row where
  timestamp : Nat
  /-- What consensus let it mint, or `unknown`. -/
  minted : Nat
  /-- Its signer's place among the tracker's ids, or `unsigned`. -/
  signer : Nat
  deriving DecidableEq

/-- Whether the taper could apply to it. -/
def Row.counted (r : Row) : Bool := r.timestamp ≥ launchEarlyBondsUntil

/-- Sums over some blocks. -/
structure Tally where
  blocks : Nat
  signed : Nat
  /-- Blocks that withheld anything. -/
  tapered : Nat
  scheduled : Nat
  minted : Nat
  withheld : Nat
  /-- Blocks this node has no subsidy record for. -/
  unknown : Nat
  deriving DecidableEq

namespace Tally

def zero : Tally := ⟨0, 0, 0, 0, 0, 0, 0⟩

/-- Counts a block that was scheduled `scheduled` and minted `minted`. -/
def add (t : Tally) (scheduled minted : Nat) (signed : Bool) : Tally :=
  let t := { t with blocks := t.blocks + 1, signed := t.signed + signed.toNat }
  if minted = Burn.unknown then { t with unknown := t.unknown + 1 }
  else
    let withheld := scheduled - minted
    { t with
      scheduled := t.scheduled + scheduled
      minted := t.minted + minted
      withheld := t.withheld + withheld
      tapered := t.tapered + (decide (withheld > 0)).toNat }

end Tally

/-- One bond's sums, per period, and its run of over-cap blocks. -/
structure BondTally where
  periods : Fin 3 → Tally
  /-- Its latest blocks in a row that withheld something. -/
  streak : Nat
  longestStreak : Nat
  lastSigned : Nat
  deriving DecidableEq

def BondTally.zero : BondTally := ⟨fun _ => .zero, 0, 0, 0⟩

/-- Everything the report is built from. -/
structure Sums where
  network : Fin 3 → Tally
  /-- Period start times. -/
  since : Fin 3 → Nat
  /-- By signer index. -/
  bonds : Std.ExtTreeMap Nat BondTally
  /-- By UTC day and by thousand blocks. -/
  days : Std.ExtTreeMap Nat Tally
  kblocks : Std.ExtTreeMap Nat Tally
  firstCounted : Option Nat

/-- Whether a block stamped `timestamp` falls in period `p` of a chain whose tip is stamped
`tipTimestamp`. -/
def within (tipTimestamp timestamp : Nat) (p : Fin 3) : Bool :=
  periods p = u64Max || satAdd64 timestamp (periods p) > tipTimestamp

/-- The periods' sums with a block counted in those it falls in. -/
def addWithin (tipTimestamp offered : Nat) (signed : Bool) (row : Row)
    (tallies : Fin 3 → Tally) : Fin 3 → Tally := fun p =>
  if within tipTimestamp row.timestamp p then (tallies p).add offered row.minted signed
  else tallies p

/-- A bond's sums with a block it signed at `height`. -/
def BondTally.add (b : BondTally) (tipTimestamp offered height : Nat) (row : Row) : BondTally :=
  let tapered := row.minted ≠ unknown ∧ row.minted < offered
  let streak := if tapered then b.streak + 1 else 0
  { periods := addWithin tipTimestamp offered true row b.periods
    streak := streak
    longestStreak := if tapered then max b.longestStreak streak else b.longestStreak
    lastSigned := height }

/-- Counts one row, the block at `height`. -/
def Sums.add (tipTimestamp : Nat) (scheduled : Nat → Nat) (s : Sums) (row : Row)
    (height : Nat) : Sums :=
  let offered := scheduled height
  let signed : Bool := row.signer ≠ unsigned
  let bucket (m : Std.ExtTreeMap Nat Tally) (k : Nat) :=
    m.insert k ((m[k]?.getD Tally.zero).add offered row.minted signed)
  { s with
    firstCounted := some (s.firstCounted.getD height)
    network := addWithin tipTimestamp offered signed row s.network
    days := bucket s.days (row.timestamp / day * day)
    kblocks := bucket s.kblocks (height / 1000 * 1000)
    bonds :=
      if signed then s.bonds.insert row.signer
        ((s.bonds[row.signer]?.getD BondTally.zero).add tipTimestamp offered height row)
      else s.bonds }

/-- Before any row. -/
def Sums.new (tipTimestamp : Nat) : Sums where
  network := fun _ => .zero
  since := fun p =>
    if periods p = u64Max then launchEarlyBondsUntil
    else max (tipTimestamp - periods p) launchEarlyBondsUntil
  bonds := ∅
  days := ∅
  kblocks := ∅
  firstCounted := none

/-- Sums `rows`, the blocks from height `start` on, counting only those stamped at or after
the switch, each block's subsidy from `scheduled`. -/
def sum (rows : List Row) (start tipTimestamp : Nat) (scheduled : Nat → Nat) : Sums :=
  (rows.zipIdx.filter fun p => p.1.counted).foldl
    (fun s p => s.add tipTimestamp scheduled p.1 (start + p.2)) (.new tipTimestamp)

/-- What the bonds' sums of a period withheld together. -/
def Sums.bondsWithheld (s : Sums) (p : Fin 3) : Nat :=
  OrderedMap.valueSum (fun b => (b.periods p).withheld) s.bonds

end Burn

/-- The tracker's state: one row per block from a little before the switch. -/
structure BurnIndex where
  /-- The height of the first row. -/
  start : Nat
  rows : List Burn.Row
  /-- The hashes of the newest rows, oldest first. -/
  hashes : List Bytes32
  /-- Signers' bond ids by the index rows hold, and the way back. -/
  ids : List Bytes32
  index : Std.ExtTreeMap Bytes32 Nat
  deriving DecidableEq

namespace BurnIndex

def default : BurnIndex := ⟨0, [], [], [], ∅⟩

/-- The height after the last row. -/
def «end» (b : BurnIndex) : Nat := b.start + b.rows.length

/-- The index of a signer, which a new one is given. -/
def signer (b : BurnIndex) (id : Option Bytes32) : Nat × BurnIndex :=
  match id with
  | none => (Burn.unsigned, b)
  | some id =>
    match b.index[id]? with
    | some i => (i, b)
    | none =>
      let i := b.ids.length % 2 ^ 32
      (i, { b with ids := b.ids ++ [id], index := b.index.insert id i })

/-- Adds a row for a record read. -/
def push (b : BurnIndex) (r : BlockRecord) : BurnIndex :=
  let (signer, b) := b.signer r.signer
  let hashes := b.hashes ++ [r.hash]
  { b with
    rows := b.rows ++ [⟨r.timestamp, r.minted.getD Burn.unknown, signer⟩]
    hashes := if hashes.length > Burn.reorgHashes then hashes.tail else hashes }

/-- Takes the newest row off. -/
def pop (b : BurnIndex) : BurnIndex :=
  { b with rows := b.rows.dropLast, hashes := b.hashes.dropLast }

end BurnIndex

/-- Where a call of `sync` stands: in the loop that drops rows, in the bisection of
`first_past_switch`, in the loop that reads blocks, or returned. -/
inductive SyncPhase
  | dropping
  | bisecting (lo hi : Nat)
  | reading
  | done
  deriving DecidableEq

/-- The tracker and the call of `sync` that runs on it. -/
structure BurnSync where
  index : BurnIndex
  tip : Nat
  phase : SyncPhase
  deriving DecidableEq

namespace BurnSync

/-- One turn of the loop that drops rows the chain no longer has. -/
def drop (s : BurnSync) (db : Database) : BurnSync :=
  if s.index.rows = [] then { s with phase := .bisecting 1 (max s.tip 1) }
  else match s.index.hashes.getLast? with
    -- Replaced deeper than the hashes kept: start again.
    | none => { s with index := .default }
    | some hash =>
      let last := s.index.end - 1
      if last < s.tip ∧ (db.loadHeader last).any (fun h => h.extension.finalHash = hash) then
        { s with phase := .reading }
      else { s with index := s.index.pop }

/-- One turn of the bisection for the lowest height stamped at or after the switch, and from
there where the rows start. -/
def bisect (s : BurnSync) (db : Database) (lo hi : Nat) : BurnSync :=
  if lo < hi then
    let mid := lo + (hi - lo) / 2
    let past := (db.loadHeader mid).any fun h => h.timestamp ≥ launchEarlyBondsUntil
    { s with phase := if past then .bisecting lo mid else .bisecting (mid + 1) hi }
  else
    { s with
      index := { s.index with start := max (lo - Burn.switchMargin) 1, hashes := [] }
      phase := .reading }

/-- The records the next turn of the reading loop reads. -/
def records (s : BurnSync) (db : Database) : List BlockRecord :=
  db.blockRecords s.index.end (min (s.tip - s.index.end) Burn.readChunk)

/-- One turn of the loop that reads blocks. -/
def read (s : BurnSync) (db : Database) : BurnSync :=
  let next := s.index.end
  if next < s.tip then
    match s.records db with
    | [] =>
      -- Not committed yet: the next sync reads it.
      if s.index.rows ≠ [] then { s with phase := .done }
      -- Nothing stored here: below a checkpoint. Look further up.
      else { s with index := { s.index with start := satAdd64 next Burn.readChunk } }
    | first :: rest =>
      if first.height ≠ next ∧ s.index.rows ≠ [] then { s with phase := .done }
      else
        let start := if first.height ≠ next then first.height else s.index.start
        { s with index := (first :: rest).foldl .push { s.index with start := start } }
  else { s with phase := .done }

/-- One turn of whichever loop the call is in, with at most one read transaction. -/
def step (s : BurnSync) (db : Database) : BurnSync :=
  match s.phase with
  | .dropping => s.drop db
  | .bisecting lo hi => s.bisect db lo hi
  | .reading => s.read db
  | .done => s

end BurnSync

/-- A new call of `sync` for the chain of height `tip`. -/
def BurnIndex.sync (b : BurnIndex) (tip : Nat) : BurnSync := ⟨b, tip, .dropping⟩

/-- The database, the chain committed to it, and the tracker reading it. -/
structure BurnNode where
  db : Database
  chain : List Batch
  tracker : BurnSync

namespace BurnNode

inductive Event
  /-- A call of `commit_chain`. -/
  | commit (firstHeight : Nat) (batches : List Batch) (effects : List BlockEffects)
      (state : State)
  /-- A call of `sync`, once the one before has returned. -/
  | sync (tip : Nat)
  /-- The next turn of the call that runs. -/
  | turn

/-- The blocks an event commits. -/
def Event.blocks : Event → List Batch
  | .commit _ batches _ _ => batches
  | _ => []

variable [Primitives]

def step (node : BurnNode) : Event → BurnNode
  | .commit firstHeight batches effects state =>
    match node.db.commitChain firstHeight batches effects state with
    | .ok db => { node with db := db, chain := node.chain.take firstHeight ++ batches }
    | .error _ => node
  | .sync tip =>
    if node.tracker.phase = .done then { node with tracker := node.tracker.index.sync tip }
    else node
  | .turn => { node with tracker := node.tracker.step node.db }

def run (node : BurnNode) (events : List Event) : BurnNode := events.foldl step node

end BurnNode

end Midwimble
