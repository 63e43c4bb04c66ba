import Midwimble.Core.Orphan
import Midwimble.Core.Reads
import Midwimble.Core.Wallet
import Midwimble.Lib.Traces

namespace Midwimble
open OrderedMap
set_option autoImplicit true

/-- Blocks of history kept for unwinding a reorg. -/
def reorgLog : Nat := 2048

/-- What one block added to the index. -/
structure BlockLog where
  height : Nat
  hash : Bytes32
  created : List Point32
  spent : List Point32
  kernels : List Point32
  registered : List Bytes32
  signer : Option Bytes32
  deriving DecidableEq

/-- Where a chain's outputs, kernels, bonds and blocks are. -/
structure ExplorerIndex where
  next : Nat
  hashes : Std.ExtTreeMap Bytes32 Nat
  created : Std.ExtTreeMap Point32 Nat
  spent : Std.ExtTreeMap Point32 Nat
  kernels : Std.ExtTreeMap Point32 Nat
  registered : Std.ExtTreeMap Bytes32 Nat
  /-- Heights of the blocks a bond signed, ascending. -/
  signed : Std.ExtTreeMap Bytes32 (List Nat)
  /-- Newest first. -/
  log : List BlockLog

def Batch.createdKeys (b : Batch) : List Point32 := b.created.map fun o => o.1.commitment

def Batch.spentKeys (b : Batch) : List Point32 := b.body.body.inputs.map Input.commitment

def Batch.kernelKeys (b : Batch) : List Point32 :=
  (blockKernels b.body b.coinbase).map Kernel.excess

/-- The heights a bond is known to have signed. -/
def ExplorerIndex.signedBy (idx : ExplorerIndex) (bond : Bytes32) : List Nat :=
  idx.signed[bond]?.getD []

namespace ExplorerIndex

def empty : ExplorerIndex := ⟨0, ∅, ∅, ∅, ∅, ∅, ∅, []⟩

/-- Takes the newest block back out, given its log and the ones before. -/
def unwind (idx : ExplorerIndex) (log : BlockLog) (rest : List BlockLog) : ExplorerIndex where
  next := log.height
  hashes := forget idx.hashes [log.hash] log.height
  created := forget idx.created log.created log.height
  spent := forget idx.spent log.spent log.height
  kernels := forget idx.kernels log.kernels log.height
  registered := forget idx.registered log.registered log.height
  signed := match log.signer with
    | some bond => match idx.signed[bond]? with
      | some heights =>
        if heights.getLast? = some log.height then idx.signed.insert bond heights.dropLast
        else idx.signed
      | none => idx.signed
    | none => idx.signed
  log := rest

/-- The first loop of `sync`: takes out blocks the node no longer stores, newest first; with no
history left, starts over. -/
def unwindReplaced (stored : Nat → Option Bytes32) (idx : ExplorerIndex) :
    List BlockLog → ExplorerIndex
  | [] => if idx.next = 0 then idx else empty
  | log :: rest =>
    if idx.next = 0 ∨ stored (idx.next - 1) = some log.hash then idx
    else (idx.unwind log rest).unwindReplaced stored rest

end ExplorerIndex

namespace Database

/-- The loop of `load_batches` over the rows it reads. -/
def readBatches (size : Batch → Nat) (byteLimit : Nat) :
    (expect bytes : Nat) → (any : Bool) → List (Nat × Batch) → List Batch
  | _, _, _, [] => []
  | expect, bytes, any, (k, b) :: rows =>
    if k ≠ expect ∨ (any ∧ bytes + size b > byteLimit) then []
    else b :: readBatches size byteLimit (expect + 1) (bytes + size b) true rows

/-- Up to `count` consecutive stored blocks from `start`, stopping once the encoded size would pass
`byteLimit` (at least one block if any). -/
def loadBatches (db : Database) (size : Batch → Nat) (start count byteLimit : Nat) : List Batch :=
  readBatches size byteLimit start 0 false
    (db.batches.toList.filter fun p => start ≤ p.1 ∧ p.1 < satAdd64 start count)

/-- How many of the blocks from `height` up to the tip of a chain `tip` blocks long counted in
full, the block at `height` included; none for a block deeper than `limit` or not on the chain. -/
def fullWeightConfirmations (db : Database) (height tip limit : Nat) : Option Nat :=
  if height ≥ tip ∨ tip - height > limit then none
  else some (fullWeightBlocks (db.loadHeaders (height - 1) (tip - (height - 1))) height)

end Database

variable [Primitives]

def Batch.bondKeys (b : Batch) : List Bytes32 := b.registrations.map BondRegistration.bondId

/-- The log of a block. -/
def BlockLog.of (height : Nat) (b : Batch) : BlockLog where
  height := height
  hash := b.extension.finalHash
  created := b.createdKeys
  spent := b.spentKeys
  kernels := b.kernelKeys
  registered := b.bondKeys
  signer := b.signer

namespace ExplorerIndex

def add (idx : ExplorerIndex) (height : Nat) (b : Batch) : ExplorerIndex where
  next := height + 1
  hashes := idx.hashes.insert b.extension.finalHash height
  created := record idx.created b.createdKeys height
  spent := record idx.spent b.spentKeys height
  kernels := record idx.kernels b.kernelKeys height
  registered := record idx.registered b.bondKeys height
  signed := match b.signer with
    | some bond => idx.signed.insert bond (idx.signedBy bond ++ [height])
    | none => idx.signed
  log := (BlockLog.of height b :: idx.log).take reorgLog

/-- The second loop of `sync`: adds the blocks below `tip` as they are read, as far as they are
stored. -/
def addStored (db : Database) (size : Batch → Nat) (tip : Nat) :
    (rounds : Nat) → ExplorerIndex → ExplorerIndex
  | 0, idx => idx
  | rounds + 1, idx =>
    if idx.next < tip then
      match db.loadBatches size idx.next 256 (64 * 2 ^ 20) with
      | [] => idx
      | b :: batches =>
        addStored db size tip rounds
          ((b :: batches).foldl (fun idx b => idx.add idx.next b) idx)
    else idx

/-- Brings the index level with the chain of a node whose tip is `tip` blocks up. -/
def sync (db : Database) (size : Batch → Nat) (tip : Nat) (idx : ExplorerIndex) : ExplorerIndex :=
  let idx := idx.unwindReplaced (fun h => db.batches[h]?.map fun b => b.extension.finalHash) idx.log
  addStored db size tip (tip - idx.next) idx

end ExplorerIndex

end Midwimble
