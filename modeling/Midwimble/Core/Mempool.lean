import Mathlib.Data.List.MinMax
import Midwimble.Core.State
import Std.Data.ExtTreeMap

namespace Midwimble
set_option autoImplicit true

def maxPoolWeight : Nat := 25 * maxBlockWeight
def reorgCacheBlocks : Nat := 128
def minFeePerWeight : Nat := 100

structure Entry where
  tx : Transaction
  fee : Nat
  weight : Nat
  deriving DecidableEq

/-- Fee per weight unit scaled by 2^16. -/
def Entry.rate (e : Entry) : Nat := e.fee * 2 ^ 16 / max e.weight 1

/-- The pool's transactions by hash, and what they spend, create and carry. -/
structure Mempool where
  entries : Std.ExtTreeMap Bytes32 Entry
  spends : Std.ExtTreeMap Point32 Bytes32
  creates : Std.ExtTreeMap Point32 Bytes32
  kernels : Std.ExtTreeMap Bytes32 Bytes32
  totalWeight : Nat

namespace Mempool

variable [Primitives]

def new : Mempool := ⟨∅, ∅, ∅, ∅, 0⟩

/-- Everything the pool would do except insertion, for a transaction whose proofs and signatures
the node verified already. -/
def check (pool : Mempool) (tx : Transaction) (state : State) : Result Unit := do
  Fallible.bailIf (tx.hash ∈ pool.entries) "transaction already in pool"
  tx.validateStructure .relay
  tx.verifySums
  let fee ← tx.fee
  let minFee := min (tx.weight * minFeePerWeight) u64Max
  Fallible.bailIf (fee < minFee)
    s!"fee {fee} below relay minimum {minFee} for weight {tx.weight}"
  Fallible.bailIf (tx.lockHeight > state.height)
    s!"transaction is time-locked until height {tx.lockHeight}"
  Fallible.checkAll (fun c => do
    Fallible.bailIf (c ∈ pool.spends) "input already spent by a pool transaction"
    Fallible.bailIf (c ∈ pool.creates) "spending unconfirmed outputs is not supported")
    tx.inputCommitments
  Fallible.checkAll (fun c =>
    Fallible.bailIf (c ∈ pool.creates) "output commitment already created by a pool transaction")
    tx.outputCommitments
  Fallible.checkAll (fun k => Fallible.bailIf (k ∈ pool.kernels) "kernel already in pool")
    tx.kernelIds
  let _ ← applyBody state tx none 0
  .ok ()

def remove (pool : Mempool) (hash : Bytes32) : Mempool :=
  match pool.entries[hash]? with
  | none => pool
  | some entry =>
    { entries := pool.entries.erase hash
      spends := entry.tx.inputCommitments.foldl (fun m c => m.erase c) pool.spends
      creates := entry.tx.outputCommitments.foldl (fun m c => m.erase c) pool.creates
      kernels := entry.tx.kernelIds.foldl (fun m k => m.erase k) pool.kernels
      totalWeight := pool.totalWeight - entry.weight }

def insert (pool : Mempool) (entry : Entry) : Mempool :=
  let hash := entry.tx.hash
  { entries := pool.entries.insert hash entry
    spends := entry.tx.inputCommitments.foldl (fun m c => m.insert c hash) pool.spends
    creates := entry.tx.outputCommitments.foldl (fun m c => m.insert c hash) pool.creates
    kernels := entry.tx.kernelIds.foldl (fun m k => m.insert k hash) pool.kernels
    totalWeight := pool.totalWeight + entry.weight }

/-- Makes room for an entry, and whether there is room. `fuel` bounds the evictions. -/
def evict (entry : Entry) : (fuel : Nat) → Mempool → Mempool × Bool
  | 0, pool => (pool, pool.totalWeight + entry.weight ≤ maxPoolWeight)
  | fuel + 1, pool =>
    if pool.totalWeight + entry.weight ≤ maxPoolWeight then (pool, true)
    else
      match pool.entries.toList.argmin fun e => e.2.rate with
      | none => (pool, false)
      | some (hash, worst) =>
        if worst.rate < entry.rate then evict entry fuel (pool.remove hash) else (pool, false)

/-- Validates and inserts, and whether it did. Evicts lower-fee-rate transactions if full. -/
def add (pool : Mempool) (tx : Transaction) (state : State) : Mempool × Bool :=
  match pool.check tx state, tx.fee with
  | .ok (), .ok fee =>
    let entry : Entry := ⟨tx, fee, tx.weight⟩
    let (pool, room) := evict entry pool.entries.size pool
    if room then (pool.insert entry, true) else (pool, false)
  | _, _ => (pool, false)

/-- `check` for a transaction whose proofs and signatures nobody verified. -/
def checkUnverified (pool : Mempool) (tx : Transaction) (state : State) : Result Unit := do
  Fallible.bailIf (tx.hash ∈ pool.entries) "transaction already in pool"
  tx.validateStructure .relay
  tx.verifySums
  tx.verifyCrypto
  pool.check tx state

/-- `check`, as `already_validated` says. -/
def checkAs (alreadyValidated : Bool) (pool : Mempool) (tx : Transaction) (state : State) :
    Result Unit :=
  if alreadyValidated then pool.check tx state else pool.checkUnverified tx state

/-- The entries `add` may evict for an entry, one at a time. -/
inductive Evicts (entry : Entry) : Mempool → Mempool → Prop
  | done (pool : Mempool) : Evicts entry pool pool
  | evict {pool pool' : Mempool} (hash : Bytes32) (worst : Entry)
      (full : maxPoolWeight < pool.totalWeight + entry.weight)
      (held : pool.entries[hash]? = some worst)
      (least : ∀ (other : Bytes32) (e : Entry),
        pool.entries[other]? = some e → worst.rate ≤ e.rate)
      (lower : worst.rate < entry.rate)
      (rest : Evicts entry (pool.remove hash) pool') : Evicts entry pool pool'

/-- What `add` may leave, whatever entries of the lowest rate it evicts. -/
inductive Adds (alreadyValidated : Bool) (tx : Transaction) (state : State) (pool : Mempool) :
    Mempool → Prop
  | refused (e : Err) (bad : checkAs alreadyValidated pool tx state = .error e) :
      Adds alreadyValidated tx state pool pool
  | full {pool' : Mempool} (fee : Nat) (ok : checkAs alreadyValidated pool tx state = .ok ())
      (paid : tx.fee = .ok fee) (evicted : Evicts ⟨tx, fee, tx.weight⟩ pool pool')
      (full : maxPoolWeight < pool'.totalWeight + tx.weight)
      (stuck : ∀ (other : Bytes32) (e : Entry), pool'.entries[other]? = some e →
        Entry.rate ⟨tx, fee, tx.weight⟩ ≤ e.rate) : Adds alreadyValidated tx state pool pool'
  | inserted {pool' : Mempool} (fee : Nat)
      (ok : checkAs alreadyValidated pool tx state = .ok ()) (paid : tx.fee = .ok fee)
      (evicted : Evicts ⟨tx, fee, tx.weight⟩ pool pool')
      (room : pool'.totalWeight + tx.weight ≤ maxPoolWeight) :
      Adds alreadyValidated tx state pool (pool'.insert ⟨tx, fee, tx.weight⟩)

/-- Whether a block holds the whole transaction. -/
def mines (batch : Batch) (tx : Transaction) : Bool :=
  !tx.kernelIds.isEmpty && tx.kernelIds.all fun k => k ∈ batch.body.kernelIds

/-- Whether a block holds a part of the transaction or spends an input of it. -/
def dooms (batch : Batch) (tx : Transaction) : Bool :=
  tx.kernelIds.any (fun k => k ∈ batch.body.kernelIds) ||
    tx.inputCommitments.any fun c => c ∈ batch.body.inputCommitments

/-- Whether a transaction could be in the next block after `state` by itself. -/
def applies (state : State) (tx : Transaction) : Bool :=
  tx.lockHeight ≤ state.height && (applyBody state tx none 0).isOk

/-- Drops every transaction that no longer applies on `state`. -/
def revalidate (pool : Mempool) (state : State) : Mempool :=
  let invalid := pool.entries.toList.filter fun e => !applies state e.2.tx
  (invalid.map Prod.fst).foldl remove pool

/-- Updates the pool after `batch` was applied, producing `state`, and returns the transactions
that were mined. -/
def onBlock (pool : Mempool) (batch : Batch) (state : State) : Mempool × List Transaction :=
  let mined := pool.entries.toList.filter fun e => mines batch e.2.tx
  let doomed := pool.entries.toList.filter fun e => !mines batch e.2.tx && dooms batch e.2.tx
  let pool := (mined.map Prod.fst).foldl remove pool
  let pool := (doomed.map Prod.fst).foldl remove pool
  (pool.revalidate state, mined.map fun e => e.2.tx)

/-- A call of one of the pool's public functions. -/
inductive Call
  | add (tx : Transaction) (state : State) (alreadyValidated : Bool)
  | onBlock (batch : Batch) (state : State)
  | revalidate (state : State)

/-- What a call may leave. -/
def Does (pool : Mempool) : Call → Mempool → Prop
  | .add tx state alreadyValidated, pool' => Adds alreadyValidated tx state pool pool'
  | .onBlock batch state, pool' => pool' = (pool.onBlock batch state).1
  | .revalidate state, pool' => pool' = pool.revalidate state

/-- What a sequence of calls may leave, oldest call first. -/
inductive Calls : Mempool → List Call → Mempool → Prop
  | nil (pool : Mempool) : Calls pool [] pool
  | cons {pool next last : Mempool} (call : Call) (calls : List Call)
      (first : Does pool call next) (rest : Calls next calls last) :
      Calls pool (call :: calls) last

end Mempool

/-- Recently mined transactions by the height of their block, oldest first. -/
structure ReorgCache where
  blocks : List (Nat × List Transaction)

namespace ReorgCache

def record (cache : ReorgCache) (height : Nat) (txs : List Transaction) : ReorgCache :=
  if txs.isEmpty then cache
  else
    let blocks := cache.blocks ++ [(height, txs)]
    ⟨blocks.drop (blocks.length - reorgCacheBlocks)⟩

/-- Removes and returns every cached transaction mined at `height` or above. -/
def takeFrom (cache : ReorgCache) (height : Nat) : ReorgCache × List Transaction :=
  let newest := cache.blocks.reverse
  (⟨(newest.dropWhile fun b => b.1 ≥ height).reverse⟩,
    (newest.takeWhile fun b => b.1 ≥ height).flatMap Prod.snd)

end ReorgCache

/-- A node, what its transaction pool goes by. -/
structure PoolNode where
  state : State
  /-- The current chain's blocks by height. -/
  chain : List Batch
  mempool : Mempool
  reorgCache : ReorgCache

namespace PoolNode

variable [Primitives]

/-- A node that starts on a chain. -/
def start (state : State) (chain : List Batch) : PoolNode := ⟨state, chain, .new, ⟨[]⟩⟩

inductive Event
  /-- A verified transaction is offered to the pool. -/
  | submit (tx : Transaction)
  /-- `state` is the result of applying `batch` at the tip. -/
  | adoptBlock (state : State) (batch : Batch)
  /-- `state` is the result of applying `blocks` from height `first`. -/
  | adoptChain (state : State) (first : Nat) (blocks : List Batch) (reorg : Bool)

/-- The blocks from `height` on take what they mine out of the pool into the cache. -/
def mineBlocks (state : State) :
    (height : Nat) → List Batch → Mempool × ReorgCache → Mempool × ReorgCache
  | _, [], acc => acc
  | height, batch :: blocks, (pool, cache) =>
    let (pool, mined) := pool.onBlock batch state
    mineBlocks state (height + 1) blocks (pool, cache.record height mined)

def adoptBlock (p : PoolNode) (state : State) (batch : Batch) : PoolNode :=
  let height := p.chain.length
  let (pool, mined) := p.mempool.onBlock batch state
  ⟨state, p.chain ++ [batch], pool, p.reorgCache.record height mined⟩

def adoptChain (p : PoolNode) (state : State) (first : Nat) (blocks : List Batch) (reorg : Bool) :
    PoolNode :=
  let (cache, restored) := if reorg then p.reorgCache.takeFrom first else (p.reorgCache, [])
  let (pool, cache) := mineBlocks state first blocks (p.mempool, cache)
  let pool := pool.revalidate state
  let pool := restored.foldl (fun pool tx => (pool.add tx state).1) pool
  ⟨state, p.chain.take first ++ blocks, pool, cache⟩

/-- One event; `none` where it cannot happen: blocks that do not build on the chain. -/
def step (p : PoolNode) : Event → Option PoolNode
  | .submit tx => some { p with mempool := (p.mempool.add tx p.state).1 }
  | .adoptBlock state batch => some (p.adoptBlock state batch)
  | .adoptChain state first blocks reorg =>
    if first ≤ p.chain.length ∧ (reorg ∨ first = p.chain.length) then
      some (p.adoptChain state first blocks reorg)
    else none

def run (p : PoolNode) (events : List Event) : Option PoolNode := events.foldlM step p

end PoolNode

end Midwimble
