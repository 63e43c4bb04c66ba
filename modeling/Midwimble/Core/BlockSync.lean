import Mathlib.Data.Finset.Basic
import Mathlib.Data.List.MinMax
import Mathlib.Data.Prod.Lex
import Midwimble.Core.State
import Midwimble.Lib.Window
import Std.Data.ExtTreeMap

namespace Midwimble
open SlidingWindow
set_option autoImplicit true

def maxBatchRequestsInFlight : Nat := 4
def batchLookaheadBlocks : Nat := 64 * 8
def maxBufferBytes : Nat := 64 * 1024 * 1024
def maxGetBatchesCount : Nat := 64
def difficultyLookback : Nat := 60

structure InFlight (Peer : Type) where
  peer : Peer
  count : Nat
  deriving DecidableEq

/-- Downloaded blocks waiting for their turn to be applied. -/
structure Chunk (Peer : Type) where
  source : Peer
  batches : List Batch
  headers : List BatchHeader
  bytes : Nat
  deriving DecidableEq

/-- Block download (from any peer that has the blocks) and application. -/
structure BlockSync (Peer : Type) where
  /-- State after `cursor` blocks; `none` while rebuilding or applying. -/
  candidate : Option State
  timestamps : List Nat
  /-- Next height to apply. -/
  cursor : Nat
  /-- The state and the chunk that the background task applies. -/
  applying : Option (State × Chunk Peer)
  /-- The fork-point state is being derived. -/
  rebuilding : Bool
  buffer : Std.ExtTreeMap Nat (Chunk Peer)
  bufferedBytes : Nat
  inFlight : Std.ExtTreeMap Nat (InFlight Peer)
  /-- Ranges to request again, as start and count. -/
  retry : List (Nat × Nat)
  nextRequest : Nat
  /-- Peers not to ask again this session. -/
  excluded : Finset Peer

/-- A sync session in its block phase. -/
structure SyncSession (Peer : Type) where
  /-- The peer whose chain we are adopting. -/
  peer : Peer
  /-- Every header below this height is verified. -/
  verifiedTo : Nat
  blocks : BlockSync Peer

namespace BlockSync

variable {Peer : Type}

def new (fork : Nat) (timestamps : List Nat) (candidate : Option State) : BlockSync Peer :=
  ⟨candidate, timestamps, fork, none, candidate.isNone, ∅, 0, ∅, [], fork, ∅⟩

/-- Takes the chunk at `k` out of the buffer. -/
def removeChunk (b : BlockSync Peer) (k : Nat) : BlockSync Peer :=
  match b.buffer[k]? with
  | some c => { b with buffer := b.buffer.erase k, bufferedBytes := b.bufferedBytes - c.bytes }
  | none => b

/-- Gives up the request for the blocks from `k` on. -/
def requeue (b : BlockSync Peer) (k : Nat) : BlockSync Peer :=
  match b.inFlight[k]? with
  | some f => { b with inFlight := b.inFlight.erase k, retry := b.retry ++ [(k, f.count)] }
  | none => b

def dropBehindLoop : List (Nat × Chunk Peer) → BlockSync Peer → BlockSync Peer
  | [], b => b
  | (k, c) :: rest, b =>
    if k + c.batches.length > b.cursor then b else dropBehindLoop rest (b.removeChunk k)

/-- Drops chunks entirely behind the cursor. -/
def dropBehind (b : BlockSync Peer) : BlockSync Peer := dropBehindLoop b.buffer.toList b

/-- Hands the chunk at `k`, from the cursor on, to the background task. -/
def apply (b : BlockSync Peer) (state : State) (k : Nat) (chunk : Chunk Peer) : BlockSync Peer :=
  let skip := b.cursor - k
  { b.removeChunk k with
    candidate := none
    applying := some (state,
      { chunk with batches := chunk.batches.drop skip, headers := chunk.headers.drop skip }) }

def tryApplyNext (b : BlockSync Peer) : BlockSync Peer :=
  match b.applying, b.candidate with
  | none, some state =>
    let b := b.dropBehind
    match b.buffer.toList.head? with
    | none => b
    | some (k, chunk) => if k > b.cursor then b else b.apply state k chunk
  | _, _ => b

/-- The range to ask for next: one to ask for again, else the next one never asked for. -/
def nextRange (b : BlockSync Peer) (verifiedTo : Nat) : Option ((Nat × Nat) × BlockSync Peer) :=
  match b.retry with
  | r :: rest => some (r, { b with retry := rest })
  | [] =>
    let lookahead := min (b.cursor + batchLookaheadBlocks) (2 ^ 64 - 1)
    if b.nextRequest ≥ verifiedTo ∨ b.nextRequest ≥ lookahead then none
    else
      let count := min (verifiedTo - b.nextRequest) maxGetBatchesCount
      some ((b.nextRequest, count), { b with nextRequest := b.nextRequest + count })

variable [DecidableEq Peer]

/-- The request for the blocks from `k` on timed out. -/
def expire (session : Peer) (b : BlockSync Peer) (k : Nat) : BlockSync Peer :=
  match b.inFlight[k]? with
  | some f =>
    let b := b.requeue k
    if f.peer = session then b else { b with excluded := insert f.peer b.excluded }
  | none => b

def load (b : BlockSync Peer) (p : Peer) : Nat :=
  (b.inFlight.toList.filter fun e => e.2.peer = p).length

/-- Whom to ask for the blocks of `range`. `tips` are the connected peers' heights. -/
def pickPeer (b : BlockSync Peer) (tips : List (Peer × Nat)) (session : Peer)
    (range : Nat × Nat) : Peer :=
  let able := tips.filter fun t => t.2 ≥ range.1 + range.2 ∧ t.1 ∉ b.excluded
  let candidates := able.map Prod.fst
  let candidates := if session ∈ candidates then candidates else candidates ++ [session]
  (candidates.argmin fun p => toLex (b.load p, decide (p ≠ session))).getD session

def send (b : BlockSync Peer) (peer : Peer) (range : Nat × Nat) : BlockSync Peer :=
  { b with inFlight := b.inFlight.insert range.1 ⟨peer, range.2⟩ }

/-- The loop of `scheduleBatchRequests`: `fuel` bounds its rounds. -/
def scheduleLoop (tips : List (Peer × Nat)) (session : Peer) (verifiedTo : Nat) :
    (fuel : Nat) → BlockSync Peer → BlockSync Peer
  | 0, b => b
  | fuel + 1, b =>
    if b.inFlight.size < maxBatchRequestsInFlight ∧ b.bufferedBytes < maxBufferBytes then
      match b.nextRange verifiedTo with
      | none => b
      | some (range, b) =>
        scheduleLoop tips session verifiedTo fuel (b.send (b.pickPeer tips session range) range)
    else b

/-- Every round takes a range off the queue or heights never asked for. -/
def rounds (b : BlockSync Peer) (verifiedTo : Nat) : Nat :=
  b.retry.length + (verifiedTo - b.nextRequest)

/-- After a chunk of a peer other than the session's turned out invalid: drops that peer's
data and asks for it elsewhere. -/
def refetch (b : BlockSync Peer) (source : Peer) (verifiedTo : Nat) : BlockSync Peer :=
  let theirs := b.buffer.toList.filter fun e => e.2.source = source
  let b := theirs.foldl
    (fun b e => { b.removeChunk e.1 with retry := b.retry ++ [(e.1, e.2.batches.length)] })
    { b with excluded := insert source b.excluded }
  let nextKey := (b.buffer.toList.head?.map Prod.fst).getD (2 ^ 64 - 1)
  let count := min (min nextKey verifiedTo - b.cursor) maxGetBatchesCount
  if count > 0 then { b with retry := (b.cursor, count) :: b.retry } else b

end BlockSync

section Apply

variable [Primitives]

/-- What the background task returns. -/
structure Applied where
  state : State
  timestamps : List Nat
  applied : Nat
  error : Option Err

/-- The background task: applies blocks until one is invalid. -/
def applyChunk (now : Nat) : List (Batch × BatchHeader) → State → List Nat → Applied
  | [], state, ts => ⟨state, ts, 0, none⟩
  | (batch, header) :: rest, state, ts =>
    if header.height ≠ state.height then
      ⟨state, ts, 0, some s!"header {header.height} would apply at height {state.height}"⟩
    else
      match applyBatchSkipPow state batch ts now (computeHeaderHash header) with
      | .error e => ⟨state, ts, 0, some (.context s!"block {header.height} invalid" e)⟩
      | .ok next =>
        let later := applyChunk now rest next (lastN difficultyLookback (ts ++ [batch.timestamp]))
        { later with applied := later.applied + 1 }

end Apply

namespace SyncSession

inductive Event (Peer : Type)
  /-- A peer's answer. `stored` are the verified headers from `start` on. -/
  | batches (peer : Peer) (start : Nat) (batches : List Batch) (stored : List BatchHeader)
  /-- The background task is done. -/
  | applied (now : Nat)
  /-- The fork-point state is derived. -/
  | forkState (state : State)
  /-- More headers are verified. -/
  | verified (count : Nat)
  /-- Requests time out, in any order, or peers report new tips. -/
  | tick (expired : List Nat)
  /-- A peer is gone: `lost` are its requests, in any order. -/
  | unavailable (peer : Peer) (lost : List Nat)

variable {Peer : Type} [DecidableEq Peer]

def matchesHeaders (batches : List Batch) (expected : List BatchHeader) : Bool :=
  expected.length = batches.length ∧
    ∀ e ∈ batches.zip expected, e.1.extension = e.2.extension ∧ e.1.auxPow = e.2.auxPow

/-- Blocks that are missing or not those of the verified headers. -/
def refuse (s : SyncSession Peer) (peer : Peer) (range : Nat × Nat) : Option (SyncSession Peer) :=
  if peer = s.peer then none
  else
    some { s with
      blocks.retry := s.blocks.retry ++ [range]
      blocks.excluded := insert peer s.blocks.excluded }

/-- Buffers an answer to a request for `count` blocks. -/
def accept (serializedSize : Batch → Nat) (b : BlockSync Peer) (peer : Peer) (start count : Nat)
    (batches : List Batch) (headers : List BatchHeader) : BlockSync Peer :=
  let got := batches.length
  let bytes := (batches.map serializedSize).sum
  { b with
    retry := if got < count then (start + got, count - got) :: b.retry else b.retry
    bufferedBytes := b.bufferedBytes + bytes
    buffer := b.buffer.insert start ⟨peer, batches, headers, bytes⟩ }

def onBatches (serializedSize : Batch → Nat) (s : SyncSession Peer) (peer : Peer) (start : Nat)
    (batches : List Batch) (stored : List BatchHeader) : Option (SyncSession Peer) :=
  match s.blocks.inFlight[start]? with
  | none => some s
  | some req =>
    if req.peer ≠ peer then some s
    else
      let b := { s.blocks with inFlight := s.blocks.inFlight.erase start }
      let batches := batches.take req.count
      let expected := stored.take batches.length
      if batches.isEmpty ∨ ¬ matchesHeaders batches expected then
        refuse { s with blocks := b } peer (start, req.count)
      else
        some { s with
          blocks :=
            (accept serializedSize b peer start req.count batches expected).tryApplyNext }

variable [Primitives]

/-- What the background task returns for the chunk it was given. -/
def outcome (s : SyncSession Peer) (now : Nat) (state : State) (chunk : Chunk Peer) : Applied :=
  applyChunk now (chunk.batches.zip chunk.headers) state s.blocks.timestamps

def onBatchesApplied (s : SyncSession Peer) (now : Nat) : Option (SyncSession Peer) :=
  match s.blocks.applying with
  | none => none
  | some (state, chunk) =>
    let done := s.outcome now state chunk
    let b :=
      { s.blocks with
        applying := none
        cursor := s.blocks.cursor + done.applied
        timestamps := done.timestamps
        candidate := some done.state }
    match done.error with
    | none => some { s with blocks := b.tryApplyNext }
    | some _ =>
      if chunk.source = s.peer then none
      else some { s with blocks := (b.refetch chunk.source s.verifiedTo).tryApplyNext }

/-- What an event does before new requests are sent; `none` where it ends the session, or
cannot happen. -/
def receive (serializedSize : Batch → Nat) (s : SyncSession Peer) :
    Event Peer → Option (SyncSession Peer)
  | .batches peer start batches stored => s.onBatches serializedSize peer start batches stored
  | .applied now => s.onBatchesApplied now
  | .forkState state =>
    if s.blocks.rebuilding then
      some { s with
        blocks := { s.blocks with rebuilding := false, candidate := some state }.tryApplyNext }
    else none
  | .verified count =>
    if s.verifiedTo + count < 2 ^ 64 then some { s with verifiedTo := s.verifiedTo + count }
    else none
  | .tick expired =>
    some { s with blocks := expired.foldl (BlockSync.expire s.peer) s.blocks }
  | .unavailable peer lost =>
    if peer = s.peer then none
    else if lost.Perm ((s.blocks.inFlight.toList.filter fun e => e.2.peer = peer).map Prod.fst) then
      let b := lost.foldl BlockSync.requeue s.blocks
      some { s with blocks := { b with excluded := insert peer b.excluded } }
    else none

def scheduleBatchRequests (s : SyncSession Peer) (tips : List (Peer × Nat)) : SyncSession Peer :=
  { s with
    blocks := s.blocks.scheduleLoop tips s.peer s.verifiedTo (s.blocks.rounds s.verifiedTo) }

/-- Whether the node sends requests after an event. -/
def schedules (s : SyncSession Peer) : Event Peer → Bool
  | .forkState _ => false
  | .batches peer start _ _ => s.blocks.inFlight[start]?.any fun f => f.peer = peer
  | _ => true

/-- Block download starts once headers past the fork are verified. -/
def start (peer : Peer) (verifiedTo fork : Nat) (timestamps : List Nat)
    (candidate : Option State) (tips : List (Peer × Nat)) : Option (SyncSession Peer) :=
  if fork < verifiedTo ∧ verifiedTo < 2 ^ 64 then
    let s : SyncSession Peer := ⟨peer, verifiedTo, .new fork timestamps candidate⟩
    some (s.scheduleBatchRequests tips)
  else none

def step (serializedSize : Batch → Nat) (s : SyncSession Peer)
    (event : List (Peer × Nat) × Event Peer) : Option (SyncSession Peer) :=
  (s.receive serializedSize event.2).map fun next =>
    if s.schedules event.2 then next.scheduleBatchRequests event.1 else next

/-- A property of every state that a list of events leads through. -/
def Along (serializedSize : Batch → Nat) (P : SyncSession Peer → Prop) :
    SyncSession Peer → List (List (Peer × Nat) × Event Peer) → Prop
  | s, [] => P s
  | s, event :: events =>
    P s ∧ ∀ next ∈ s.step serializedSize event, Along serializedSize P next events

end SyncSession

end Midwimble
