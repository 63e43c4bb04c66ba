import Midwimble.Core.Wallet

namespace Midwimble
set_option autoImplicit true

/-- The bytes kept of an input's commitment. -/
def inputPrefix (commitment : Point32) : Bytes := commitment.toBytes.take 8

/-- As much of a block as a wallet needs to tell whether it concerns it. -/
structure ScanBlock where
  id : Bytes32
  /-- Commits to the block's transactions and coinbase, and to the block before it. -/
  headerHash : Bytes32
  /-- Ephemeral key and view tag of every output. -/
  outputs : List (Point32 × UInt8)
  inputs : List Bytes
  deriving DecidableEq

/-- Consecutive blocks' scan data. -/
structure ScanRun where
  /-- The id of the block the first one builds on. -/
  prev : Bytes32
  blocks : List ScanBlock
  deriving DecidableEq

/-- Scan data from a height on, and whether each block, once worked out, carries the wallet's
view tag. -/
structure ScanChunk where
  start : Nat
  run : ScanRun
  tagged : List (Option Bool)
  deriving DecidableEq

/-- What scanning by scan data came to. -/
structure CompactScan where
  scanned : Nat
  /-- A block does not build on the last one scanned. -/
  reorg : Bool
  /-- The height of a block needed whole. -/
  need : Option Nat
  deriving DecidableEq

namespace ScanRun

/-- The id of the block that block `i` builds on. -/
def prevOf (r : ScanRun) : Nat → Bytes32
  | 0 => r.prev
  | i + 1 => (r.blocks[i]?).elim 0 ScanBlock.id

end ScanRun

namespace ScanChunk

def new (start : Nat) (run : ScanRun) : ScanChunk :=
  ⟨start, run, List.replicate run.blocks.length none⟩

/-- The height after the last block it covers. -/
def «end» (c : ScanChunk) : Nat := c.start + c.run.blocks.length

def index (c : ScanChunk) (height : Nat) : Option Nat :=
  if c.start ≤ height ∧ height < c.end then some (height - c.start) else none

end ScanChunk

variable [Primitives]

def ScanBlock.of (batch : Batch) : ScanBlock where
  id := batch.extension.finalHash
  headerHash := computeHeaderHash batch.header
  outputs := batch.created.map fun o => (o.1.ephemeralKey, o.1.viewTag)
  inputs := batch.body.inputCommitments.map inputPrefix

namespace ScanRun

def of (prev : Bytes32) (batches : List Batch) : ScanRun := ⟨prev, batches.map .of⟩

/-- Whether `batch` is block `i` of the run. -/
def describes (r : ScanRun) (i : Nat) (batch : Batch) : Bool :=
  i < r.blocks.length && batch.prevHeaderHash = r.prevOf i &&
    r.blocks[i]? = some (ScanBlock.of batch)

end ScanRun

/-- Scan secret and public address. -/
structure ViewKey where
  scanSecret : Primitives.Scalar
  address : StealthAddress

/-- A watch-only view. -/
def WalletKeys.viewOnly (keys : WalletKeys) : ViewKey := ⟨keys.scanSecret, keys.address⟩

namespace ViewKey

/-- Whether an output with this ephemeral key and view tag may pay the address. -/
def mayOwn (view : ViewKey) (ephemeralKey : Point32) (tag : UInt8) : Bool :=
  (decompress ephemeralKey).any fun r => viewTag (sharedSecret (view.scanSecret • r)) = tag

/-- The value of an output that pays the address, and whether its recovery commitment is right. -/
def scan [Decryption] (view : ViewKey) (output : Output) : Option (Nat × Bool) :=
  (detect view.scanSecret view.address.spend output).map fun (value, blinding, _, salt) =>
    (value, output.recoveryCommitment =
      recoveryCommitment view.address.recovery value (scalarToBytes blinding) salt)

end ViewKey

/-- The browser wallet; watch-only without keys. -/
structure WalletCore where
  view : ViewKey
  keys : Option WalletKeys
  scannedHeight : Nat
  recent : List (Nat × Bytes32)
  coins : List WalletCoin
  sent : List Sent

namespace WalletCore

def recordedHash (w : WalletCore) (height : Nat) : Option Bytes32 :=
  (w.recent.find? fun p => p.1 = height).map Prod.snd

/-- Whether block `height`, built on `prev`, follows the blocks scanned. -/
def buildsOn (w : WalletCore) (height : Nat) (prev : Bytes32) : Bool :=
  height = 0 || (w.recordedHash (height - 1)).all (· = prev)

/-- Records block `height`, whose id is `id`, as scanned. -/
def finishBlock (w : WalletCore) (height : Nat) (id : Bytes32) : WalletCore :=
  let recent := w.recent ++ [(height, id)]
  { w with
    sent := w.sent.map (Wallet.forget height)
    recent := if recent.length > reorgWindow then recent.tail else recent
    scannedHeight := height + 1 }

/-- Prefixes of unspent coins' commitments, and of the coins that unsettled payments spend. -/
def coinPrefixes (w : WalletCore) : List Bytes :=
  (((w.coins.filter fun c => c.spentHeight.isNone).map WalletCoin.commitment) ++
    (w.sent.filter fun s => s.height.isNone && s.failedAt.isNone).flatMap Sent.inputs).map
      inputPrefix

/-- Whether block `i` of the chunk may concern this wallet. -/
def needs (w : WalletCore) (coins : List Bytes) (chunk : ScanChunk) (i : Nat) :
    Bool × ScanChunk :=
  match chunk.run.blocks[i]? with
  | none => (false, chunk)
  | some block =>
    if block.inputs.any (decide <| · ∈ coins) then (true, chunk)
    else
      match chunk.tagged[i]? with
      | some (some tagged) => (tagged, chunk)
      | _ =>
        let tagged := block.outputs.any fun o => w.view.mayOwn o.1 o.2
        (tagged, { chunk with tagged := chunk.tagged.set i (some tagged) })

/-- The heights of the blocks in the chunk, from the next one to scan, that this wallet needs
whole as it stands. -/
def wanted (w : WalletCore) (chunk : ScanChunk) : List Nat × ScanChunk :=
  let coins := w.coinPrefixes
  let next := max w.scannedHeight chunk.start
  (List.range' next (chunk.end - next)).foldl (fun (heights, chunk) h =>
    let (needed, chunk) := w.needs coins chunk (h - chunk.start)
    (if needed then heights ++ [h] else heights, chunk)) ([], chunk)

/-- Applies the next blocks of the chunk by their scan data, up to one that may concern the
wallet or does not build on the last. -/
def compactLoop (coins : List Bytes) : (left : Nat) → WalletCore → ScanChunk → CompactScan →
    WalletCore × ScanChunk × CompactScan
  | 0, w, chunk, out => (w, chunk, out)
  | left + 1, w, chunk, out =>
    let height := w.scannedHeight
    let i := height - chunk.start
    if !w.buildsOn height (chunk.run.prevOf i) then (w, chunk, { out with reorg := true })
    else
      match w.needs coins chunk i with
      | (true, chunk) => (w, chunk, { out with need := some height })
      | (false, chunk) =>
        compactLoop coins left
          (w.finishBlock height ((chunk.run.blocks[i]?).elim 0 ScanBlock.id)) chunk
          { out with scanned := out.scanned + 1 }

/-- Applies blocks of the chunk, from the next one to scan, by their scan data alone while they
neither pay this wallet nor may spend its coins. -/
def scanCompact (w : WalletCore) (chunk : ScanChunk) :
    Result (WalletCore × ScanChunk × CompactScan) := do
  let next := w.scannedHeight
  Fallible.bailIf (next < chunk.start ∨ next > chunk.end)
    s!"the scan data is for blocks {chunk.start} to {chunk.end - 1}, and the next block to scan is {next}"
  .ok (compactLoop w.coinPrefixes (chunk.end - next) w chunk ⟨0, false, none⟩)

section

variable [Decryption]

/-- A payment the view key detected is kept only if the wallet can spend it, or is watch-only. -/
def confirmDetected (keys : Option WalletKeys) (output : Output) : Bool :=
  keys.all fun keys => (scanOutput keys output).isSome

def addDetected (view : ViewKey) (keys : Option WalletKeys) (sent : List Sent) (height : Nat)
    (coins : List WalletCoin) (o : Output × Bool) : List WalletCoin :=
  if o.1.commitment ∈ coins.map WalletCoin.commitment then coins
  else
    match view.scan o.1 with
    | none => coins
    | some (value, _) =>
      if confirmDetected keys o.1 then
        coins ++ [⟨o.1, value, height, o.2, none, Wallet.reservedFor sent o.1.commitment⟩]
      else coins

/-- Applies block `height`, which must be the next one to scan. -/
def scanBlock (w : WalletCore) (height : Nat) (batch : Batch) : Result WalletCore := do
  Fallible.bailIf (height ≠ w.scannedHeight) s!"expected block {w.scannedHeight}, got {height}"
  Fallible.bailIf (!w.buildsOn height batch.prevHeaderHash) (Wallet.reorg height)
  let spent := batch.body.inputCommitments
  let coins := w.coins.map (Wallet.markSpent height spent)
  let sent := w.sent.map (Wallet.settle height spent batch.body.kernelIds)
  .ok ({ w with
    coins := batch.created.foldl (addDetected w.view w.keys sent height) coins
    sent := sent }.finishBlock height batch.extension.finalHash)

def mismatch (height : Nat) : Err :=
  s!"the block does not match its scan data at height {height}"

/-- Applies block `height` of the chunk, fetched whole, once it is the block the scan data
describes. -/
def scanFull (w : WalletCore) (chunk : ScanChunk) (height : Nat) (batch : Batch) :
    Result WalletCore := do
  let i ← Fallible.orBail (chunk.index height) s!"the scan data does not cover block {height}"
  Fallible.bailIf (!chunk.run.describes i batch) (mismatch height)
  w.scanBlock height batch

/-- Applies blocks one after another, from the scanned height on. -/
def scanAll (w : WalletCore) (batches : List Batch) : Result WalletCore :=
  batches.foldlM (fun w b => w.scanBlock w.scannedHeight b) w

end

end WalletCore

end Midwimble
