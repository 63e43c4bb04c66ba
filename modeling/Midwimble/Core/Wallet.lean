import Midwimble.Core.Mempool
import Midwimble.Core.Stealth

namespace Midwimble
set_option autoImplicit true

variable [Primitives]

/-- An unspent output the wallet can spend. -/
structure Spendable where
  commitment : Point32
  value : Nat
  blinding : Primitives.Scalar
  ownerSecret : Primitives.Scalar

omit [Primitives] in
structure Payment where
  «to» : StealthAddress
  value : Nat

omit [Primitives] in
/-- A transaction and what its sender remembers of it. -/
structure BuiltTransaction where
  tx : Transaction
  /-- Commitment and value of the change output, if any. -/
  change : Option (Point32 × Nat)

/-- The randomness a transaction draws. -/
structure TransactionDraw where
  output : Nat → OutputDraw
  shuffle : List NewOutput → List NewOutput
  seed : Bytes
  inputAux : Nat → Bytes32
  /-- Offsets, drawn until neither excess is zero. -/
  offsets : List (Primitives.Scalar × Primitives.Scalar)
  kernelAux : Bytes32

def Input.sign (commitment : Point32) (ownerSecret : Primitives.Scalar) (aux : Bytes32) : Input :=
  let ownerKey := compress (ownerSecret • genG)
  ⟨commitment, ownerKey, schnorrSign ownerSecret (Input.message commitment ownerKey) aux⟩

/-- The output that returns change, if there is any. -/
def changeOutputs (changeTo : StealthAddress) (change : Nat) (draw : OutputDraw) :
    Result (List NewOutput) :=
  if change > 0 then do
    let c ← newOutput changeTo change draw
    .ok [c]
  else .ok []

/-- Builds and self-validates a transaction. -/
def buildTransaction (spend : List Spendable) (payments : List Payment) (changeTo : StealthAddress)
    (fee minHeight : Nat) (draw : TransactionDraw) : Result BuiltTransaction := do
  Fallible.bailIf spend.isEmpty "no inputs selected"
  Fallible.bailIf payments.isEmpty "no payments"
  Fallible.bailIf (payments.any fun p => p.value = 0) "payment values must be positive"
  let totalIn ← Fallible.orBail (spend.foldlM (fun acc s => checkedAdd64 acc s.value) 0)
    "input value overflow"
  let totalOut ← Fallible.orBail (payments.foldlM (fun acc p => checkedAdd64 acc p.value) fee)
    "output value overflow"
  Fallible.bailIf (totalIn < totalOut) s!"insufficient funds: have {totalIn}, need {totalOut}"
  let change := totalIn - totalOut
  let paid ← payments.zipIdx.mapM fun p => newOutput p.1.to p.1.value (draw.output p.2)
  let back ← changeOutputs changeTo change (draw.output payments.length)
  let created := draw.shuffle (paid ++ back)
  let sumOut := (created.map NewOutput.blinding).sum
  let sumIn := (spend.map Spendable.blinding).sum
  let sumOwner := (spend.map Spendable.ownerSecret).sum
  let group ← OutputGroup.prove (created.map NewOutput.output) (created.map NewOutput.value)
    (created.map NewOutput.blinding) draw.seed
  let inputs := (spend.zipIdx.map fun p =>
    Input.sign p.1.commitment p.1.ownerSecret (draw.inputAux p.2)).insertionSort
      fun a b => a.commitment ≤ b.commitment
  let (offset, ownerOffset) ← Fallible.orBail
    (draw.offsets.find? fun d => sumOut - sumIn - d.1 ≠ 0 ∧ sumOwner - d.2 ≠ 0) "no offsets drawn"
  let kernel := Kernel.new .plain fee minHeight (sumOut - sumIn - offset)
    (sumOwner - ownerOffset) draw.kernelAux
  let tx : Transaction :=
    ⟨⟨inputs, [group], [kernel]⟩, scalarToBytes offset, scalarToBytes ownerOffset⟩
  tx.validateStructure .relay
  tx.verifySums
  tx.verifyCrypto
  .ok ⟨tx, (back.map fun c => (c.output.commitment, change)).head?⟩

omit [Primitives] in
/-- Recent block hashes kept for reorg detection. -/
def reorgWindow : Nat := 200

/-- Times one sync steps back. -/
def maxRollbacks : Nat := 64

/-- Minimal fee for a transaction of the usual shape. -/
def suggestedFee (inputs : Nat) : Nat :=
  (inputs * inputWeight + 2 * outputWeight + kernelWeight) * minFeePerWeight

structure WalletCoin where
  output : Output
  value : Nat
  height : Nat
  coinbase : Bool
  /-- Height of the block that spent it. -/
  spentHeight : Option Nat
  /-- Hash of an unconfirmed transaction spending it. -/
  pendingTx : Option Bytes32
  deriving DecidableEq

def WalletCoin.commitment (c : WalletCoin) : Point32 := c.output.commitment

/-- A payment made from this wallet. -/
structure Sent where
  txHash : Bytes32
  /-- The block that carries this kernel confirmed it. -/
  kernel : Bytes32
  «to» : StealthAddress
  amount : Nat
  fee : Nat
  inputs : List Point32
  change : Option Point32
  createdAt : Nat
  /-- Kept for broadcasting again. -/
  tx : Option Transaction
  /-- Height of the block that confirmed it. -/
  height : Option Nat
  /-- Height of a block that spent its inputs without it. -/
  failedAt : Option Nat
  /-- Released: its coins are spendable again. -/
  cancelled : Bool
  deriving DecidableEq

namespace Sent

/-- Neither confirmed, failed nor released. -/
def isPending (s : Sent) : Bool := s.height.isNone && s.failedAt.isNone && !s.cancelled

/-- Whether a block at or above `height` settled it. -/
def settledFrom (height : Nat) (s : Sent) : Bool :=
  s.height.any (height ≤ ·) || s.failedAt.any (height ≤ ·)

def unsettle (height : Nat) (s : Sent) : Sent :=
  { s with height := s.height.filter (· < height), failedAt := s.failedAt.filter (· < height) }

end Sent

structure Wallet [Primitives] where
  keys : WalletKeys
  /-- Next height to scan. -/
  scannedHeight : Nat
  /-- Height and hash of recently scanned blocks. -/
  recent : List (Nat × Bytes32)
  coins : List WalletCoin
  /-- Where a rescan starts. -/
  birthHeight : Nat
  /-- This wallet's own payments, oldest first. -/
  sent : List Sent

/-- The outputs a block makes, those of its coinbase last. -/
def Batch.created (batch : Batch) : List (Output × Bool) :=
  batch.body.outputs.map (·, false) ++
    (batch.coinbase.toList.flatMap fun c => c.outputs.outputs).map (·, true)

namespace Wallet

def restore (keys : WalletKeys) (birthHeight : Nat) : Wallet :=
  ⟨keys, birthHeight, [], [], birthHeight, []⟩

/-- The block hash recorded at `height`, if still in the window. -/
def recordedHash (w : Wallet) (height : Nat) : Option Bytes32 :=
  (w.recent.find? fun p => p.1 = height).map Prod.snd

/-- Reserves the coins of a payment that waits again. -/
def reserve (coins : List WalletCoin) (s : Sent) : List WalletCoin :=
  coins.map fun c =>
    if c.spentHeight.isNone && decide (c.commitment ∈ s.inputs) then
      { c with pendingTx := some s.txHash }
    else c

def unspend (height : Nat) (c : WalletCoin) : WalletCoin :=
  { c with spentHeight := c.spentHeight.filter (· < height) }

/-- Forgets everything learned from blocks at or above `height`. -/
def rollbackTo (w : Wallet) (height : Nat) : Wallet × Bool :=
  let kept := w.coins.filter (·.height < height)
  let changed := kept.length ≠ w.coins.length || kept.any (·.spentHeight.any (height ≤ ·)) ||
    w.sent.any (Sent.settledFrom height)
  let revived := w.sent.filter fun s => s.settledFrom height && !s.cancelled
  ({ w with
      coins := revived.foldl reserve (kept.map (unspend height))
      sent := w.sent.map (Sent.unsettle height)
      recent := w.recent.filter (·.1 < height)
      scannedHeight := min w.scannedHeight height }, changed)

/-- Scans again from `height`, at most the height scanned so far. -/
def rescanFrom (w : Wallet) (height : Nat) : Result Wallet := do
  Fallible.bailIf (height > w.scannedHeight)
    s!"this wallet has scanned up to block {w.scannedHeight}; it can rescan from there or below"
  let w := (w.rollbackTo height).1
  .ok { w with birthHeight := min w.birthHeight height }

/-- The payment still waiting for a block that spends this coin, if any. -/
def reservedFor (sent : List Sent) (commitment : Point32) : Option Bytes32 :=
  (sent.find? fun s => s.isPending && decide (commitment ∈ s.inputs)).map Sent.txHash

def markSpent (height : Nat) (spent : List Point32) (c : WalletCoin) : WalletCoin :=
  if c.spentHeight.isNone && decide (c.commitment ∈ spent) then
    { c with spentHeight := some height, pendingTx := none }
  else c

/-- Settles a payment that a block confirms, or whose coins it spends without it. -/
def settle (height : Nat) (spent : List Point32) (kernels : List Bytes32) (s : Sent) : Sent :=
  if s.height.isSome || s.failedAt.isSome then s
  else if s.kernel ∈ kernels then { s with height := some height }
  else if s.inputs.any (decide <| · ∈ spent) then { s with failedAt := some height }
  else s

/-- Past the reorg window a payment's transaction is no longer needed. -/
def forget (height : Nat) (s : Sent) : Sent :=
  if (s.height <|> s.failedAt).any (fun h => h + reorgWindow ≤ height) then { s with tx := none }
  else s

section Scanning

variable [Decryption]

/-- Adds an output that the wallet recognises and does not know yet. -/
def addCoin (keys : WalletKeys) (sent : List Sent) (height : Nat) (coins : List WalletCoin)
    (o : Output × Bool) : List WalletCoin :=
  if o.1.commitment ∈ coins.map WalletCoin.commitment then coins
  else
    match scanOutput keys o.1 with
    | some owned => coins ++
        [⟨o.1, owned.value, height, o.2, none, reservedFor sent o.1.commitment⟩]
    | none => coins

def reorg (height : Nat) : Err := s!"reorg detected below height {height}"

/-- Applies one block at `height`. -/
def scanBlock (w : Wallet) (height : Nat) (batch : Batch) : Result Wallet := do
  Fallible.bailIf (height ≠ w.scannedHeight) s!"expected block {w.scannedHeight}, got {height}"
  Fallible.bailIf (height > 0 ∧ (w.recordedHash (height - 1)).any (· ≠ batch.prevHeaderHash))
    (reorg height)
  let spent := batch.body.inputCommitments
  let coins := w.coins.map (markSpent height spent)
  let sent := w.sent.map (settle height spent batch.body.kernelIds)
  let recent := w.recent ++ [(height, batch.extension.finalHash)]
  .ok { w with
    coins := batch.created.foldl (addCoin w.keys sent height) coins
    sent := sent.map (forget height)
    recent := if recent.length > reorgWindow then recent.tail else recent
    scannedHeight := height + 1 }

/-- Payments still waiting whose coins the wallet does not hold unspent fail. -/
def settleOrphans (w : Wallet) : Wallet × List Bytes32 :=
  let unspent := (w.coins.filter (·.spentHeight.isNone)).map WalletCoin.commitment
  let lost (s : Sent) : Bool := s.isPending && s.inputs.any fun c => decide (c ∉ unspent)
  let orphaned := (w.sent.filter lost).map Sent.txHash
  ({ w with
      sent := w.sent.map fun s =>
        if lost s then { s with failedAt := some (w.scannedHeight - 1) } else s
      coins := w.coins.map fun c =>
        if c.pendingTx.any (decide <| · ∈ orphaned) then { c with pendingTx := none } else c },
    orphaned)

/-- Picks coins, in order, until they pay for the amount and the fee. -/
def choose (keys : WalletKeys) (amount : Nat) (feeFor : Nat → Nat) :
    List WalletCoin → List Spendable × Nat → Result (List Spendable × Nat)
  | [], acc => .ok acc
  | c :: candidates, (chosen, total) => do
    let need ← Fallible.orBail (checkedAdd64 amount (feeFor chosen.length)) "amount overflow"
    if total ≥ need then .ok (chosen, total)
    else
      let owned ← Fallible.orBail (scanOutput keys c.output) "stored coin no longer opens"
      choose keys amount feeFor candidates
        (chosen ++ [⟨c.commitment, owned.value, owned.blinding, owned.ownerSecret⟩],
          (total + owned.value) % 2 ^ 64)

/-- Whether a coin can be spent in the block at `tipHeight`. -/
def spendable (tipHeight : Nat) (c : WalletCoin) : Bool :=
  c.spentHeight.isNone && c.pendingTx.isNone &&
    (!c.coinbase || decide (tipHeight ≥ c.height + coinbaseMaturity))

/-- Chooses the coins of a payment and builds its transaction. -/
def prepareSend (w : Wallet) («to» : StealthAddress) (amount : Nat) (fee : Option Nat)
    (tipHeight : Nat) (draw : TransactionDraw) :
    Result (List Point32 × Nat × BuiltTransaction) := do
  Fallible.bailIf (amount = 0) "amount must be positive"
  let candidates := (w.coins.filter (spendable tipHeight)).insertionSort fun a b =>
    b.value ≤ a.value
  let feeFor n := fee.getD (suggestedFee (max n 1))
  let (chosen, total) ← choose w.keys amount feeFor candidates ([], 0)
  let need ← Fallible.orBail (checkedAdd64 amount (feeFor chosen.length)) "amount overflow"
  Fallible.bailIf (total < need) s!"insufficient spendable funds: have {total}, need {need}"
  let built ← buildTransaction chosen [⟨«to», amount⟩] w.keys.address (feeFor chosen.length)
    tipHeight draw
  .ok (chosen.map Spendable.commitment, feeFor chosen.length, built)

/-- Builds a payment, reserves its coins and records it. -/
def buildSend (w : Wallet) («to» : StealthAddress) (amount : Nat) (fee : Option Nat)
    (tipHeight now : Nat) (draw : TransactionDraw) : Wallet × Result Transaction :=
  match w.prepareSend «to» amount fee tipHeight draw with
  | .error e => (w, .error e)
  | .ok (inputs, fee, built) =>
    let reserved := { w with
      coins := w.coins.map fun c =>
        if c.commitment ∈ inputs then { c with pendingTx := some built.tx.hash } else c }
    match built.tx.body.kernels.head? with
    | none => (reserved, .error "a payment without a kernel")
    | some kernel =>
      ({ reserved with
          sent := w.sent ++ [⟨built.tx.hash, kernel.id, «to», amount, fee, inputs,
            built.change.map Prod.fst, now, some built.tx, none, none, false⟩] }, .ok built.tx)

/-- Releases the coins of a payment that will never confirm. Returns whether one waited. -/
def cancelPending (w : Wallet) (txHash : Bytes32) : Wallet × Bool :=
  let named (s : Sent) : Bool := s.txHash = txHash && s.isPending
  ({ w with
      sent := w.sent.map fun s => if named s then { s with cancelled := true, tx := none } else s
      coins := w.coins.map fun c =>
        if c.pendingTx = some txHash then { c with pendingTx := none } else c },
    w.sent.any named || w.coins.any (·.pendingTx = some txHash))

/-- Forgets a payment the node refused outright. -/
def discardSend (w : Wallet) (txHash : Bytes32) : Wallet :=
  let w := (w.cancelPending txHash).1
  { w with sent := w.sent.filter fun s => !(s.txHash = txHash && s.height.isNone) }

/-- Applies blocks one after another, from the scanned height on. -/
def scanAll (w : Wallet) (batches : List Batch) : Result Wallet :=
  batches.foldlM (fun w b => w.scanBlock w.scannedHeight b) w

end Scanning

end Wallet

structure SyncReport where
  /-- Blocks scanned. -/
  blocks : Nat
  /-- The lowest height stepped back to. -/
  rolledBackTo : Option Nat
  /-- Whether the hashes kept ran out, so that scanning restarted at the birth height. -/
  rescanned : Bool
  deriving DecidableEq

/-- A wallet following a node. -/
structure Following [Primitives] where
  wallet : Wallet
  rollbacks : Nat
  report : SyncReport

namespace Following

/-- A block this wallet scanned is no longer the node's: forgets the last eleven. -/
def stepBack (f : Following) : Following × Result Unit :=
  if f.rollbacks + 1 > maxRollbacks then
    ({ f with rollbacks := f.rollbacks + 1 },
      .error "the node's chain keeps changing under this wallet; try again later")
  else
    let birth := f.wallet.birthHeight
    let near := max birth (f.wallet.scannedHeight - 11)
    let blind := decide (near > birth) && (f.wallet.recordedHash (near - 1)).isNone
    let height := if blind then birth else near
    ({ wallet := (f.wallet.rollbackTo height).1
       rollbacks := f.rollbacks + 1
       report :=
        { f.report with
          rescanned := f.report.rescanned || blind
          rolledBackTo := some (f.report.rolledBackTo.elim height (min · height)) } }, .ok ())

/-- Rolls back while the last block scanned is not the node's. -/
def checkLastBlock (tip : Nat) (idAt : Nat → Result (Option Bytes32)) :
    (fuel : Nat) → Following → Following × Result Unit
  | 0, f => (f, .error (.panic "out of fuel"))
  | fuel + 1, f =>
    let h := f.wallet.scannedHeight
    if h = 0 ∨ h > tip then (f, .ok ())
    else
      match f.wallet.recordedHash (h - 1) with
      | none => (f, .ok ())
      | some recorded =>
        match idAt (h - 1) with
        | .error e => (f, .error e)
        -- Below the snapshot a node started from: final anyway.
        | .ok none => (f, .ok ())
        | .ok (some id) =>
          if id = recorded then (f, .ok ())
          else
            match f.stepBack with
            | (f, .error e) => (f, .error e)
            | (f, .ok _) => checkLastBlock tip idAt fuel f

section

variable [Decryption]

def isReorg : Err → Bool
  | .message m => m.startsWith "reorg detected"
  | _ => false

/-- Scans fetched blocks, stepping back at one that does not build on the block before it. -/
def scanBatches : (height : Nat) → List Batch → Following → Following × Result Unit
  | _, [], f => (f, .ok ())
  | height, b :: batches, f =>
    match f.wallet.scanBlock height b with
    | .ok w =>
      scanBatches (height + 1) batches
        { f with wallet := w, report := { f.report with blocks := f.report.blocks + 1 } }
    | .error e => if isReorg e then f.stepBack else (f, .error e)

/-- Scans the node's blocks up to `tip`. -/
def scanForward (tip : Nat) (fetch : Nat → Nat → Result (List Batch)) :
    (fuel : Nat) → Following → Following × Result Unit
  | 0, f => (f, .error (.panic "out of fuel"))
  | fuel + 1, f =>
    let start := f.wallet.scannedHeight
    if start < tip then
      match fetch start (min (tip - start) 64) with
      | .error e => (f, .error e)
      | .ok [] => (f, .ok ())
      | .ok batches =>
        match scanBatches start batches f with
        | (f, .error e) => (f, .error e)
        | (f, .ok _) => scanForward tip fetch fuel f
    else (f, .ok ())

end

end Following

end Midwimble
