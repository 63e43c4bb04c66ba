import Mathlib.Data.Finset.Sort
import Midwimble.Core.Sending

namespace Midwimble
set_option autoImplicit true

/-- A payment seen in the mempool: what it pays this wallet, and when it was first seen. -/
structure Incoming where
  txHash : Bytes32
  outputs : List (Point32 × Nat)
  seenAt : Nat

inductive EntryKind
  | mined | received | sent
  deriving DecidableEq

inductive EntryStatus
  | confirmed | immature | pending | cancelled | failed
  deriving DecidableEq

structure HistoryEntry where
  kind : EntryKind
  status : EntryStatus
  height : Option Nat
  value : Nat
  fee : Option Nat
  «to» : Option StealthAddress
  txHash : Option Bytes32
  commitment : Option Point32
  createdAt : Option Nat
  detailed : Bool

namespace HistoryEntry

/-- A height as it sorts: unconfirmed entries come first. -/
def place (e : HistoryEntry) : Nat := e.height.getD u64Max

/-- The order of a history: newest block first, then newest payment first; within a block,
payments before receipts. -/
def before (a b : HistoryEntry) : Bool :=
  if a.place ≠ b.place then b.place < a.place
  else if a.createdAt ≠ b.createdAt then
    a.createdAt.any fun x => b.createdAt.all (· < x)
  else decide (b.kind = .sent) ≤ decide (a.kind = .sent)

end HistoryEntry

namespace WalletCore

variable [Primitives]

def isMature (tipHeight : Nat) (c : WalletCoin) : Bool :=
  !c.coinbase || tipHeight ≥ c.height + coinbaseMaturity

def recordedChange (w : WalletCore) : List Point32 := w.sent.filterMap Sent.change

def recordedInputs (w : WalletCore) : List Point32 :=
  (w.sent.filter fun s => s.failedAt.isNone).flatMap Sent.inputs

/-- The height of the block that spent a coin without a record. -/
def unknownSpend (w : WalletCore) (c : WalletCoin) : Option Nat :=
  if c.commitment ∈ w.recordedInputs then none else c.spentHeight

/-- The heights of the blocks that spent coins without a record, lowest first. -/
def unknownHeights (w : WalletCore) : List Nat :=
  (w.coins.filterMap w.unknownSpend).toFinset.sort (· ≤ ·)

/-- Whether a coin is netted against the unknown spends of its block. -/
def folds (w : WalletCore) (c : WalletCoin) : Bool :=
  !c.coinbase && decide (c.height ∈ w.unknownHeights)

/-- What a block spent without a record. -/
def unknownValue (w : WalletCore) (height : Nat) : Nat :=
  totalValue (w.coins.filter fun c => w.unknownSpend c = some height) % 2 ^ 64

def receipts (w : WalletCore) : List WalletCoin :=
  w.coins.filter fun c => c.commitment ∉ w.recordedChange

/-- What that block paid back. -/
def foldedValue (w : WalletCore) (height : Nat) : Nat :=
  totalValue (w.receipts.filter fun c => w.folds c && decide (c.height = height)) % 2 ^ 64

def coinEntry (tipHeight : Nat) (c : WalletCoin) : HistoryEntry where
  kind := if c.coinbase then .mined else .received
  status := if isMature tipHeight c then .confirmed else .immature
  height := some c.height
  value := c.value
  fee := none
  «to» := none
  txHash := none
  commitment := some c.commitment
  createdAt := none
  detailed := true

/-- One undetailed entry for a block's unknown spends, net of what it paid back. -/
def netEntry (w : WalletCore) (height : Nat) : HistoryEntry where
  kind := if w.unknownValue height ≥ w.foldedValue height then .sent else .received
  status := .confirmed
  height := some height
  value := if w.unknownValue height ≥ w.foldedValue height
    then w.unknownValue height - w.foldedValue height
    else w.foldedValue height - w.unknownValue height
  fee := none
  «to» := none
  txHash := none
  commitment := none
  createdAt := none
  detailed := false

def incomingEntry (i : Incoming) : HistoryEntry where
  kind := .received
  status := .pending
  height := none
  value := (i.outputs.map Prod.snd).sum % 2 ^ 64
  fee := none
  «to» := none
  txHash := some i.txHash
  commitment := i.outputs.head?.map Prod.fst
  createdAt := some i.seenAt
  detailed := true

def sentEntry (s : Sent) : HistoryEntry where
  kind := .sent
  status :=
    if s.height.isSome then .confirmed
    else if s.cancelled then .cancelled
    else if s.failedAt.isSome then .failed
    else .pending
  height := s.height <|> s.failedAt
  value := s.amount
  fee := some s.fee
  «to» := some s.to
  txHash := some s.txHash
  commitment := none
  createdAt := some s.createdAt
  detailed := true

/-- Received coins and payments, newest first. -/
def history (w : WalletCore) (incoming : List Incoming) (tipHeight : Nat) : List HistoryEntry :=
  let coins := (w.receipts.filter fun c => !w.folds c).map (coinEntry tipHeight)
  let nets := (w.unknownHeights.map w.netEntry).filter fun e => e.value ≠ 0
  (coins ++ nets ++ incoming.map incomingEntry ++ w.sent.map sentEntry).mergeSort
    HistoryEntry.before

/-- Forgets everything learned from blocks at or above `height`. -/
def rollbackTo (w : WalletCore) (height : Nat) : WalletCore :=
  let kept := w.coins.filter (·.height < height)
  let revived := w.sent.filter fun s => s.settledFrom height && !s.cancelled
  { w with
    coins := revived.foldl Wallet.reserve (kept.map (Wallet.unspend height))
    sent := w.sent.map (Sent.unsettle height)
    recent := w.recent.filter (·.1 < height)
    scannedHeight := min w.scannedHeight height }

def cancelPending (w : WalletCore) (txHash : Bytes32) : WalletCore :=
  { w with
    coins := w.coins.map fun c =>
      if c.pendingTx = some txHash then { c with pendingTx := none } else c
    sent := w.sent.map fun s =>
      if s.txHash = txHash ∧ s.height.isNone then { s with cancelled := true, tx := none } else s }

def discardSend (w : WalletCore) (txHash : Bytes32) : WalletCore :=
  let w := w.cancelPending txHash
  { w with sent := w.sent.filter fun s => !(s.txHash = txHash && s.height.isNone) }

end WalletCore

end Midwimble
