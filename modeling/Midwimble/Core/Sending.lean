import Midwimble.Core.WebWallet

namespace Midwimble
set_option autoImplicit true

/-- The fee for a transaction of the usual shape at `rate` base units per unit of weight. -/
def feeAt (rate inputs : Nat) : Nat :=
  min ((inputs * inputWeight + 2 * outputWeight + kernelWeight) * rate) u64Max

/-- The fee for a transaction of the usual shape at the relay minimum. -/
def WalletCore.suggestedFee (inputs : Nat) : Nat := feeAt minFeePerWeight inputs

/-- How a payment is put together: the fee rate, and the coins it spends, as they are named. -/
structure SendOptions where
  feeRate : Option Nat
  coins : Option (List String)

def SendOptions.rate (o : SendOptions) : Result Nat := do
  let rate := o.feeRate.getD minFeePerWeight
  Fallible.bailIf (rate < minFeePerWeight)
    (s!"a fee rate of {rate} is below the relay minimum of {minFeePerWeight} " ++ "per weight")
  .ok rate

def hexValue (c : Char) : Option Nat :=
  if '0' ≤ c ∧ c ≤ '9' then some (c.toNat - 48)
  else if 'a' ≤ c ∧ c ≤ 'f' then some (c.toNat - 87)
  else if 'A' ≤ c ∧ c ≤ 'F' then some (c.toNat - 55)
  else none

/-- `hex::decode`. -/
def hexDecode : List Char → Option Bytes
  | [] => some []
  | high :: low :: rest => do
    let h ← hexValue high
    let l ← hexValue low
    let bytes ← hexDecode rest
    some (UInt8.ofNat (h * 16 + l) :: bytes)
  | [_] => none

/-- The commitment a coin is named by, in hex. -/
def parseCommitment (name : String) : Option Point32 := do
  let trimmed := ((name.toList.dropWhile Char.isWhitespace).reverse.dropWhile
    Char.isWhitespace).reverse
  let bytes ← hexDecode trimmed
  if bytes.length = 32 then some (wordOf bytes) else none

structure BuiltSend where
  txHash : Bytes32
  amount : Nat
  fee : Nat
  inputs : Nat
  change : Nat
  deriving DecidableEq

variable [Primitives]

namespace WalletCore

/-- Unspent, unreserved, mature coins, largest first. -/
def candidates (w : WalletCore) (tipHeight : Nat) : List WalletCoin :=
  (w.coins.filter (Wallet.spendable tipHeight)).insertionSort fun a b => b.value ≤ a.value

/-- The coins `options` names, if it names any: each must be spendable. -/
def chosenCoins (w : WalletCore) (options : SendOptions) (tipHeight : Nat) :
    Result (Option (List WalletCoin)) :=
  match options.coins with
  | none => .ok none
  | some list => do
    let named ← list.mapM fun name =>
      Fallible.orBail (parseCommitment name) s!"not a coin's commitment: {name}"
    let wanted := named.dedup
    Fallible.bailIf wanted.isEmpty "no coins chosen"
    let chosen := (w.candidates tipHeight).filter fun c => c.commitment ∈ wanted
    Fallible.bailIf (chosen.length ≠ wanted.length)
      (s!"{wanted.length - chosen.length} of the chosen coins cannot be spent now: spent, " ++
        "held by a payment waiting for a block, or not yet mature")
    .ok (some chosen)

/-- Takes coins, in order, until they cover `amount` plus the fee for that many. -/
def takeCoins (amount : Nat) (feeFor : Nat → Nat) :
    List WalletCoin → List WalletCoin × Nat → Result (List WalletCoin × Nat)
  | [], acc => .ok acc
  | c :: candidates, (chosen, total) => do
    let need ← Fallible.orBail (checkedAdd64 amount (feeFor chosen.length)) "amount overflow"
    if total ≥ need then .ok (chosen, total)
    else takeCoins amount feeFor candidates (chosen ++ [c], (total + c.value) % 2 ^ 64)

/-- Largest coins first until they cover `amount` plus the fee for that many. -/
def selectBy (w : WalletCore) (amount : Nat) (feeFor : Nat → Nat) (tipHeight : Nat) :
    Result (List WalletCoin × Nat) := do
  Fallible.bailIf (amount = 0) "amount must be positive"
  let (chosen, total) ← takeCoins amount feeFor (w.candidates tipHeight) ([], 0)
  let fee := feeFor chosen.length
  let need ← Fallible.orBail (checkedAdd64 amount fee) "amount overflow"
  Fallible.bailIf (total < need)
    s!"insufficient spendable funds: have {total}, need {need} (amount plus a {fee} fee)"
  .ok (chosen, fee)

/-- The largest coins that cover a payment and its fee, the one given or the suggested one. -/
def select (w : WalletCore) (amount : Nat) (fee : Option Nat) (tipHeight : Nat) :
    Result (List WalletCoin × Nat) :=
  w.selectBy amount (fun n => fee.getD (suggestedFee (max n 1))) tipHeight

def totalValue (coins : List WalletCoin) : Nat := (coins.map WalletCoin.value).sum

/-- The coins of a payment and its fee: those that `options` names, or the largest. -/
def selectWith (w : WalletCore) (amount : Nat) (options : SendOptions) (tipHeight : Nat) :
    Result (List WalletCoin × Nat) := do
  let rate ← options.rate
  match ← w.chosenCoins options tipHeight with
  | none => w.selectBy amount (fun n => feeAt rate (max n 1)) tipHeight
  | some chosen => do
    Fallible.bailIf (amount = 0) "amount must be positive"
    let total := totalValue chosen % 2 ^ 64
    let fee := feeAt rate chosen.length
    let need ← Fallible.orBail (checkedAdd64 amount fee) "amount overflow"
    Fallible.bailIf (total < need)
      (s!"the chosen coins hold {total}, and this payment needs {need} (amount plus a " ++
        s!"{fee} fee)")
    .ok (chosen, fee)

/-- The most that the first coins are worth after their fee, or `best`. -/
def bestPrefix (rate : Nat) : (taken total best : Nat) → List WalletCoin → Nat
  | _, _, best, [] => best
  | taken, total, best, c :: rest =>
    let total := (total + c.value) % 2 ^ 64
    bestPrefix rate (taken + 1) total (max best (total - feeAt rate (taken + 1))) rest

/-- The most one payment can send: zero if the options are no good. -/
def maxSendableWith (w : WalletCore) (options : SendOptions) (tipHeight : Nat) : Nat :=
  match options.rate with
  | .error _ => 0
  | .ok rate =>
    match w.chosenCoins options tipHeight with
    | .ok (some chosen) => totalValue chosen % 2 ^ 64 - feeAt rate chosen.length
    | .ok none => bestPrefix rate 0 0 0 (w.candidates tipHeight)
    | .error _ => 0

variable [Decryption]

/-- What signing for `coins` takes. -/
def spendables (w : WalletCore) (coins : List WalletCoin) : Result (List Spendable) := do
  let keys ← Fallible.orBail w.keys "this is a watch-only wallet and cannot spend"
  coins.mapM fun c => do
    let owned ← Fallible.orBail (scanOutput keys c.output) "a stored coin no longer opens"
    .ok ⟨c.commitment, owned.value, owned.blinding, owned.ownerSecret⟩

/-- Builds the payment's transaction, reserves its coins and records it. -/
def finishSend (w : WalletCore) («to» : StealthAddress) (amount : Nat) (spend : List Spendable)
    (fee tipHeight now : Nat) (draw : TransactionDraw) : Result (WalletCore × BuiltSend) := do
  let built ← buildTransaction spend [⟨«to», amount⟩] w.view.address fee tipHeight draw
  let inputs := spend.map Spendable.commitment
  let kernel ← Fallible.orBail built.tx.body.kernels.head? (.panic "index out of bounds")
  let sent : Sent := ⟨built.tx.hash, kernel.id, «to», amount, fee, inputs,
    built.change.map Prod.fst, now, some built.tx, none, none, false⟩
  .ok ({ w with
      coins := w.coins.map fun c =>
        if c.commitment ∈ inputs then { c with pendingTx := some built.tx.hash } else c
      sent := w.sent ++ [sent] },
    ⟨built.tx.hash, amount, fee, inputs.length, (built.change.map Prod.snd).getD 0⟩)

/-- Builds a payment to a decoded address and reserves its coins. -/
def buildSend (w : WalletCore) («to» : StealthAddress) (amount : Nat) (fee : Option Nat)
    (tipHeight now : Nat) (draw : TransactionDraw) : Result (WalletCore × BuiltSend) := do
  let (chosen, fee) ← w.select amount fee tipHeight
  let spend ← w.spendables chosen
  w.finishSend «to» amount spend fee tipHeight now draw

/-- The same at the fee rate, and from the coins, that `options` names. -/
def buildSendWith (w : WalletCore) («to» : StealthAddress) (amount : Nat) (options : SendOptions)
    (tipHeight now : Nat) (draw : TransactionDraw) : Result (WalletCore × BuiltSend) := do
  let (chosen, fee) ← w.selectWith amount options tipHeight
  let spend ← w.spendables chosen
  w.finishSend «to» amount spend fee tipHeight now draw

end WalletCore

end Midwimble
