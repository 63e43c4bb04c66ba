import Mathlib.Data.List.Sort
import Midwimble.Core.Pool

namespace Midwimble
set_option autoImplicit true

/-- A coinbase's outputs, less the operator's. -/
def maxPaidMiners : Nat := maxGroupOutputs - 1

/-- Pool fees are in parts per million. -/
def feeScale : Nat := 1000000

/-- What the payout weights of a job add up to. -/
def payoutScale : Nat := 2 ^ 50

abbrev OwnerId := Bytes32

/-- A `u128`, if the value is one. -/
def fitU128 (n : Nat) : Option Nat := if n < 2 ^ 128 then some n else none

/-- `a - b` of unsigned integers, if it is one. -/
def subU128 (a b : Nat) : Option Nat := if b ≤ a then some (a - b) else none

/-- `Iterator::sum` of unsigned 128-bit integers. -/
def sumU128 (ws : List Nat) : Option Nat := ws.foldlM (fun sum w => fitU128 (sum + w)) 0

/-- The owners paid what they are entitled to so far, the smaller owners, and what the former
are paid in all. -/
structure Entitled where
  paid : List (OwnerId × Nat)
  small : List (OwnerId × Nat)
  exact : Nat

def Entitled.add (total weight : Nat) (acc : Entitled) (owner : OwnerId × Nat) :
    Option Entitled := do
  let scaled ← fitU128 (owner.2 * maxPaidMiners)
  if scaled ≥ weight then do
    let product ← fitU128 (total * owner.2)
    let amount := product / weight
    let exact ← fitU128 (acc.exact + amount)
    some { acc with paid := acc.paid ++ [(owner.1, amount)], exact := exact }
  else if owner.2 > 0 then some { acc with small := acc.small ++ [owner] }
  else some acc

/-- `u128::div_ceil`. -/
def divCeil (a b : Nat) : Nat := if a % b > 0 then a / b + 1 else a / b

/-- The first slot at or after a place on the smaller owners' line. -/
def firstSlotAt (slots smallWeight offset x : Nat) : Nat :=
  if x ≤ offset then 0 else min (divCeil (x - offset) smallWeight) slots

/-- The slots of a smaller owner that starts after `before` of the others' weight. -/
def slotsOf (slots smallWeight offset before w : Nat) : Option Nat := do
  let start ← fitU128 (slots * before)
  let stop ← fitU128 (slots * (before + w))
  subU128 (firstSlotAt slots smallWeight offset stop) (firstSlotAt slots smallWeight offset start)

/-- Pays the smaller owners for their slots, those with none left out. -/
def paySlots (slots smallWeight offset slotValue : Nat) :
    (before : Nat) → List (OwnerId × Nat) → Option (List (OwnerId × Nat))
  | _, [] => some []
  | before, (key, w) :: small => do
    let after ← fitU128 (before + w)
    let given ← slotsOf slots smallWeight offset before w
    let amount ← fitU128 (given * slotValue)
    let rest ← paySlots slots smallWeight offset slotValue after small
    some (if amount > 0 then (key, amount) :: rest else rest)

/-- Splits `total` among the owners in proportion to weight, with at most `maxPaidMiners` of them
paid, and what rounding left over; `none` where an intermediate overflows or underflows. -/
def allocate (total : Nat) (owners : List (OwnerId × Nat)) (offset : Nat) :
    Option (List (OwnerId × Nat) × Nat) := do
  let weight ← sumU128 (owners.map Prod.snd)
  if weight = 0 then some ([], total)
  else do
    let entitled ← owners.foldlM (Entitled.add total weight) ⟨[], [], 0⟩
    let rest ← subU128 total entitled.exact
    if entitled.small.isEmpty then some (entitled.paid, rest)
    else do
      let slots ← subU128 maxPaidMiners entitled.paid.length
      let smallWeight ← sumU128 (entitled.small.map Prod.snd)
      if slots = 0 ∨ smallWeight = 0 then none
      else do
        let slotValue := rest / slots
        let sampled ← paySlots slots smallWeight (offset % smallWeight) slotValue 0 entitled.small
        let shared ← fitU128 (slots * slotValue)
        let dust ← subU128 rest shared
        some ((entitled.paid ++ sampled).mergeSort fun a b => a.1 ≤ b.1, dust)

/-- Coinbase payout weights for a job by owner: the operator's, with the fee, then the miners'. -/
def payoutWeights (feePpm : Nat) (operator : OwnerId) (window : List (OwnerId × Nat))
    (seed : Bytes32) : Result (List (OwnerId × Nat)) := do
  Fallible.bailIf (feePpm ≥ feeScale) "invalid pool fee fraction"
  let scale := payoutScale
  let fee := scale * feePpm / feeScale
  let offset := seed.toNat % u128Max
  let (miners, dust) ← Fallible.orBail (allocate (scale - fee) window offset)
    (.panic "attempt to add with overflow")
  let weights := if fee + dust > 0 then [(operator, (fee + dust) % 2 ^ 64)] else []
  .ok (weights ++ miners.map fun m => (m.1, m.2 % 2 ^ 64))

end Midwimble
