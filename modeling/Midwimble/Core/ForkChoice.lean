import Midwimble.Core.Bond

namespace Midwimble
set_option autoImplicit true

def capWindow : Nat := 24 * 60
def capK : Nat := 360
def overCapWorkDivisor : Nat := 1024
def workCapWindow : Nat := 7 * 24 * 60
def workCapHeadroom : Nat := 4

/-- Full-weight blocks one bond may sign per window. -/
def signerCap (bonds : BondSet) (blockTimestamp : Nat) : Nat :=
  let eligible := (bonds.entries.toList.filter fun p => p.2.eligibleAt blockTimestamp).length
  let sharers := min (max eligible 1) capK
  (capWindow + sharers - 1) / sharers

/-- The subsidy a signed block may mint, its bond having signed `n` of the window. -/
def cappedSubsidy (reward n cap : Nat) : Nat :=
  if n ≤ cap then reward else reward * cap / n

/-- What the block at `height` may mint. `counts` already counts the block. -/
def subsidyFor (signer : Option Bytes32) (counts : Std.ExtTreeMap Bytes32 Nat)
    (bonds : BondSet) (height blockTimestamp : Nat) : Nat :=
  let reward := blockReward height
  match signer with
  | some id =>
    if blockTimestamp ≥ launchEarlyBondsUntil then
      cappedSubsidy reward (counts[id]?.getD 0) (signerCap bonds blockTimestamp)
    else reward
  | none => reward

/-- Whether any registered bond could sign a block stamped `blockTimestamp`. -/
def anyCanSign (bonds : BondSet) (blockTimestamp : Nat) : Bool :=
  bonds.entries.toList.any fun p => p.2.eligibleAt blockTimestamp

/-- What fork choice credits an over-cap or unsigned block. -/
def sliver (work : Nat) : Nat := max (work / overCapWorkDivisor) 1

/-- Drops the low points that have left the window of the block at `height`. -/
def keepWindowOf (floor : List (Nat × Nat)) (height : Nat) : List (Nat × Nat) :=
  floor.dropWhile fun p => p.1 < height - workCapWindow

/-- The work fork choice may credit the block at `height`, and the window after it. -/
def capWork (floor : List (Nat × Nat)) (height work : Nat) : Nat × List (Nat × Nat) :=
  let floor := keepWindowOf floor height
  let credited := match floor.head? with
    | some (_, low) => min work (satAdd128 low (low / workCapHeadroom))
    | none => work
  let floor := floor.rdropWhile (fun p => p.2 ≥ work) ++ [(height, work)]
  (credited, keepWindowOf floor (height + 1))

/-- Runs `capWork` over blocks of these works from `height` on: the credits, and the window left. -/
def capWorks (floor : List (Nat × Nat)) (height : Nat) : List Nat → List Nat × List (Nat × Nat)
  | [] => ([], floor)
  | work :: works =>
    let (credited, floor) := capWork floor height work
    let (credits, floor) := capWorks floor (height + 1) works
    (credited :: credits, floor)

/-- Forgets one block of a signer that left the window. -/
def uncount (counts : Std.ExtTreeMap Bytes32 Nat) (signer : Option Bytes32) :
    Std.ExtTreeMap Bytes32 Nat :=
  match signer with
  | none => counts
  | some old =>
    match counts[old]? with
    | some count => if count > 1 then counts.insert old (count - 1) else counts.erase old
    | none => counts.erase old

/-- The eviction loop of `credit_in_window`. -/
def evict : List (Option Bytes32) → Std.ExtTreeMap Bytes32 Nat →
    List (Option Bytes32) × Std.ExtTreeMap Bytes32 Nat
  | [], counts => ([], counts)
  | old :: rest, counts =>
    if (old :: rest).length > capWindow then evict rest (uncount counts old)
    else (old :: rest, counts)

/-- Counts a block's signer. -/
def count (counts : Std.ExtTreeMap Bytes32 Nat) (signer : Option Bytes32) :
    Std.ExtTreeMap Bytes32 Nat :=
  match signer with
  | none => counts
  | some id => counts.insert id (counts[id]?.getD 0 + 1)

/-- Signers of the last `capWindow` blocks, and how many each bond signed. -/
structure SignerWindow where
  recent : List (Option Bytes32)
  counts : Std.ExtTreeMap Bytes32 Nat
  deriving DecidableEq

def SignerWindow.empty : SignerWindow := ⟨[], ∅⟩

/-- Moves the window over a block signed by `signer`. -/
def SignerWindow.push (w : SignerWindow) (signer : Option Bytes32) : SignerWindow :=
  let (recent, counts) := evict (w.recent ++ [signer]) (count w.counts signer)
  ⟨recent, counts⟩

/-- Records a block in the signer window and returns the work it adds to its chain's weight. -/
def creditInWindow (w : SignerWindow) (bonds : BondSet) (height : Nat)
    (signer : Option Bytes32) (work blockTimestamp : Nat) : Nat × SignerWindow :=
  let w := w.push signer
  let credited := match signer with
    | some id =>
      if w.counts[id]?.getD 0 > signerCap bonds blockTimestamp then sliver work else work
    | none => if height ≥ bondedMiningFrom then sliver work else work
  (credited, w)

/-- Whether the block at `height` could add `credited` to its chain's weight. -/
def creditPossible (creditable : Nat) (signed : Bool) (height credited : Nat) : Bool :=
  match signed, decide (height ≥ bondedMiningFrom) with
  | true, _ => credited = creditable ∨ credited = sliver creditable
  | false, true => credited = sliver creditable
  | false, false => credited = creditable

/-- Rebuilds the signer window from the signers of the blocks before, oldest first. -/
def rebuildSignerWindow (bonds : BondSet) (signers : List (Option Bytes32)) : SignerWindow :=
  signers.foldl (fun w signer => (creditInWindow w bonds 0 signer 0 0).2) .empty

/-- Rebuilds the work window from the height and work of the blocks before, oldest first. -/
def rebuildWorkFloor (works : List (Nat × Nat)) : List (Nat × Nat) :=
  works.foldl (fun floor p => (capWork floor p.1 p.2).2) []

end Midwimble
