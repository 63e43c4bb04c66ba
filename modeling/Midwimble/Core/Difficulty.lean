import Mathlib.Data.List.Sort
import Midwimble.Core.Emission

namespace Midwimble
set_option autoImplicit true

def u64Max : Nat := 2 ^ 64 - 1
def u128Max : Nat := 2 ^ 128 - 1

/-- Unsigned 128-bit saturating addition. -/
def satAdd128 (a b : Nat) : Nat := min (a + b) u128Max

theorem satAdd128_lt (a b : Nat) : satAdd128 a b < 2 ^ 128 := by
  simp only [satAdd128, u128Max]
  omega

/-- The result of a saturating `i64` operation. -/
def satI64 (x : Int) : Int := max (-2 ^ 63) (min x (2 ^ 63 - 1))

/-- A `u64` clamped into an `i64`. -/
def clampI64 (n : Nat) : Int := min n (2 ^ 63 - 1)

/-- The 16.16 approximation of `2 ^ (frac / 65536)`. -/
def asertFactor (frac : Nat) : Nat :=
  65536 + (frac * 45426) >>> 16 + (frac * frac * 15746) >>> 32 +
    (frac * frac * frac * 3643) >>> 48

/-- The last step of `asert_target`: at most the ceiling, and never zero. -/
def clampTarget (target : Nat) : Nat :=
  if target > 2 ^ 256 - 1 then 2 ^ 256 - 1 else if target = 0 then 1 else target

/-- ASERT for a chain whose genesis had this target and timestamp. -/
def asertTarget (genesisTarget : Bytes32) (genesisTimestamp height timestamp : Nat)
    (shift : Int) : Bytes32 :=
  if height = 0 then genesisTarget
  else
    let idealTime := satI64 (clampI64 height * targetBlockTime)
    let actualTime := satI64 (clampI64 timestamp - genesisTimestamp)
    let drift := satI64 (actualTime - idealTime)
    let exponent := (satI64 (drift * 65536)).tdiv asertHalfLife
    let shifts := satI64 (exponent / 65536 + shift)
    let frac := (exponent % 65536).toNat
    let f := asertFactor frac
    let genesis := genesisTarget.toNat
    let target := genesis / 65536 * f + (genesis % 65536) * f / 65536
    let ceiling := 2 ^ 256 - 1
    let target :=
      if shifts > 0 then
        let s := min shifts.toNat 255
        if target > ceiling >>> s then ceiling else target <<< s
      else if shifts < 0 then target >>> min (-shifts).toNat 255
      else target
    BitVec.ofNat 256 (clampTarget target)

/-- The target of the block after one at `height` stamped `timestamp`. -/
def calculateTarget (height timestamp : Nat) : Bytes32 :=
  let shift := match powAlgoAt height with
    | .walk => walkTargetShift
    | .blake3Chain => 0
  asertTarget genesisTarget genesisTimestamp height timestamp shift

/-- The value a new timestamp must exceed, if any. -/
def medianTimeFloor (previousTimestamps : List Nat) : Option Nat :=
  if previousTimestamps.length ≥ medianTimePastWindow then
    let recent := (previousTimestamps.reverse.take medianTimePastWindow).insertionSort (· ≤ ·)
    recent[medianTimePastWindow / 2]?
  else previousTimestamps.getLast?

/-- Smallest timestamp the next block may use. -/
def minNextTimestamp (previousTimestamps : List Nat) : Nat :=
  match medianTimeFloor previousTimestamps with
  | none => 0
  | some floor => floor + 1

/-- The displayed text of an error. -/
def TimestampError.text : TimestampError → String
  | .tooFarInFuture timestamp now =>
    s!"Block timestamp too far in future: {timestamp} > {now} (max future: {maxFutureBlockTime}s)"
  | .notAfterMedian timestamp floor =>
    s!"Block timestamp {timestamp} must be greater than {floor}"

def Err.text : Err → String
  | .message text => text
  | .timestamp e => e.text
  | .context text _ => text
  | .panic text => text

/-- An error with all its causes. -/
def Err.full : Err → String
  | .message text => text
  | .timestamp e => e.text
  | .context text cause => s!"{text}: {cause.full}"
  | .panic text => text

def validateTimestamp (newTimestamp : Nat) (previousTimestamps : List Nat)
    (currentTime : Nat) : Result Unit :=
  if newTimestamp > satAdd64 currentTime maxFutureBlockTime then
    .error (.timestamp (.tooFarInFuture newTimestamp currentTime))
  else match medianTimeFloor previousTimestamps with
    | some floor =>
      if newTimestamp ≤ floor then
        .error (.timestamp (.notAfterMedian newTimestamp floor))
      else .ok ()
    | none => .ok ()

/-- Work represented by a target, saturating at `u128::MAX`. -/
def calculateWork (target : Bytes32) : Nat :=
  let t := target.toNat
  if t = 0 then 0
  else
    let w := (2 ^ 256 - 1) / t
    if w > u128Max then u128Max else w

theorem calculateWork_le (target : Bytes32) : calculateWork target ≤ u128Max := by
  simp only [calculateWork]
  split
  · exact Nat.zero_le _
  · split <;> omega

theorem calculateWork_pos (h : target ≠ 0) : 0 < calculateWork target := by
  have ht : target.toNat ≠ 0 := fun h0 => h (BitVec.eq_of_toNat_eq h0)
  have hq : 0 < (2 ^ 256 - 1) / target.toNat :=
    Nat.div_pos (by have := target.isLt; omega) (by omega)
  simp only [calculateWork, if_neg ht]
  split
  · decide
  · exact hq

theorem clampTarget_pos : 0 < clampTarget target := by
  unfold clampTarget
  split
  · decide
  · split <;> omega

theorem clampTarget_lt : clampTarget target < 2 ^ 256 := by
  unfold clampTarget
  split
  · decide
  · split <;> omega

theorem asertTarget_ne_zero (h : genesisTarget ≠ 0) :
    asertTarget genesisTarget genesisTimestamp height timestamp shift ≠ 0 := by
  unfold asertTarget
  split
  · exact h
  · intro h0
    have hn := congrArg BitVec.toNat h0
    rw [BitVec.toNat_ofNat, Nat.mod_eq_of_lt clampTarget_lt] at hn
    exact absurd hn (Nat.ne_of_gt clampTarget_pos)

theorem calculateTarget_ne_zero : calculateTarget height timestamp ≠ 0 :=
  asertTarget_ne_zero (by decide)

theorem validateTimestamp_eq_ok :
    validateTimestamp newTimestamp previousTimestamps currentTime = .ok () ↔
      newTimestamp ≤ satAdd64 currentTime maxFutureBlockTime ∧
        ∀ floor, medianTimeFloor previousTimestamps = some floor → floor < newTimestamp := by
  simp only [validateTimestamp]
  split
  · simp; omega
  · cases medianTimeFloor previousTimestamps with
    | none => simp; omega
    | some floor => simp; omega

theorem minNextTimestamp_le
    (h : validateTimestamp newTimestamp previousTimestamps currentTime = .ok ()) :
    minNextTimestamp previousTimestamps ≤ newTimestamp := by
  obtain ⟨_, hf⟩ := validateTimestamp_eq_ok.mp h
  simp only [minNextTimestamp]
  cases hm : medianTimeFloor previousTimestamps with
  | none => exact Nat.zero_le _
  | some floor => exact hf floor hm

end Midwimble
