import Mathlib.Tactic.Positivity
import Midwimble.Core.Primitives

namespace Midwimble
set_option autoImplicit true

def networkMagic : Bytes := Bytes.ascii "MIDWIMBLE_TESTNET_V3"

def bitcoinBlockHash : Bytes :=
  Bytes.ascii "0000000000000000000002e8c04d9ecd85080d6371bc002543ae0e425fd5cd52"

def bitcoinBlockHeight : Nat := 971656

/-- The hex text of the midstate block hash, as the genesis midstate absorbs it. -/
def midstateBlockHashHex : Bytes :=
  Bytes.ascii "00000001c2f5feb4ea71852dabc7c7c99662a6fb5da5845306bffbf95c60cbd2"

def midstateBlockHash : Bytes32 :=
  0x00000001c2f5feb4ea71852dabc7c7c99662a6fb5da5845306bffbf95c60cbd2

def midstateBlockHeight : Nat := 334607

def genesisTimestamp : Nat := 1792122068

def genesisTarget : Bytes32 :=
  0x000006e4720bffffffffffffffffffffffffffffffffffffffffffffffffff9c

def launchMinMiningBond : Nat := 137438953472
def launchMinRemainingBondLock : Nat := 43200
def launchEarlyBondsUntil : Nat := 1793404800
def launchEarlyMinMiningBond : Nat := 16777216
def launchEarlyMinRemainingBondLock : Nat := 2880

def genesisInscription : Bytes :=
  Bytes.ascii "midwimble: midstate consensus and networking, pluribit mimblewimble"

def targetBlockTime : Nat := 60
def asertHalfLife : Nat := 4 * 60 * 60
def medianTimePastWindow : Nat := 11
def maxFutureBlockTime : Nat := 15 * 60
def extensionIterations : Nat := 1000000
def walkActivationHeight : Nat := 37300
def walkTargetShift : Int := 3
def midstateWalkActivationHeight : Nat := 371500
def midstateWalkTargetShift : Int := 3

inductive PowAlgo where
  | blake3Chain
  | walk
  deriving DecidableEq

/-- The proof of work midwimble block `height` carries, natively or merged. -/
def powAlgoAt (height : Nat) : PowAlgo :=
  if height ≥ walkActivationHeight then .walk else .blake3Chain

/-- The proof of work midstate's block `midstateHeight` carries. -/
def midstatePowAlgoAt (midstateHeight : Nat) : PowAlgo :=
  if midstateHeight ≥ midstateWalkActivationHeight then .walk else .blake3Chain

def coin : Nat := 100000000
def maxSupply : Nat := 1000000 * coin
def coinbaseMaturity : Nat := 100
def inputWeight : Nat := 1
def outputWeight : Nat := 21
def kernelWeight : Nat := 3
def maxBlockWeight : Nat := 40000
def maxTxWeight : Nat := 10000

structure Emission where
  initialReward : Nat
  halvingInterval : Nat
  slowStart : Nat
  maxSupply : Nat

/-- The schedule this build enforces. -/
def emission : Emission where
  initialReward := 23932616
  halvingInterval := 2100000
  slowStart := 30 * 24 * 60
  maxSupply := maxSupply

/-- `u128` arithmetic of a release build, which wraps. -/
def add128 (a b : Nat) : Nat := (a + b) % 2 ^ 128
def sub128 (a b : Nat) : Nat := (a + 2 ^ 128 - b) % 2 ^ 128
def mul128 (a b : Nat) : Nat := a * b % 2 ^ 128

/-- `u64` subtraction of a release build. -/
def sub64 (a b : Nat) : Nat := (a + 2 ^ 64 - b) % 2 ^ 64

theorem add128_eq (h : a + b < 2 ^ 128) : add128 a b = a + b := Nat.mod_eq_of_lt h

theorem mul128_eq (h : a * b < 2 ^ 128) : mul128 a b = a * b := Nat.mod_eq_of_lt h

theorem sub128_eq (hle : b ≤ a) (h : a - b < 2 ^ 128) : sub128 a b = a - b := by
  rw [sub128, Nat.add_comm, Nat.add_sub_assoc hle, Nat.add_mod_left, Nat.mod_eq_of_lt h]

theorem sub64_eq (hle : b ≤ a) (h : a - b < 2 ^ 64) : sub64 a b = a - b := by
  rw [sub64, Nat.add_comm, Nat.add_sub_assoc hle, Nat.add_mod_left, Nat.mod_eq_of_lt h]

namespace Emission

/-- The loop over eras 1, 2, …: `[k * interval, (k + 1) * interval)` paying `reward >> k`. -/
def eras (reward interval last : Nat) : (fuel k total : Nat) → Nat
  | 0, _, total => total
  | fuel + 1, k, total =>
    let start := mul128 k interval
    if start > last then total
    else
      let eraReward := reward >>> k
      if eraReward = 0 then total
      else
        let finish := min last (sub128 (add128 start interval) 1)
        eras reward interval last fuel (k + 1)
          (add128 total (mul128 (add128 (sub128 finish start) 1) eraReward))

/-- The slow start: `m` blocks into it, each block has paid about its share of a ramp. -/
def ramp (e : Emission) (last : Nat) : Nat :=
  let m := min last e.slowStart
  if e.slowStart = 0 then 0
  else mul128 (mul128 e.initialReward m) (add128 m 1) / mul128 2 e.slowStart

/-- What era 0 pays after its slow start. -/
def restOfEraZero (e : Emission) (last : Nat) : Nat :=
  if last > e.slowStart then
    mul128 (sub128 (min last (sub128 e.halvingInterval 1)) e.slowStart) e.initialReward
  else 0

/-- Issuance scheduled for blocks `1..height`, before the cap applies. -/
def scheduledBefore (e : Emission) (height : Nat) : Nat :=
  if height ≤ 1 then 0
  else
    let last := height - 1
    eras e.initialReward e.halvingInterval last 63 1 (add128 (e.ramp last) (e.restOfEraZero last))

/-- Coins in existence with `height` as the next block's height. -/
def issuedBefore (e : Emission) (height : Nat) : Nat :=
  min (e.scheduledBefore height) e.maxSupply

/-- The binary search of `final_reward_height` over `[lo, hi]`. -/
def searchFinal (e : Emission) : (fuel lo hi : Nat) → Nat
  | 0, lo, _ => lo
  | fuel + 1, lo, hi =>
    if lo < hi then
      let mid := lo + (hi - lo) / 2
      if e.issuedBefore (satAdd64 mid 1) ≥ e.maxSupply then e.searchFinal fuel lo mid
      else e.searchFinal fuel (mid + 1) hi
    else lo

/-- The last height whose block mints, if the schedule reaches its cap. -/
def finalRewardHeight (e : Emission) : Option Nat :=
  let hi := min (64 * e.halvingInterval) (2 ^ 64 - 1)
  if e.issuedBefore (satAdd64 hi 1) < e.maxSupply then none else some (e.searchFinal 64 1 hi)

/-- What the block at `height` may mint. -/
def blockReward (e : Emission) (height : Nat) : Nat :=
  if height = 0 then 0 else sub64 (e.issuedBefore (satAdd64 height 1)) (e.issuedBefore height)

/-- Parameters whose schedule stays inside 128 bits. -/
structure Fits (e : Emission) : Prop where
  slow : e.slowStart < e.halvingInterval
  interval : e.halvingInterval < 2 ^ 64
  supply : e.maxSupply < 2 ^ 64
  eras : e.initialReward * e.halvingInterval * 64 < 2 ^ 128
  ramp : e.initialReward * e.slowStart * (e.slowStart + 1) < 2 ^ 128

/-- The eras in unbounded numbers. -/
def curveEras (reward interval last : Nat) : (fuel k total : Nat) → Nat
  | 0, _, total => total
  | fuel + 1, k, total =>
    if k * interval > last then total
    else if reward >>> k = 0 then total
    else
      curveEras reward interval last fuel (k + 1)
        (total + (min last (k * interval + interval - 1) - k * interval + 1) * reward >>> k)

def curveRamp (e : Emission) (last : Nat) : Nat :=
  let m := min last e.slowStart
  if e.slowStart = 0 then 0 else e.initialReward * m * (m + 1) / (2 * e.slowStart)

def curveRest (e : Emission) (last : Nat) : Nat :=
  if last > e.slowStart then
    (min last (e.halvingInterval - 1) - e.slowStart) * e.initialReward
  else 0

/-- The whole curve in unbounded numbers. -/
def curveBefore (e : Emission) (height : Nat) : Nat :=
  if height ≤ 1 then 0
  else curveEras e.initialReward e.halvingInterval (height - 1) 63 1
    (e.curveRamp (height - 1) + e.curveRest (height - 1))

section Curve

variable {e : Emission} {reward interval last total fuel k : Nat}

/-- No era pays more than a whole one at the full reward, so no sum wraps. -/
theorem eras_eq_curve (hinterval : 0 < interval) (hfits : interval < 2 ^ 64)
    (hk : k + fuel ≤ 64) (htotal : total ≤ k * (reward * interval))
    (hreward : reward * interval * 64 < 2 ^ 128) :
    eras reward interval last fuel k total = curveEras reward interval last fuel k total := by
  induction fuel generalizing k total with
  | zero => rfl
  | succ fuel ih =>
    have hstart : k * interval < 2 ^ 70 := by
      calc k * interval ≤ 64 * interval := Nat.mul_le_mul_right _ (by omega)
        _ < 2 ^ 70 := by omega
    have hmul : mul128 k interval = k * interval := mul128_eq (hstart.trans (by decide))
    simp only [eras, curveEras, hmul]
    split
    · rfl
    · rename_i hle
      split
      · rfl
      · have hadd : add128 (k * interval) interval = k * interval + interval :=
          add128_eq (by omega)
        have hfinish : sub128 (k * interval + interval) 1 = k * interval + interval - 1 :=
          sub128_eq (by omega) (by omega)
        generalize hf : min last (k * interval + interval - 1) = finish
        have hblocks : finish - k * interval + 1 ≤ interval := by omega
        have hsub : sub128 finish (k * interval) = finish - k * interval :=
          sub128_eq (by omega) (by omega)
        have hone : add128 (finish - k * interval) 1 = finish - k * interval + 1 :=
          add128_eq (by omega)
        have hera : (finish - k * interval + 1) * reward >>> k ≤ reward * interval := by
          rw [Nat.mul_comm reward, Nat.shiftRight_eq_div_pow]
          exact Nat.mul_le_mul hblocks (Nat.div_le_self _ _)
        have hpaid : mul128 (finish - k * interval + 1) (reward >>> k) =
            (finish - k * interval + 1) * reward >>> k := mul128_eq (by omega)
        have hnext : total + (finish - k * interval + 1) * reward >>> k ≤
            (k + 1) * (reward * interval) := by
          calc total + (finish - k * interval + 1) * reward >>> k
              ≤ k * (reward * interval) + reward * interval := Nat.add_le_add htotal hera
            _ = (k + 1) * (reward * interval) := (Nat.succ_mul _ _).symm
        have hroom : (k + 1) * (reward * interval) ≤ 64 * (reward * interval) :=
          Nat.mul_le_mul_right _ (by omega)
        have hsum : add128 total ((finish - k * interval + 1) * reward >>> k) =
            total + (finish - k * interval + 1) * reward >>> k := add128_eq (by omega)
        rw [hadd, hfinish, hf, hsub, hone, hpaid, hsum]
        exact ih (by omega) hnext

theorem Fits.ramp_eq (h : e.Fits) (last : Nat) : e.ramp last = e.curveRamp last := by
  have hslow := h.slow
  have hinterval := h.interval
  simp only [Emission.ramp, curveRamp]
  split
  · rfl
  · have hm : min last e.slowStart ≤ e.slowStart := Nat.min_le_right _ _
    have hpaid : e.initialReward * min last e.slowStart * (min last e.slowStart + 1) < 2 ^ 128 :=
      lt_of_le_of_lt (Nat.mul_le_mul (Nat.mul_le_mul_left _ hm) (Nat.succ_le_succ hm)) h.ramp
    have hpart : e.initialReward * min last e.slowStart < 2 ^ 128 :=
      lt_of_le_of_lt (Nat.le_mul_of_pos_right _ (Nat.succ_pos _)) hpaid
    rw [mul128_eq hpart, add128_eq (by omega), mul128_eq hpaid, mul128_eq (by omega)]

theorem Fits.rest_eq (h : e.Fits) (last : Nat) : e.restOfEraZero last = e.curveRest last := by
  have hslow := h.slow
  have hinterval := h.interval
  simp only [restOfEraZero, curveRest]
  split
  · have hone : sub128 e.halvingInterval 1 = e.halvingInterval - 1 :=
      sub128_eq (by omega) (by omega)
    have hpaid : (min last (e.halvingInterval - 1) - e.slowStart) * e.initialReward < 2 ^ 128 := by
      have hblocks : min last (e.halvingInterval - 1) - e.slowStart ≤ e.halvingInterval := by omega
      have hle := Nat.mul_le_mul_right e.initialReward hblocks
      have heras := h.eras
      rw [Nat.mul_comm e.initialReward] at heras
      omega
    rw [hone, sub128_eq (by omega) (by omega), mul128_eq hpaid]
  · rfl

theorem Fits.eraZero_le (h : e.Fits) (last : Nat) :
    e.curveRamp last + e.curveRest last ≤ e.initialReward * e.halvingInterval := by
  have hslow := h.slow
  have hramp : e.curveRamp last ≤ e.initialReward * e.slowStart := by
    simp only [curveRamp]
    split
    · exact Nat.zero_le _
    · apply Nat.div_le_of_le_mul
      have hm : min last e.slowStart ≤ e.slowStart := Nat.min_le_right _ _
      calc e.initialReward * min last e.slowStart * (min last e.slowStart + 1)
          ≤ e.initialReward * e.slowStart * (2 * e.slowStart) :=
            Nat.mul_le_mul (Nat.mul_le_mul_left _ hm) (by omega)
        _ = 2 * e.slowStart * (e.initialReward * e.slowStart) := Nat.mul_comm _ _
  have hrest : e.curveRest last ≤ e.initialReward * (e.halvingInterval - e.slowStart) := by
    simp only [curveRest]
    split
    · rw [Nat.mul_comm]
      exact Nat.mul_le_mul_left _ (by omega)
    · exact Nat.zero_le _
  calc e.curveRamp last + e.curveRest last
      ≤ e.initialReward * e.slowStart + e.initialReward * (e.halvingInterval - e.slowStart) :=
        Nat.add_le_add hramp hrest
    _ = e.initialReward * e.halvingInterval := by
        rw [← Nat.mul_add, Nat.add_sub_cancel' (Nat.le_of_lt hslow)]

theorem Fits.scheduledBefore_eq (h : e.Fits) (height : Nat) :
    e.scheduledBefore height = e.curveBefore height := by
  simp only [scheduledBefore, curveBefore]
  split
  · rfl
  · have hslow := h.slow
    have hzero := h.eraZero_le (height - 1)
    have heras := h.eras
    rw [h.ramp_eq, h.rest_eq, add128_eq (by omega)]
    exact eras_eq_curve (by omega) h.interval (by omega) (by omega) heras

end Curve

theorem curveEras_total_le (reward interval last fuel k total : Nat) :
    total ≤ curveEras reward interval last fuel k total := by
  induction fuel generalizing k total with
  | zero => exact Nat.le_refl _
  | succ fuel ih =>
    simp only [curveEras]
    split
    · exact Nat.le_refl _
    · split
      · exact Nat.le_refl _
      · exact Nat.le_trans (Nat.le_add_right _ _) (ih _ _)

theorem curveEras_mono (hl : last ≤ last') (ht : total ≤ total') :
    curveEras reward interval last fuel k total ≤ curveEras reward interval last' fuel k total' := by
  induction fuel generalizing k total total' with
  | zero => exact ht
  | succ fuel ih =>
    simp only [curveEras]
    by_cases hs : k * interval > last
    · rw [if_pos hs]
      exact Nat.le_trans ht (curveEras_total_le _ _ _ (fuel + 1) k _)
    · rw [if_neg hs, if_neg (by omega : ¬ k * interval > last')]
      split
      · exact ht
      · apply ih
        gcongr

theorem curveRamp_mono (e : Emission) (h : a ≤ b) : e.curveRamp a ≤ e.curveRamp b := by
  simp only [curveRamp]
  split
  · exact Nat.le_refl _
  · gcongr

theorem curveRest_mono (e : Emission) (h : a ≤ b) : e.curveRest a ≤ e.curveRest b := by
  simp only [curveRest]
  by_cases ha : a > e.slowStart
  · rw [if_pos ha, if_pos (Nat.lt_of_lt_of_le ha h)]
    gcongr
  · rw [if_neg ha]
    exact Nat.zero_le _

theorem curveBefore_mono (e : Emission) (h : a ≤ b) : e.curveBefore a ≤ e.curveBefore b := by
  simp only [curveBefore]
  by_cases ha : a ≤ 1
  · rw [if_pos ha]
    exact Nat.zero_le _
  · rw [if_neg ha, if_neg (by omega)]
    have hl : a - 1 ≤ b - 1 := by omega
    exact curveEras_mono hl (Nat.add_le_add (e.curveRamp_mono hl) (e.curveRest_mono hl))

section Issued

variable {e : Emission} {height a b : Nat}

theorem issuedBefore_le (e : Emission) (height : Nat) : e.issuedBefore height ≤ e.maxSupply :=
  Nat.min_le_right _ _

theorem Fits.issuedBefore_mono (he : e.Fits) (h : a ≤ b) :
    e.issuedBefore a ≤ e.issuedBefore b := by
  have hs := e.curveBefore_mono h
  simp only [issuedBefore, he.scheduledBefore_eq]
  omega

theorem Fits.blockReward_eq (he : e.Fits) (h : height < 2 ^ 64) (h0 : height ≠ 0) :
    e.blockReward height = e.issuedBefore (satAdd64 height 1) - e.issuedBefore height := by
  have hnext : height ≤ satAdd64 height 1 := by
    unfold satAdd64
    omega
  have hle := e.issuedBefore_le (satAdd64 height 1)
  have hsupply := he.supply
  rw [blockReward, if_neg h0]
  exact sub64_eq (he.issuedBefore_mono hnext) (by omega)

theorem Fits.issuedBefore_add_blockReward (he : e.Fits) (h : height + 1 < 2 ^ 64)
    (h0 : height ≠ 0) :
    e.issuedBefore height + e.blockReward height = e.issuedBefore (height + 1) := by
  have hs : satAdd64 height 1 = height + 1 := by
    unfold satAdd64
    omega
  have hm : e.issuedBefore height ≤ e.issuedBefore (height + 1) :=
    he.issuedBefore_mono (Nat.le_succ height)
  rw [he.blockReward_eq (by omega) h0, hs]
  omega

end Issued

end Emission

theorem emission_fits : emission.Fits := by
  constructor <;> decide

def blockReward (height : Nat) : Nat := emission.blockReward height

/-- The supply a state whose next block is `height` may have. -/
def issuedBefore (height : Nat) : Nat := emission.issuedBefore height

/-- Decimal digits of `n`, at least `width` of them. -/
def padded (width n : Nat) : String :=
  let digits := toString n
  String.ofList (List.replicate (width - digits.length) '0') ++ digits

/-- Base units as coins. -/
def formatAmount (units : Nat) : String :=
  toString (units / coin) ++ "." ++ padded 8 (units % coin)

end Midwimble
