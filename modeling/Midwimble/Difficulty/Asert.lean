import Midwimble.Core.Relay

namespace Midwimble
set_option autoImplicit true

/-- Seconds a chain is behind its schedule, or ahead of it when negative. -/
def asertDrift (genesisTimestamp height timestamp : Nat) : Int :=
  satI64 (satI64 (clampI64 timestamp - genesisTimestamp) -
    satI64 (clampI64 height * targetBlockTime))

/-- The drift in half-lives, in 48.16 fixed point. -/
def asertExponent (genesisTimestamp height timestamp : Nat) : Int :=
  (satI64 (asertDrift genesisTimestamp height timestamp * 65536)).tdiv asertHalfLife

/-- A target times the factor of a fraction of a half-life. -/
def scaleTarget (genesis frac : Nat) : Nat :=
  genesis / 65536 * asertFactor frac + (genesis % 65536) * asertFactor frac / 65536

/-- A target times `2 ^ shifts`, at most the ceiling. -/
def shiftTarget (shifts : Int) (target : Nat) : Nat :=
  if shifts > 0 then
    let s := min shifts.toNat 255
    if target > (2 ^ 256 - 1) >>> s then 2 ^ 256 - 1 else target <<< s
  else if shifts < 0 then target >>> min (-shifts).toNat 255
  else target

/-- The target at an exponent. -/
def asertValue (genesis : Nat) (shift exponent : Int) : Nat :=
  clampTarget (shiftTarget (satI64 (exponent / 65536 + shift))
    (scaleTarget genesis (exponent % 65536).toNat))

variable {genesisTarget : Bytes32}
  {genesisTimestamp genesisTimestamp' height height' timestamp timestamp' : Nat} {shift : Int}

theorem asertTarget_toNat (h : 1 ≤ height) :
    (asertTarget genesisTarget genesisTimestamp height timestamp shift).toNat =
      asertValue genesisTarget.toNat shift (asertExponent genesisTimestamp height timestamp) := by
  have heq : asertTarget genesisTarget genesisTimestamp height timestamp shift =
      BitVec.ofNat 256 (asertValue genesisTarget.toNat shift
        (asertExponent genesisTimestamp height timestamp)) := by
    rw [asertTarget, if_neg (Nat.ne_of_gt h)]
    rfl
  rw [heq, BitVec.toNat_ofNat]
  exact Nat.mod_eq_of_lt clampTarget_lt

theorem satI64_mono (h : a ≤ b) : satI64 a ≤ satI64 b :=
  max_le_max (Int.le_refl _) (min_le_min h (Int.le_refl _))

theorem clampI64_mono (h : a ≤ b) : clampI64 a ≤ clampI64 b := by
  apply min_le_min _ (Int.le_refl _)
  exact_mod_cast h

theorem asertDrift_mono (h : timestamp ≤ timestamp') :
    asertDrift genesisTimestamp height timestamp ≤
      asertDrift genesisTimestamp height timestamp' := by
  apply satI64_mono
  apply Int.sub_le_sub_right
  apply satI64_mono
  exact Int.sub_le_sub_right (clampI64_mono h) _

theorem asertDrift_anti (h : height ≤ height') :
    asertDrift genesisTimestamp height' timestamp ≤
      asertDrift genesisTimestamp height timestamp := by
  apply satI64_mono
  apply Int.sub_le_sub_left
  apply satI64_mono
  apply Int.mul_le_mul_of_nonneg_right (clampI64_mono h)
  exact Int.natCast_nonneg _

theorem asertExponent_mono
    (h : asertDrift genesisTimestamp height timestamp ≤
      asertDrift genesisTimestamp' height' timestamp') :
    asertExponent genesisTimestamp height timestamp ≤
      asertExponent genesisTimestamp' height' timestamp' := by
  apply Int.tdiv_le_tdiv (by decide)
  apply satI64_mono
  exact Int.mul_le_mul_of_nonneg_right h (by decide)

section Factor

variable {frac frac' genesis : Nat}

theorem asertFactor_mono (h : frac ≤ frac') : asertFactor frac ≤ asertFactor frac' := by
  simp only [asertFactor, Nat.shiftRight_eq_div_pow]
  have hsquare : frac * frac ≤ frac' * frac' := Nat.mul_le_mul h h
  gcongr

theorem asertFactor_lt (h : frac < 65536) : asertFactor frac < 131072 := by
  simp only [asertFactor, Nat.shiftRight_eq_div_pow]
  have hsquare : frac * frac ≤ 65535 * 65535 := Nat.mul_le_mul (by omega) (by omega)
  have hcube : frac * frac * frac ≤ 65535 * 65535 * 65535 := Nat.mul_le_mul hsquare (by omega)
  omega

theorem asertFactor_ge (frac : Nat) : 65536 ≤ asertFactor frac := by
  simp only [asertFactor]
  omega

theorem scaleTarget_mono (h : frac ≤ frac') :
    scaleTarget genesis frac ≤ scaleTarget genesis frac' := by
  have hf := asertFactor_mono h
  simp only [scaleTarget]
  gcongr

theorem le_scaleTarget : genesis ≤ scaleTarget genesis frac := by
  have hf := asertFactor_ge frac
  calc genesis = genesis / 65536 * 65536 + genesis % 65536 * 65536 / 65536 := by omega
    _ ≤ scaleTarget genesis frac := by
      simp only [scaleTarget]
      gcongr

theorem scaleTarget_lt (hpos : 0 < genesis) (frac : Nat) (h : frac < 65536) :
    scaleTarget genesis frac < 2 * genesis := by
  have hf : asertFactor frac ≤ 131071 := Nat.le_of_lt_succ (asertFactor_lt h)
  have hle : scaleTarget genesis frac ≤
      genesis / 65536 * 131071 + genesis % 65536 * 131071 / 65536 := by
    simp only [scaleTarget]
    gcongr
  omega

theorem scaleTarget_zero : scaleTarget genesis 0 = genesis := by
  have hf : asertFactor 0 = 65536 := rfl
  simp only [scaleTarget, hf]
  omega

end Factor

section Shift

variable {s s' : Int} {t t' genesis : Nat}

theorem shiftTarget_of_pos (hs : 0 < s) :
    shiftTarget s t = min (t * 2 ^ min s.toNat 255) (2 ^ 256 - 1) := by
  have hpow : 0 < 2 ^ min s.toNat 255 := Nat.two_pow_pos _
  simp only [shiftTarget, if_pos hs, Nat.shiftRight_eq_div_pow, Nat.shiftLeft_eq]
  split
  case isTrue h =>
    have hlt : 2 ^ 256 - 1 < t * 2 ^ min s.toNat 255 := (Nat.div_lt_iff_lt_mul hpow).mp h
    rw [Nat.min_eq_right (Nat.le_of_lt hlt)]
  case isFalse h =>
    have hle : t * 2 ^ min s.toNat 255 ≤ 2 ^ 256 - 1 :=
      (Nat.le_div_iff_mul_le hpow).mp (Nat.le_of_not_gt h)
    rw [Nat.min_eq_left hle]

theorem shiftTarget_of_nonpos (hs : s ≤ 0) :
    shiftTarget s t = t / 2 ^ min (-s).toNat 255 := by
  simp only [shiftTarget, if_neg (Int.not_lt.mpr hs), Nat.shiftRight_eq_div_pow]
  split
  · rfl
  · obtain rfl : s = 0 := by omega
    simp

theorem shiftTarget_mono (h : t ≤ t') : shiftTarget s t ≤ shiftTarget s t' := by
  rcases Int.lt_or_le 0 s with hs | hs
  · rw [shiftTarget_of_pos hs, shiftTarget_of_pos hs]
    exact min_le_min (Nat.mul_le_mul_right _ h) (Nat.le_refl _)
  · rw [shiftTarget_of_nonpos hs, shiftTarget_of_nonpos hs]
    exact Nat.div_le_div_right h

theorem shiftTarget_le (ht : t < 2 ^ 256) : shiftTarget s t ≤ 2 ^ 256 - 1 := by
  rcases Int.lt_or_le 0 s with hs | hs
  · rw [shiftTarget_of_pos hs]
    exact Nat.min_le_right _ _
  · rw [shiftTarget_of_nonpos hs]
    exact Nat.le_trans (Nat.div_le_self _ _) (by omega)

theorem shiftTarget_le_mul : shiftTarget s t ≤ t * 2 ^ 255 := by
  rcases Int.lt_or_le 0 s with hs | hs
  · rw [shiftTarget_of_pos hs]
    apply Nat.le_trans (Nat.min_le_left _ _)
    exact Nat.mul_le_mul_left _ (Nat.pow_le_pow_right (by decide) (Nat.min_le_right _ _))
  · rw [shiftTarget_of_nonpos hs]
    exact Nat.le_trans (Nat.div_le_self _ _) (Nat.le_mul_of_pos_right _ (Nat.two_pow_pos _))

theorem clampTarget_eq : clampTarget t = max 1 (min t (2 ^ 256 - 1)) := by
  simp only [clampTarget]
  split
  · omega
  · split <;> omega

theorem clampTarget_mono (h : t ≤ t') : clampTarget t ≤ clampTarget t' := by
  rw [clampTarget_eq, clampTarget_eq]
  exact max_le_max (Nat.le_refl _) (min_le_min h (Nat.le_refl _))

theorem clampTarget_shiftTarget_of_le (ht : t < 2 ^ 256) (hs : s ≤ -255) :
    clampTarget (shiftTarget s t) = 1 := by
  have hmin : min (-s).toNat 255 = 255 := by omega
  have hlt : t / 2 ^ 255 < 2 := (Nat.div_lt_iff_lt_mul (Nat.two_pow_pos _)).mpr (by omega)
  rw [shiftTarget_of_nonpos (by omega), hmin, clampTarget_eq]
  omega

theorem shiftTarget_le_of_ge (ht : t < 2 * genesis) (ht256 : t < 2 ^ 256)
    (ht' : genesis ≤ t') (hs : 255 ≤ s') : shiftTarget s t ≤ shiftTarget s' t' := by
  have hmin : min s'.toNat 255 = 255 := by omega
  rw [shiftTarget_of_pos (by omega : 0 < s'), hmin]
  apply Nat.le_min.mpr
  constructor
  · rcases Nat.lt_or_ge 1 genesis with hg | hg
    · have hle : shiftTarget s t ≤ 2 ^ 256 - 1 := shiftTarget_le ht256
      have htwo : 2 * 2 ^ 255 ≤ t' * 2 ^ 255 := Nat.mul_le_mul_right _ (by omega)
      omega
    · calc shiftTarget s t ≤ t * 2 ^ 255 := shiftTarget_le_mul
        _ ≤ t' * 2 ^ 255 := Nat.mul_le_mul_right _ (by omega)
  · exact shiftTarget_le ht256

theorem shiftTarget_le_of_lt (ht : t ≤ 2 * t') (ht256 : t < 2 ^ 256) (hs : s < s')
    (hlo : -255 < s) (hhi : s' < 255) : shiftTarget s t ≤ shiftTarget s' t' := by
  have hdouble : ∀ {n m : Nat}, n < m → t * 2 ^ n ≤ t' * 2 ^ m := by
    intro n m h
    calc t * 2 ^ n ≤ 2 * t' * 2 ^ n := Nat.mul_le_mul_right _ ht
      _ = t' * 2 ^ (n + 1) := by ring
      _ ≤ t' * 2 ^ m := Nat.mul_le_mul_left _ (Nat.pow_le_pow_right (by decide) h)
  rcases Int.lt_or_le 0 s' with hs' | hs'
  · rw [shiftTarget_of_pos hs']
    apply Nat.le_min.mpr
    constructor
    · rcases Int.lt_or_le 0 s with hs0 | hs0
      · rw [shiftTarget_of_pos hs0]
        exact Nat.le_trans (Nat.min_le_left _ _) (hdouble (by omega))
      · rw [shiftTarget_of_nonpos hs0]
        apply Nat.le_trans (Nat.div_le_self _ _)
        simpa using hdouble (by omega : 0 < min s'.toNat 255)
    · exact shiftTarget_le ht256
  · rw [shiftTarget_of_nonpos hs', shiftTarget_of_nonpos (by omega : s ≤ 0)]
    have hsucc : 2 ^ (min (-s').toNat 255 + 1) ≤ 2 ^ min (-s).toNat 255 :=
      Nat.pow_le_pow_right (by decide) (by omega)
    calc t / 2 ^ min (-s).toNat 255
        ≤ t / 2 ^ (min (-s').toNat 255 + 1) := Nat.div_le_div_left hsucc (Nat.two_pow_pos _)
      _ ≤ 2 * t' / 2 ^ (min (-s').toNat 255 + 1) := Nat.div_le_div_right ht
      _ = t' / 2 ^ min (-s').toNat 255 := by
        rw [Nat.pow_succ', Nat.mul_div_mul_left _ _ (by decide)]

end Shift

section Value

variable {genesis : Nat} {shift e e' : Int}

theorem scaleTarget_lt_two_pow (hpos : 0 < genesis) (hlt : genesis < 2 ^ 255) :
    scaleTarget genesis (e % 65536).toNat < 2 ^ 256 := by
  have h := scaleTarget_lt hpos (e % 65536).toNat (by omega)
  omega

theorem asertValue_mono (hpos : 0 < genesis) (hlt : genesis < 2 ^ 255) (h : e ≤ e') :
    asertValue genesis shift e ≤ asertValue genesis shift e' := by
  have ht256 := scaleTarget_lt_two_pow (e := e) hpos hlt
  have ht2 := scaleTarget_lt hpos (e % 65536).toNat (by omega)
  have ht' : genesis ≤ scaleTarget genesis (e' % 65536).toNat := le_scaleTarget
  simp only [asertValue]
  rcases Int.lt_or_le (e / 65536) (e' / 65536) with hk | hk
  · have hs : satI64 (e / 65536 + shift) ≤ satI64 (e' / 65536 + shift) := satI64_mono (by omega)
    rcases Int.lt_or_le (-255) (satI64 (e / 65536 + shift)) with hlo | hlo
    · apply clampTarget_mono
      rcases Int.lt_or_le (satI64 (e' / 65536 + shift)) 255 with hhi | hhi
      · apply shiftTarget_le_of_lt (by omega) ht256 _ hlo hhi
        simp only [satI64] at hlo hhi ⊢
        omega
      · exact shiftTarget_le_of_ge ht2 ht256 ht' hhi
    · rw [clampTarget_shiftTarget_of_le ht256 hlo]
      exact clampTarget_pos
  · have heq : e / 65536 = e' / 65536 := by omega
    rw [heq]
    apply clampTarget_mono
    apply shiftTarget_mono
    apply scaleTarget_mono
    omega

theorem asertValue_zero (hpos : 0 < genesis) (hlt : genesis < 2 ^ 255) :
    asertValue genesis 0 0 = genesis := by
  have hs : satI64 (0 / 65536 + 0) = 0 := by decide
  rw [asertValue, hs, shiftTarget_of_nonpos (Int.le_refl _)]
  have h0 : ((0 : Int) % 65536).toNat = 0 := rfl
  rw [h0, scaleTarget_zero, clampTarget_eq]
  simp only [Int.neg_zero, Int.toNat_zero, Nat.zero_min, Nat.pow_zero, Nat.div_one]
  omega

theorem lt_asertValue_four (hg : 2 ^ 16 ≤ genesis) (hlt : genesis < 2 ^ 255) :
    genesis < asertValue genesis 0 4 := by
  have hs : satI64 (4 / 65536 + 0) = 0 := by decide
  rw [asertValue, hs, shiftTarget_of_nonpos (Int.le_refl _)]
  have h4 : ((4 : Int) % 65536).toNat = 4 := rfl
  have hf : asertFactor 4 = 65538 := by decide
  rw [h4, clampTarget_eq]
  simp only [Int.neg_zero, Int.toNat_zero, Nat.zero_min, Nat.pow_zero, Nat.div_one, scaleTarget, hf]
  omega

theorem asertValue_lt (hg : 2 ^ 16 ≤ genesis) (he : e < 0) :
    asertValue genesis 0 e < genesis := by
  have hneg : satI64 (e / 65536 + 0) < 0 := by
    simp only [satI64]
    omega
  have hpos : 0 < genesis := by omega
  have ht2 := scaleTarget_lt hpos (e % 65536).toNat (by omega)
  have hle : 2 ^ 1 ≤ 2 ^ min (-satI64 (e / 65536 + 0)).toNat 255 :=
    Nat.pow_le_pow_right (by decide) (by omega)
  have hhalf := Nat.div_le_div_left (a := scaleTarget genesis (e % 65536).toNat) hle (by decide)
  rw [asertValue, shiftTarget_of_nonpos (Int.le_of_lt hneg), clampTarget_eq]
  omega

end Value

/-- An `i64`, if the value is one. -/
def fitI64 (x : Int) : Option Int := if -2 ^ 63 ≤ x ∧ x < 2 ^ 63 then some x else none

/-- A `U256`, if the value is one. -/
def fitU256 (x : Nat) : Option Nat := if x < 2 ^ 256 then some x else none

/-- `shiftTarget` with its intermediates checked. -/
def shiftTargetChecked (shifts : Int) (target : Nat) : Option Nat :=
  if shifts > 0 then
    let s := min shifts.toNat 255
    if target > (2 ^ 256 - 1) >>> s then some (2 ^ 256 - 1) else fitU256 (target <<< s)
  else if shifts < 0 then (fitI64 (-shifts)).map fun back => target >>> min back.toNat 255
  else some target

/-- `asertFactor` with its intermediates checked. -/
def asertFactorChecked (frac : Int) : Option Int := do
  let linear ← fitI64 (frac * 45426)
  let factor ← fitI64 (65536 + linear / 2 ^ 16)
  let square ← fitI64 (frac * frac)
  let quadratic ← fitI64 (square * 15746)
  let factor ← fitI64 (factor + quadratic / 2 ^ 32)
  let cube ← fitI64 (square * frac)
  let cubic ← fitI64 (cube * 3643)
  fitI64 (factor + cubic / 2 ^ 48)

/-- `scaleTarget` with its intermediates checked. -/
def scaleTargetChecked (genesis factor : Nat) : Option Nat := do
  let whole ← fitU256 (genesis / 65536 * factor)
  let part ← fitU256 (genesis % 65536 * factor)
  fitU256 (whole + part / 65536)

/-- `asertTarget` with every intermediate that is not saturated checked to fit its type; `none`
where one does not. -/
def asertTargetChecked (genesisTarget : Bytes32) (genesisTimestamp height timestamp : Nat)
    (shift : Int) : Option Bytes32 :=
  if height = 0 then some genesisTarget
  else do
    let _ ← fitI64 genesisTimestamp
    let exponent ← fitI64 (asertExponent genesisTimestamp height timestamp)
    let shifts := satI64 (exponent / 65536 + shift)
    let factor ← asertFactorChecked (exponent % 65536)
    let target ← scaleTargetChecked genesisTarget.toNat factor.toNat
    let target ← shiftTargetChecked shifts target
    some (BitVec.ofNat 256 (clampTarget target))

theorem fitI64_of (hlo : -2 ^ 63 ≤ x) (hhi : x < 2 ^ 63) : fitI64 x = some x :=
  if_pos ⟨hlo, hhi⟩

theorem fitU256_of (h : x < 2 ^ 256) : fitU256 x = some x := if_pos h

theorem asertFactorChecked_eq (frac : Nat) (h : frac < 65536) :
    asertFactorChecked frac = some (asertFactor frac : Int) := by
  have hsquare : frac * frac ≤ 4294836225 :=
    Nat.mul_le_mul (by omega : frac ≤ 65535) (by omega : frac ≤ 65535)
  have hcube : frac * frac * frac ≤ 281462092005375 :=
    Nat.mul_le_mul hsquare (by omega : frac ≤ 65535)
  have hsquareInt : ((frac * frac : Nat) : Int) = (frac : Int) * frac := Int.natCast_mul _ _
  have hcubeInt : ((frac * frac * frac : Nat) : Int) = (frac : Int) * frac * frac := by
    push_cast
    rfl
  rw [asertFactorChecked, Option.bind_eq_bind, fitI64_of (by omega) (by omega), Option.bind_some,
    fitI64_of (by omega) (by omega), Option.bind_some, fitI64_of (by omega) (by omega),
    Option.bind_some, fitI64_of (by omega) (by omega), Option.bind_some,
    fitI64_of (by omega) (by omega), Option.bind_some, fitI64_of (by omega) (by omega),
    Option.bind_some, fitI64_of (by omega) (by omega), Option.bind_some,
    fitI64_of (by omega) (by omega)]
  have hcast : (asertFactor frac : Int) = 65536 + frac * 45426 / 2 ^ 16 +
      frac * frac * 15746 / 2 ^ 32 + frac * frac * frac * 3643 / 2 ^ 48 := by
    simp only [asertFactor, Nat.shiftRight_eq_div_pow]
    norm_cast
  rw [hcast]

theorem scaleTargetChecked_eq {genesis frac : Nat} (hlt : genesis < 2 ^ 255)
    (h : frac < 65536) :
    scaleTargetChecked genesis (asertFactor frac) = some (scaleTarget genesis frac) := by
  have hf := asertFactor_lt h
  have hwhole : genesis / 65536 * asertFactor frac ≤ genesis / 65536 * 131071 :=
    Nat.mul_le_mul_left _ (by omega)
  have hpart : genesis % 65536 * asertFactor frac ≤ genesis % 65536 * 131071 :=
    Nat.mul_le_mul_left _ (by omega)
  rw [scaleTargetChecked, fitU256_of (by omega)]
  dsimp only [Option.bind_eq_bind, Option.bind_some]
  rw [fitU256_of (by omega), Option.bind_some, fitU256_of (by omega)]
  rfl

theorem shiftTargetChecked_eq {s : Int} {t : Nat} (hlo : -2 ^ 63 ≤ s) :
    shiftTargetChecked s t = if s = -2 ^ 63 then none else some (shiftTarget s t) := by
  rw [shiftTargetChecked, shiftTarget]
  rcases Int.lt_or_le 0 s with hs | hs
  · have hpow : 0 < 2 ^ min s.toNat 255 := Nat.two_pow_pos _
    rw [if_pos hs, if_pos hs, if_neg (by omega : s ≠ -2 ^ 63)]
    dsimp only
    by_cases hle : t > (2 ^ 256 - 1) >>> min s.toNat 255
    · rw [if_pos hle, if_pos hle]
    · have hfit : t * 2 ^ min s.toNat 255 ≤ 2 ^ 256 - 1 := by
        rw [Nat.shiftRight_eq_div_pow] at hle
        exact (Nat.le_div_iff_mul_le hpow).mp (Nat.le_of_not_gt hle)
      rw [if_neg hle, if_neg hle, fitU256_of]
      rw [Nat.shiftLeft_eq]
      omega
  · have hpos : ¬ s > 0 := Int.not_lt.mpr hs
    rw [if_neg hpos, if_neg hpos]
    by_cases hneg : s < 0
    · rw [if_pos hneg, if_pos hneg]
      by_cases hmin : s = -2 ^ 63
      · rw [if_pos hmin, fitI64, if_neg (by omega)]
        rfl
      · rw [if_neg hmin, fitI64_of (by omega) (by omega)]
        rfl
    · rw [if_neg hneg, if_neg hneg, if_neg (by omega : s ≠ -2 ^ 63)]

theorem asertExponent_bounds (genesisTimestamp height timestamp : Nat) :
    -640511947003803 ≤ asertExponent genesisTimestamp height timestamp ∧
      asertExponent genesisTimestamp height timestamp ≤ 640511947003803 := by
  have hlo : -2 ^ 63 ≤ satI64 (asertDrift genesisTimestamp height timestamp * 65536) := by
    simp only [satI64]
    omega
  have hhi : satI64 (asertDrift genesisTimestamp height timestamp * 65536) ≤ 2 ^ 63 - 1 := by
    simp only [satI64]
    omega
  constructor
  · exact Int.tdiv_le_tdiv (c := asertHalfLife) (by decide) hlo
  · exact Int.tdiv_le_tdiv (c := asertHalfLife) (by decide) hhi

theorem asertTargetChecked_eq (hlt : genesisTarget.toNat < 2 ^ 255)
    (ht : genesisTimestamp < 2 ^ 63) (hh : 1 ≤ height) :
    asertTargetChecked genesisTarget genesisTimestamp height timestamp shift =
      if asertExponent genesisTimestamp height timestamp / 65536 + shift ≤ -2 ^ 63 then none
      else some (asertTarget genesisTarget genesisTimestamp height timestamp shift) := by
  obtain ⟨hlo, hhi⟩ := asertExponent_bounds genesisTimestamp height timestamp
  have hfrac : ((asertExponent genesisTimestamp height timestamp % 65536).toNat : Int) =
      asertExponent genesisTimestamp height timestamp % 65536 := Int.toNat_of_nonneg (by omega)
  have hfactor := asertFactorChecked_eq
    (asertExponent genesisTimestamp height timestamp % 65536).toNat (by omega)
  have hsat : -2 ^ 63 ≤
      satI64 (asertExponent genesisTimestamp height timestamp / 65536 + shift) := by
    simp only [satI64]
    omega
  have hmin : satI64 (asertExponent genesisTimestamp height timestamp / 65536 + shift) = -2 ^ 63 ↔
      asertExponent genesisTimestamp height timestamp / 65536 + shift ≤ -2 ^ 63 := by
    simp only [satI64]
    omega
  rw [hfrac] at hfactor
  rw [asertTargetChecked, if_neg (by omega), fitI64_of (by omega) (by omega),
    fitI64_of (by omega) (by omega)]
  dsimp only [Option.bind_eq_bind, Option.bind_some]
  rw [hfactor, Option.bind_some, Int.toNat_natCast, scaleTargetChecked_eq hlt (by omega),
    Option.bind_some, shiftTargetChecked_eq hsat]
  simp only [hmin]
  split
  · rfl
  · rw [asertTarget, if_neg (by omega)]
    rfl

section Reachable

theorem asertTarget_valid (hpos : 0 < genesisTarget.toNat) :
    asertTarget genesisTarget genesisTimestamp height timestamp shift ≠ 0 := by
  intro h0
  have hn := congrArg BitVec.toNat h0
  rcases Nat.eq_zero_or_pos height with rfl | hh
  · rw [asertTarget, if_pos rfl] at hn
    exact absurd hn (Nat.ne_of_gt hpos)
  · rw [asertTarget_toNat hh] at hn
    exact absurd hn (Nat.ne_of_gt clampTarget_pos)

theorem asertTarget_mono (hpos : 0 < genesisTarget.toNat) (hlt : genesisTarget.toNat < 2 ^ 255)
    (hh : 1 ≤ height) (h : timestamp ≤ timestamp') :
    (asertTarget genesisTarget genesisTimestamp height timestamp shift).toNat ≤
      (asertTarget genesisTarget genesisTimestamp height timestamp' shift).toNat := by
  rw [asertTarget_toNat hh, asertTarget_toNat hh]
  exact asertValue_mono hpos hlt (asertExponent_mono (asertDrift_mono h))

theorem asertTarget_anti (hpos : 0 < genesisTarget.toNat) (hlt : genesisTarget.toNat < 2 ^ 255)
    (hh : 1 ≤ height) (h : height ≤ height') :
    (asertTarget genesisTarget genesisTimestamp height' timestamp shift).toNat ≤
      (asertTarget genesisTarget genesisTimestamp height timestamp shift).toNat := by
  rw [asertTarget_toNat hh, asertTarget_toNat (Nat.le_trans hh h)]
  exact asertValue_mono hpos hlt (asertExponent_mono (asertDrift_anti h))

theorem asertTarget_eq_genesis (hpos : 0 < genesisTarget.toNat)
    (hlt : genesisTarget.toNat < 2 ^ 255)
    (h : asertDrift genesisTimestamp height timestamp = 0) :
    asertTarget genesisTarget genesisTimestamp height timestamp 0 = genesisTarget := by
  rcases Nat.eq_zero_or_pos height with rfl | hh
  · rw [asertTarget, if_pos rfl]
  · have he : asertExponent genesisTimestamp height timestamp = 0 := by
      rw [asertExponent, h]
      rfl
    apply BitVec.eq_of_toNat_eq
    rw [asertTarget_toNat hh, he, asertValue_zero hpos hlt]

theorem asertDrift_eq_zero (hg : 2 ^ 16 ≤ genesisTarget.toNat)
    (hlt : genesisTarget.toNat < 2 ^ 255) (hh : 1 ≤ height)
    (h : asertTarget genesisTarget genesisTimestamp height timestamp 0 = genesisTarget) :
    asertDrift genesisTimestamp height timestamp = 0 := by
  have hvalue := congrArg BitVec.toNat h
  rw [asertTarget_toNat hh] at hvalue
  rcases Int.lt_trichotomy (asertDrift genesisTimestamp height timestamp) 0 with hd | hd | hd
  · have hsat : satI64 (asertDrift genesisTimestamp height timestamp * 65536) ≤ -65536 := by
      simp only [satI64]
      omega
    have he : asertExponent genesisTimestamp height timestamp ≤ -4 :=
      Int.tdiv_le_tdiv (c := asertHalfLife) (by decide) hsat
    have hless := asertValue_lt hg
      (by omega : asertExponent genesisTimestamp height timestamp < 0)
    omega
  · exact hd
  · have hsat : 65536 ≤ satI64 (asertDrift genesisTimestamp height timestamp * 65536) := by
      simp only [satI64]
      omega
    have he : 4 ≤ asertExponent genesisTimestamp height timestamp :=
      Int.tdiv_le_tdiv (c := asertHalfLife) (by decide) hsat
    have hmore := lt_asertValue_four hg hlt
    have hmono : asertValue genesisTarget.toNat 0 4 ≤ asertValue genesisTarget.toNat 0 _ :=
      asertValue_mono (by omega) hlt he
    omega

end Reachable

/-- ASERT's targets are ordered by time and by height, never zero, and computed without overflow
but for a total shift that leaves `i64`. -/
theorem asertTarget_monotone_valid (genesisTarget : Bytes32) (genesisTimestamp : Nat)
    (hpos : 0 < genesisTarget.toNat) (hlt : genesisTarget.toNat < 2 ^ 255)
    (ht : genesisTimestamp < 2 ^ 63) :
    (∀ (height timestamp : Nat) (shift : Int),
      asertTargetChecked genesisTarget genesisTimestamp height timestamp shift =
          some (asertTarget genesisTarget genesisTimestamp height timestamp shift) ↔
        height = 0 ∨ -2 ^ 63 < asertExponent genesisTimestamp height timestamp / 65536 + shift) ∧
    (∀ (height timestamp : Nat) (shift : Int),
      asertTarget genesisTarget genesisTimestamp height timestamp shift ≠ 0 ∧
        1 ≤ calculateWork
          (asertTarget genesisTarget genesisTimestamp height timestamp shift)) ∧
    (∀ (height timestamp timestamp' : Nat) (shift : Int), 1 ≤ height → timestamp ≤ timestamp' →
      (asertTarget genesisTarget genesisTimestamp height timestamp shift).toNat ≤
        (asertTarget genesisTarget genesisTimestamp height timestamp' shift).toNat) ∧
    (∀ (height height' timestamp : Nat) (shift : Int), 1 ≤ height → height ≤ height' →
      (asertTarget genesisTarget genesisTimestamp height' timestamp shift).toNat ≤
        (asertTarget genesisTarget genesisTimestamp height timestamp shift).toNat) ∧
    (∀ (height timestamp : Nat), asertDrift genesisTimestamp height timestamp = 0 →
      asertTarget genesisTarget genesisTimestamp height timestamp 0 = genesisTarget) ∧
    (2 ^ 16 ≤ genesisTarget.toNat → ∀ (height timestamp : Nat), 1 ≤ height →
      asertTarget genesisTarget genesisTimestamp height timestamp 0 = genesisTarget →
      asertDrift genesisTimestamp height timestamp = 0) ∧
    ∀ (height timestamp : Nat), 1 ≤ calculateWork (calculateTarget height timestamp) ∧
      1 ≤ calculateWork (midstateTarget height timestamp) := by
  refine ⟨fun height timestamp shift => ?_,
    fun height timestamp shift => ⟨asertTarget_valid hpos,
      calculateWork_pos (asertTarget_valid hpos)⟩,
    fun height timestamp timestamp' shift hh h => asertTarget_mono hpos hlt hh h,
    fun height height' timestamp shift hh h => asertTarget_anti hpos hlt hh h,
    fun height timestamp h => asertTarget_eq_genesis hpos hlt h,
    fun hg height timestamp hh h => asertDrift_eq_zero hg hlt hh h,
    fun height timestamp => ⟨calculateWork_pos calculateTarget_ne_zero,
      calculateWork_pos (asertTarget_valid (by decide))⟩⟩
  rcases Nat.eq_zero_or_pos height with rfl | hh
  · rw [asertTargetChecked, asertTarget, if_pos rfl, if_pos rfl]
    simp
  · rw [asertTargetChecked_eq hlt ht hh]
    split
    · simp
      omega
    · simp
      omega

theorem asertTarget_monotone_valid_genesis :
    asertTarget 0x10000 1000 1 1060 0 = 0x10000 ∧
      (asertTarget 0x10000 1000 1 1060 0).toNat ≤ (asertTarget 0x10000 1000 1 2000 0).toNat := by
  obtain ⟨-, -, hmono, -, heq, -⟩ := asertTarget_monotone_valid 0x10000 1000 (by decide)
    (by decide) (by decide)
  exact ⟨heq 1 1060 (by decide), hmono 1 1060 2000 0 (by decide) (by decide)⟩

/-- The least shift overflows, and a second's drift does not show in the least target. -/
theorem asertTarget_overflows_and_hides :
    asertTargetChecked 0x10000 1000 1 1000 (-2 ^ 63) = none ∧
      asertTarget 1 1000 1 1061 0 = 1 ∧ asertDrift 1000 1 1061 = 1 := by
  decide

end Midwimble
