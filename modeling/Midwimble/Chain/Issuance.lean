import Mathlib.Algebra.BigOperators.Group.List.Basic
import Midwimble.Chain.Genesis

namespace Midwimble
open Fallible
set_option autoImplicit true

namespace Emission

variable {e : Emission} {height : Nat}

theorem issuedBefore_one (e : Emission) : e.issuedBefore 1 = 0 := by
  rw [issuedBefore, scheduledBefore, if_pos (Nat.le_refl 1), Nat.zero_min]

theorem Fits.sum_blockReward (he : e.Fits) (h : height < 2 ^ 64) :
    ((List.range height).map e.blockReward).sum = e.issuedBefore height := by
  induction height with
  | zero => rfl
  | succ height ih =>
    rw [List.range_succ, List.map_append, List.sum_append, ih (by omega), List.map_singleton,
      List.sum_singleton]
    rcases Nat.eq_zero_or_pos height with rfl | hpos
    · rw [issuedBefore_one, blockReward, if_pos rfl]
      rfl
    · exact he.issuedBefore_add_blockReward h (by omega)

/-- The binary search finds the least height with everything issued, if its range holds one. -/
theorem Fits.searchFinal_spec (he : e.Fits) (hfuel : hi - lo < 2 ^ fuel) (hle : lo ≤ hi)
    (hhi : e.maxSupply ≤ e.issuedBefore (satAdd64 hi 1))
    (hlo : ∀ h, h < lo → e.issuedBefore (satAdd64 h 1) < e.maxSupply) :
    lo ≤ e.searchFinal fuel lo hi ∧ e.searchFinal fuel lo hi ≤ hi ∧
      e.maxSupply ≤ e.issuedBefore (satAdd64 (e.searchFinal fuel lo hi) 1) ∧
      ∀ h < e.searchFinal fuel lo hi, e.issuedBefore (satAdd64 h 1) < e.maxSupply := by
  induction fuel generalizing lo hi with
  | zero =>
    obtain rfl : lo = hi := by omega
    exact ⟨Nat.le_refl _, Nat.le_refl _, hhi, hlo⟩
  | succ fuel ih =>
    rw [searchFinal]
    by_cases hlt : lo < hi
    · rw [if_pos hlt]
      rw [Nat.pow_succ] at hfuel
      by_cases hmid : e.issuedBefore (satAdd64 (lo + (hi - lo) / 2) 1) ≥ e.maxSupply
      · simp only [hmid, if_true]
        obtain ⟨h1, h2, h3, h4⟩ := ih (by omega) (by omega) hmid hlo
        exact ⟨h1, by omega, h3, h4⟩
      · simp only [hmid, if_false]
        have hbelow : ∀ h, h < lo + (hi - lo) / 2 + 1 →
            e.issuedBefore (satAdd64 h 1) < e.maxSupply := by
          intro h hh
          have hm : satAdd64 h 1 ≤ satAdd64 (lo + (hi - lo) / 2) 1 := by
            unfold satAdd64
            exact min_le_min_right _ (by omega)
          exact lt_of_le_of_lt (he.issuedBefore_mono hm) (not_le.mp hmid)
        obtain ⟨h1, h2, h3, h4⟩ := ih (by omega) (by omega) hhi hbelow
        exact ⟨by omega, h2, h3, h4⟩
    · rw [if_neg hlt]
      obtain rfl : lo = hi := by omega
      exact ⟨Nat.le_refl _, Nat.le_refl _, hhi, hlo⟩

/-- The last rewarded height is the least after which all there will be is issued. -/
theorem Fits.finalRewardHeight_spec (he : e.Fits) (hmax : 0 < e.maxSupply)
    (h : e.finalRewardHeight = some final) :
    e.issuedBefore (final + 1) = e.maxSupply ∧
      (∀ k < final, e.issuedBefore (k + 1) < e.maxSupply) ∧
      0 < e.blockReward final ∧ ∀ k > final, k < 2 ^ 64 → e.blockReward k = 0 := by
  rw [finalRewardHeight] at h
  split at h
  · exact absurd h (by simp)
  · rename_i hreach
    obtain rfl := Option.some.inj h
    set hi := min (64 * e.halvingInterval) (2 ^ 64 - 1) with hhi
    have hsat : ∀ k, k < 2 ^ 64 - 1 → satAdd64 k 1 = k + 1 := by
      intro k hk
      unfold satAdd64
      omega
    have hzero : e.issuedBefore (satAdd64 0 1) < e.maxSupply := by
      rw [hsat 0 (by decide), issuedBefore_one]
      exact hmax
    have hone : 1 ≤ hi := by
      by_contra h0
      rw [(by omega : hi = 0)] at hreach
      exact hreach hzero
    have hfuel : hi - 1 < 2 ^ 64 := by omega
    obtain ⟨hge, hle, hall, hleast⟩ := he.searchFinal_spec hfuel hone
      (not_lt.mp hreach) fun k hk => by rwa [(by omega : k = 0)]
    set final := e.searchFinal 64 1 hi
    have hfit : final < 2 ^ 64 - 1 := by
      by_contra hbig
      have hprev := hleast (2 ^ 64 - 2) (by omega)
      rw [hsat _ (by omega)] at hprev
      have htop : satAdd64 final 1 = 2 ^ 64 - 2 + 1 := by
        unfold satAdd64
        omega
      rw [htop] at hall
      omega
    rw [hsat final hfit] at hall
    have hissued : e.issuedBefore (final + 1) = e.maxSupply :=
      Nat.le_antisymm (issuedBefore_le e _) hall
    have hbefore : ∀ k < final, e.issuedBefore (k + 1) < e.maxSupply := fun k hk => by
      have hk' := hleast k hk
      rwa [hsat k (by omega)] at hk'
    refine ⟨hissued, hbefore, ?_, fun k hk hk64 => ?_⟩
    · have hlast := hbefore (final - 1) (by omega)
      rw [(by omega : final - 1 + 1 = final)] at hlast
      rw [he.blockReward_eq (by omega) (by omega), hsat final hfit, hissued]
      omega
    · have hk' : e.issuedBefore k = e.maxSupply := by
        refine Nat.le_antisymm (issuedBefore_le e k) ?_
        rw [← hissued]
        exact he.issuedBefore_mono hk
      rw [he.blockReward_eq hk64 (by omega), hk', Nat.sub_eq_zero_of_le (issuedBefore_le e _)]

theorem emission_exhausted (h : 2 ^ 63 ≤ height) :
    emission.issuedBefore height = emission.maxSupply := by
  apply Nat.le_antisymm (emission.issuedBefore_le _)
  have hall : emission.issuedBefore (2 ^ 63) = emission.maxSupply := by decide +kernel
  rw [← hall]
  exact emission_fits.issuedBefore_mono h

theorem issuedBefore_add_blockReward_le (height : Nat) :
    emission.issuedBefore height + emission.blockReward height ≤
      emission.issuedBefore (height + 1) := by
  have hm : emission.issuedBefore height ≤ emission.issuedBefore (height + 1) :=
    emission_fits.issuedBefore_mono (Nat.le_succ height)
  rcases Nat.lt_or_ge (height + 1) (2 ^ 64) with hh | hh
  · rcases Nat.eq_zero_or_pos height with rfl | hpos
    · exact hm
    · exact (emission_fits.issuedBefore_add_blockReward hh (by omega)).le
  · have hzero : emission.blockReward height = 0 := by
      have hnext : 2 ^ 63 ≤ satAdd64 height 1 := by
        unfold satAdd64
        omega
      rw [Emission.blockReward, if_neg (by omega), emission_exhausted hnext,
        emission_exhausted (by omega)]
      decide
    rw [hzero]
    exact hm

end Emission

theorem subsidyFor_le (signer : Option Bytes32) (counts : Std.ExtTreeMap Bytes32 Nat)
    (bonds : BondSet) (height timestamp : Nat) :
    subsidyFor signer counts bonds height timestamp ≤ blockReward height := by
  have hcap : ∀ reward n cap, cappedSubsidy reward n cap ≤ reward := by
    intro reward n cap
    rw [cappedSubsidy]
    split
    · exact Nat.le_refl _
    · rename_i hn
      calc reward * cap / n ≤ reward * n / n :=
            Nat.div_le_div_right (Nat.mul_le_mul_left _ (by omega))
        _ = reward := Nat.mul_div_cancel _ (by omega)
  unfold subsidyFor
  cases signer with
  | none => exact Nat.le_refl _
  | some id =>
    simp only
    split
    · exact hcap _ _ _
    · exact Nat.le_refl _

variable [Primitives]

theorem supply_le_issuedBefore (h : Reachable s) : s.supply ≤ issuedBefore s.height := by
  obtain ⟨blocks, hrun⟩ := h
  unfold Run at hrun
  induction hrun with
  | start => exact Nat.zero_le _
  | @block blocks s batch s' _ ha _ =>
    obtain ⟨ts, now, pre, skip, h⟩ := ha
    obtain ⟨-, -, b, -, rfl⟩ := applyBatchInternal_eq_ok.mp h
    have hsch := b.body.scheduled
    rw [b.base_supply, b.base_height] at hsch
    rw [b.next_eq]
    exact hsch

/-- Issuance never falls, never passes the cap and is the running total of the rewards; the last
rewarded height is where it reaches the cap. -/
theorem emission_capped_total :
    (∀ e : Emission, e.Fits → (∀ a b, a ≤ b → e.issuedBefore a ≤ e.issuedBefore b) ∧
      (∀ height, e.issuedBefore height ≤ e.maxSupply) ∧
      (∀ height < 2 ^ 64,
        ((List.range height).map e.blockReward).sum = e.issuedBefore height) ∧
      (0 < e.maxSupply → ∀ final, e.finalRewardHeight = some final →
        e.issuedBefore (final + 1) = e.maxSupply ∧
        (∀ k < final, e.issuedBefore (k + 1) < e.maxSupply) ∧
        0 < e.blockReward final ∧ ∀ k > final, k < 2 ^ 64 → e.blockReward k = 0)) ∧
    ∀ s, Reachable s → s.supply ≤ issuedBefore s.height ∧
      ∀ signer counts bonds timestamp,
        s.supply + subsidyFor signer counts bonds s.height timestamp ≤
          issuedBefore (s.height + 1) := by
  refine ⟨fun e he => ⟨fun _ _ => he.issuedBefore_mono, e.issuedBefore_le,
    fun _ => he.sum_blockReward, fun hmax _ => he.finalRewardHeight_spec hmax⟩, fun s hs => ?_⟩
  have hsupply := supply_le_issuedBefore hs
  refine ⟨hsupply, fun signer counts bonds timestamp => ?_⟩
  have hsub := subsidyFor_le signer counts bonds s.height timestamp
  have hstep := Emission.issuedBefore_add_blockReward_le s.height
  exact (Nat.add_le_add hsupply hsub).trans hstep

omit [Primitives] in
/-- The launch schedule pays its last reward on the way to the cap. -/
theorem emission_capped_total_launch :
    letI := Primitives.words
    ∃ final, emission.finalRewardHeight = some final ∧
      emission.issuedBefore (final + 1) = maxSupply ∧ 0 < emission.blockReward final ∧
        emission.blockReward (final + 1) = 0 := by
  let := Primitives.words
  have hsome : emission.finalRewardHeight.isSome = true := by decide +kernel
  have hbelow : emission.finalRewardHeight.all (· < 2 ^ 63) = true := by decide +kernel
  obtain ⟨final, hfinal⟩ := Option.isSome_iff_exists.mp hsome
  obtain ⟨-, -, -, hspec⟩ := emission_capped_total.1 emission emission_fits
  obtain ⟨hissued, -, hpaid, hnone⟩ := hspec (by decide) final hfinal
  rw [hfinal] at hbelow
  have hlt : final < 2 ^ 63 := of_decide_eq_true hbelow
  exact ⟨final, hfinal, hissued, hpaid, hnone _ (Nat.lt_succ_self _) (by omega)⟩

omit [Primitives] in
/-- Inside the range claimed a long slow start wraps, so that issuance falls; and with nothing to
issue the search still stops at the first height. -/
theorem emission_of_long_slow_start :
    (¬ ∀ e : Emission, e.slowStart < e.halvingInterval →
      e.initialReward * e.halvingInterval * 64 < 2 ^ 120 →
      ∀ a b, a ≤ b → b < 2 ^ 64 → e.issuedBefore a ≤ e.issuedBefore b) ∧
    ¬ ∀ e : Emission, e.slowStart < e.halvingInterval →
      e.initialReward * e.halvingInterval * 64 < 2 ^ 120 →
      ∀ final, e.finalRewardHeight = some final → 0 < e.blockReward final := by
  constructor
  · intro hall
    have hrises := hall ⟨2 ^ 40, 2 ^ 51, 2 ^ 50, 10 ^ 14⟩ (by decide) (by decide) (2 ^ 44)
      (2 ^ 44 + 1) (by decide) (by decide)
    exact absurd hrises (by decide +kernel)
  · intro hall
    have hpaid := hall ⟨1, 1, 0, 0⟩ (by decide) (by decide) 1 (by decide +kernel)
    exact absurd hpaid (by decide +kernel)

end Midwimble
