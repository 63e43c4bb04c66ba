import Mathlib.Algebra.Order.Ring.Nat
import Mathlib.Data.Nat.Factorization.Basic
import Mathlib.Tactic.Ring
import Midwimble.Core.Mmr

namespace Midwimble
set_option autoImplicit true

/-- The ones in the binary form of a number of any size. -/
def ones (n : Nat) : Nat := countOnes n n

theorem countOnes_stable (h : n < 2 ^ bits) : countOnes (bits + c) n = countOnes bits n := by
  induction bits generalizing n with
  | zero =>
    have h0 : n = 0 := by omega
    subst h0
    induction c with
    | zero => rfl
    | succ c ih => simpa [countOnes] using ih
  | succ bits ih =>
    rw [Nat.add_right_comm, countOnes, countOnes, ih (by omega)]

theorem countOnes_eq_ones (h : n < 2 ^ bits) : countOnes bits n = ones n := by
  have hn : n < 2 ^ n := Nat.lt_two_pow_self
  rw [ones, ← countOnes_stable hn (c := bits), Nat.add_comm, countOnes_stable h]

theorem ones_double (n : Nat) : ones (2 * n) = ones n := by
  have h : 2 * n < 2 ^ (n + 1) := by
    have := @Nat.lt_two_pow_self n
    rw [Nat.pow_succ]
    omega
  rw [← countOnes_eq_ones h, countOnes, Nat.mul_mod_right, Nat.zero_add,
    Nat.mul_div_cancel_left n (by decide), ones]

theorem ones_double_succ (n : Nat) : ones (2 * n + 1) = ones n + 1 := by
  have h : 2 * n + 1 < 2 ^ (n + 1) := by
    have := @Nat.lt_two_pow_self n
    rw [Nat.pow_succ]
    omega
  have hm : (2 * n + 1) % 2 = 1 := by omega
  have hd : (2 * n + 1) / 2 = n := by omega
  rw [← countOnes_eq_ones h, countOnes, hm, hd, Nat.add_comm, ones]

theorem ones_high (hm : m < 2 ^ h) : ones (2 ^ h + m) = ones m + 1 := by
  induction h generalizing m with
  | zero =>
    have h0 : m = 0 := by omega
    subst h0
    rfl
  | succ h ih =>
    have hhalf : m / 2 < 2 ^ h := by
      rw [Nat.pow_succ] at hm
      omega
    rcases Nat.mod_two_eq_zero_or_one m with hz | ho
    · have he : 2 ^ (h + 1) + m = 2 * (2 ^ h + m / 2) := by
        rw [Nat.pow_succ]
        omega
      have hm' : ones m = ones (m / 2) := by
        conv_lhs => rw [← Nat.div_add_mod m 2, hz, Nat.add_zero, ones_double]
      rw [he, ones_double, ih hhalf, hm']
    · have he : 2 ^ (h + 1) + m = 2 * (2 ^ h + m / 2) + 1 := by
        rw [Nat.pow_succ]
        omega
      have hm' : ones m = ones (m / 2) + 1 := by
        conv_lhs => rw [← Nat.div_add_mod m 2, ho, ones_double_succ]
      rw [he, ones_double_succ, ih hhalf, hm']

theorem ones_succ_le (n : Nat) : ones (n + 1) ≤ ones n + 1 := by
  induction n using Nat.strong_induction_on with
  | _ n ih =>
    rcases Nat.even_or_odd' n with ⟨k, rfl | rfl⟩
    · rw [ones_double_succ, ones_double]
    · have he : 2 * k + 1 + 1 = 2 * (k + 1) := by ring
      rw [he, ones_double, ones_double_succ]
      have := ih k (by omega)
      omega

theorem ones_le (n : Nat) : ones n ≤ n := by
  induction n with
  | zero => exact Nat.le_refl _
  | succ n ih => exact (ones_succ_le n).trans (Nat.succ_le_succ ih)

theorem mmrSize_eq (h : n < 2 ^ 64) : mmrSize n + ones n = 2 * n := by
  have hle := ones_le n
  unfold mmrSize
  split
  · subst n
    rfl
  · rw [countOnes_eq_ones h]
    omega

theorem mmrSize_high (hm : m < 2 ^ k) (hk : k < 63) :
    mmrSize (2 ^ k + m) + 1 = 2 ^ (k + 1) + mmrSize m := by
  have hp : 2 ^ k ≤ 2 ^ 62 := Nat.pow_le_pow_right (by decide) (by omega)
  have h1 := mmrSize_eq (n := 2 ^ k + m) (by omega)
  have h2 := mmrSize_eq (n := m) (by omega)
  have h3 := ones_high hm
  rw [Nat.pow_succ]
  omega

theorem posHeightDown_succ (h pos : Nat) : posHeightDown (h + 1) pos =
    if pos = 2 ^ (h + 2) - 2 then h + 1
    else posHeightDown h
      (if pos ≥ 2 ^ (h + 1) - 1 then pos - (2 ^ (h + 1) - 1) else pos) := rfl

theorem posHeightUp_spec (h : pos < 2 ^ (k + fuel + 1) - 1) :
    pos < 2 ^ (posHeightUp fuel k pos + 1) - 1 := by
  induction fuel generalizing k with
  | zero => simpa [posHeightUp] using h
  | succ fuel ih =>
    rw [posHeightUp]
    split
    · refine ih ?_
      rwa [Nat.add_right_comm k 1 fuel]
    · omega

/-- A range whose nodes are those of its leaves. -/
def MerkleMountainRange.Shaped (m : MerkleMountainRange) : Prop :=
  m.nodes.length = mmrSize m.leafCount

theorem MerkleMountainRange.Shaped.truncated {m m' : MerkleMountainRange} (h : m.Shaped)
    (hp : m.nodes <+: m'.nodes) (hl : m.leafCount ≤ m'.leafCount) :
    m'.truncated m.leafCount = m := by
  obtain ⟨more, hmore⟩ := hp
  unfold MerkleMountainRange.Shaped at h
  rw [MerkleMountainRange.truncated, Nat.min_eq_left hl, ← hmore, ← h, List.take_left]

section Append

variable [Primitives]

theorem prefix_mergeUp (isV2 : Bool) (fuel height : Nat) (nodes : List Bytes32) :
    nodes <+: MerkleMountainRange.mergeUp isV2 fuel height nodes := by
  induction fuel generalizing height nodes with
  | zero => exact List.prefix_rfl
  | succ fuel ih =>
    simp only [MerkleMountainRange.mergeUp]
    split
    · exact List.prefix_rfl
    · split
      · exact List.prefix_rfl
      · exact (List.prefix_append _ _).trans (ih _ _)

theorem MerkleMountainRange.prefix_append (m : MerkleMountainRange) (leaf : Bytes32)
    (isV2 : Bool) : m.nodes <+: (m.append leaf isV2).nodes :=
  (List.prefix_append _ _).trans (prefix_mergeUp _ _ _ _)

end Append

end Midwimble
