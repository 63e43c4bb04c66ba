import Mathlib.Algebra.BigOperators.Group.Finset.Basic
import Mathlib.Algebra.BigOperators.Intervals
import Mathlib.Algebra.Order.BigOperators.Group.Finset
import Mathlib.Data.Nat.ModEq
import Mathlib.Tactic.Ring

namespace Sampling
set_option autoImplicit true

/-- How many of the points `offset + k * period` lie before `x`, for `offset < period`. -/
def pointsBefore (period offset x : Nat) : Nat := (x + (period - 1 - offset)) / period

/-- How many of the points lie from `a` on and before `b`. -/
def pointsIn (period offset a b : Nat) : Nat :=
  pointsBefore period offset b - pointsBefore period offset a

variable {period offset a b x n : Nat}

theorem pointsBefore_mono (period offset : Nat) (h : a ≤ b) :
    pointsBefore period offset a ≤ pointsBefore period offset b :=
  Nat.div_le_div_right (Nat.add_le_add_right h _)

theorem pointsBefore_zero (hp : 0 < period) : pointsBefore period offset 0 = 0 :=
  Nat.div_eq_of_lt (by omega)

theorem pointsBefore_mul (hp : 0 < period) : pointsBefore period offset (n * period) = n := by
  rw [pointsBefore, Nat.add_comm, Nat.add_mul_div_right _ _ hp, Nat.div_eq_of_lt (by omega),
    Nat.zero_add]

theorem pointsBefore_of_lt (h : offset < x) (ho : offset < period) :
    pointsBefore period offset x = (x - offset + (period - 1)) / period := by
  rw [pointsBefore]
  congr 1
  omega

theorem pointsBefore_of_le (h : x ≤ offset) (ho : offset < period) :
    pointsBefore period offset x = 0 :=
  Nat.div_eq_of_lt (by omega)

theorem sum_add_div (hp : 0 < period) (x : Nat) :
    ∑ j ∈ Finset.range period, (x + j) / period = x := by
  induction x with
  | zero =>
    apply Finset.sum_eq_zero
    intro j hj
    rw [Nat.zero_add]
    exact Nat.div_eq_of_lt (Finset.mem_range.mp hj)
  | succ x ih =>
    have hshift : ∀ j, x + 1 + j = x + (j + 1) := fun j => by ring
    have hends := Finset.sum_range_succ (fun j => (x + j) / period) period
    rw [Finset.sum_range_succ' (fun j => (x + j) / period), Nat.add_div_right _ hp] at hends
    simp only [hshift]
    rw [Nat.add_zero] at hends
    omega

theorem sum_pointsBefore (hp : 0 < period) (x : Nat) :
    ∑ offset ∈ Finset.range period, pointsBefore period offset x = x := by
  have hreflect := Finset.sum_range_reflect (fun j => (x + j) / period) period
  rw [sum_add_div hp] at hreflect
  exact hreflect

theorem sum_pointsIn (hp : 0 < period) (h : a ≤ b) :
    ∑ offset ∈ Finset.range period, pointsIn period offset a b = b - a := by
  have hsplit := Finset.sum_tsub_distrib (Finset.range period)
    (f := fun o => pointsBefore period o b) (g := fun o => pointsBefore period o a)
    fun o _ => pointsBefore_mono period o h
  rw [sum_pointsBefore hp, sum_pointsBefore hp] at hsplit
  exact hsplit

theorem pointsIn_add (hab : a ≤ b) (hbc : b ≤ c) :
    pointsIn period offset a b + pointsIn period offset b c = pointsIn period offset a c := by
  have h := pointsBefore_mono period offset hab
  have h' := pointsBefore_mono period offset hbc
  rw [pointsIn, pointsIn, pointsIn]
  omega

theorem pointsIn_eq (hp : 0 < period) (a n : Nat) :
    pointsIn period offset a (a + n) = n / period ∨
      pointsIn period offset a (a + n) = (n + (period - 1)) / period := by
  rw [pointsIn, pointsBefore, pointsBefore,
    show a + n + (period - 1 - offset) = a + (period - 1 - offset) + n by ring, Nat.add_div hp]
  generalize a + (period - 1 - offset) = first
  generalize first / period = whole
  split
  case isTrue hcarry =>
    -- a carry needs a remainder
    right
    have hrem : 0 < n % period := by
      have := Nat.mod_lt first hp
      omega
    have hceil : (n + (period - 1)) / period = n / period + 1 := by
      have hn := Nat.div_add_mod n period
      have hlt := Nat.mod_lt n hp
      have hform : n + (period - 1) = n % period - 1 + period * (n / period + 1) := by
        rw [Nat.mul_succ]
        omega
      rw [hform, Nat.add_mul_div_left _ _ hp, Nat.div_eq_of_lt (by omega), Nat.zero_add]
    rw [hceil, Nat.add_assoc]
    exact Nat.add_sub_cancel_left _ _
  case isFalse =>
    left
    rw [Nat.add_zero]
    exact Nat.add_sub_cancel_left _ _

end Sampling
