import Mathlib.Data.List.Sort
import Mathlib.Algebra.Order.Ring.Nat

namespace Rank
set_option autoImplicit true

variable {α : Type} [LinearOrder α]

theorem countP_lt_le {s : List α} (hs : s.Pairwise (· ≤ ·)) (hk : s[k]? = some x) :
    s.countP (· < x) ≤ k := by
  obtain ⟨hlt, rfl⟩ := List.getElem?_eq_some_iff.mp hk
  have hdrop : (s.drop k).countP (· < s[k]) = 0 := by
    rw [List.countP_eq_zero]
    intro y hy
    rw [List.drop_eq_getElem_cons hlt] at hy
    have hp := hs.drop (i := k)
    rw [List.drop_eq_getElem_cons hlt, List.pairwise_cons] at hp
    rcases List.mem_cons.mp hy with rfl | hy
    · simp
    · simpa using hp.1 y hy
  calc s.countP (· < s[k])
      = (s.take k).countP (· < s[k]) + (s.drop k).countP (· < s[k]) := by
        rw [← List.countP_append, List.take_append_drop]
    _ ≤ (s.take k).length := by rw [hdrop]; exact List.countP_le_length
    _ ≤ k := List.length_take_le _ _

theorem le_of_countP_lt {s : List α} (hs : s.Pairwise (· ≤ ·)) (hk : s[k]? = some x)
    (hc : s.countP (· < m) ≤ k) : m ≤ x := by
  obtain ⟨hlt, rfl⟩ := List.getElem?_eq_some_iff.mp hk
  by_contra hm
  have htake : (s.take (k + 1)).countP (· < m) = k + 1 := by
    have hall : ∀ y ∈ s.take (k + 1), y < m := by
      intro y hy
      obtain ⟨i, hi, rfl⟩ := List.mem_iff_getElem.mp hy
      rw [List.length_take] at hi
      rw [List.getElem_take]
      have hik : s[i] ≤ s[k] := by
        rcases Nat.lt_or_eq_of_le (by omega : i ≤ k) with h | rfl
        · exact List.pairwise_iff_getElem.mp hs i k (by omega) hlt h
        · exact le_rfl
      exact lt_of_le_of_lt hik (not_le.mp hm)
    rw [List.countP_eq_length.mpr (by simpa using hall), List.length_take]
    omega
  have hle : (s.take (k + 1)).countP (· < m) ≤ s.countP (· < m) :=
    (List.take_sublist _ _).countP_le
  omega

end Rank
