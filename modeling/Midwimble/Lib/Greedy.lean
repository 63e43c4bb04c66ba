import Mathlib.Algebra.BigOperators.Group.List.Basic
import Mathlib.Algebra.Order.Monoid.Canonical.Defs
import Mathlib.Algebra.Order.Ring.Nat
import Mathlib.Data.List.Sort

namespace Greedy
set_option autoImplicit true

theorem sum_take_le_cons {l : List Nat} (h : ∀ v ∈ l, v ≤ a) (n : Nat) :
    (l.take n).sum ≤ ((a :: l).take n).sum := by
  cases n with
  | zero => exact Nat.le_refl _
  | succ n =>
    rw [List.take_add_one, List.sum_append, List.take_succ_cons, List.sum_cons, Nat.add_comm a]
    apply Nat.add_le_add_left
    cases hn : l[n]? with
    | none => exact Nat.zero_le a
    | some v => exact h v (List.mem_of_getElem? hn)

theorem sum_le_sum_take {t l : List Nat} (hl : l.Pairwise (· ≥ ·)) (h : t.Sublist l) :
    t.sum ≤ (l.take t.length).sum := by
  induction h with
  | slnil => exact Nat.le_refl _
  | @cons t l a _ ih =>
    obtain ⟨ha, hl⟩ := List.pairwise_cons.mp hl
    exact (ih hl).trans (sum_take_le_cons ha _)
  | @cons_cons t l a _ ih =>
    obtain ⟨-, hl⟩ := List.pairwise_cons.mp hl
    rw [List.length_cons, List.take_succ_cons, List.sum_cons, List.sum_cons]
    exact Nat.add_le_add_left (ih hl) a

/-- A cost that grows by at most `step` from one count to the next. -/
def Steps (cost : Nat → Nat) (step : Nat) : Prop := ∀ n, cost (n + 1) ≤ cost n + step

theorem Steps.add {cost : Nat → Nat} (h : Steps cost step) (n k : Nat) :
    cost (n + k) ≤ cost n + k * step := by
  induction k with
  | zero => exact Nat.le_add_right _ _
  | succ k ih =>
    have hstep := h (n + k)
    rw [Nat.succ_mul, ← Nat.add_assoc n]
    omega

theorem sum_above {l : List Nat} (h : ∀ v ∈ l, step < v) : l.length * step + l.length ≤ l.sum := by
  induction l with
  | nil => exact Nat.le_of_eq (Nat.zero_mul step)
  | cons v l ih =>
    have hv := h v List.mem_cons_self
    have hl := ih fun w hw => h w (List.mem_cons_of_mem v hw)
    rw [List.length_cons, List.sum_cons, Nat.succ_mul]
    omega

theorem filter_eq_take {worth : α → Nat} {l : List α}
    (hl : l.Pairwise fun a b => worth a ≥ worth b) (bound : Nat) :
    l.filter (fun a => bound < worth a) =
      l.take (l.filter fun a => bound < worth a).length := by
  induction l with
  | nil => rfl
  | cons a l ih =>
    obtain ⟨ha, hl⟩ := List.pairwise_cons.mp hl
    by_cases habove : bound < worth a
    · have hfilter : (a :: l).filter (fun a => bound < worth a) =
          a :: l.filter fun a => bound < worth a := List.filter_cons_of_pos (decide_eq_true habove)
      rw [hfilter, List.length_cons, List.take_succ_cons, ← ih hl]
    · have hnone : (a :: l).filter (fun a => bound < worth a) = [] := by
        apply List.filter_eq_nil_iff.mpr
        intro b hb
        rw [decide_eq_true_eq]
        rcases List.mem_cons.mp hb with rfl | hb
        · exact habove
        · have := ha b hb
          omega
      rw [hnone]
      rfl

end Greedy
