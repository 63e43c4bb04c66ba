import Mathlib.Algebra.BigOperators.Group.List.Basic
import Mathlib.Algebra.GroupWithZero.Nat
import Mathlib.Data.List.Perm.Basic

namespace Fibers
set_option autoImplicit true

variable {α κ : Type} {f : α → Nat}

theorem sum_filter_add_sum_filter_not (p : α → Bool) (l : List α) :
    ((l.filter p).map f).sum + ((l.filter fun a => !p a).map f).sum = (l.map f).sum := by
  induction l with
  | nil => rfl
  | cons a l ih =>
    rw [List.map_cons, List.sum_cons, ← ih]
    cases hp : p a with
    | true =>
      rw [List.filter_cons_of_pos hp, List.filter_cons_of_neg (by simp [hp]), List.map_cons,
        List.sum_cons, Nat.add_assoc]
    | false =>
      rw [List.filter_cons_of_neg (by simp [hp]), List.filter_cons_of_pos (by simp [hp]),
        List.map_cons, List.sum_cons, Nat.add_left_comm]

variable [DecidableEq κ]

theorem sum_ite_key (ks : List κ) (hks : ks.Nodup) (k : κ) (v : Nat) :
    (ks.map fun i => if k = i then v else 0).sum = if k ∈ ks then v else 0 := by
  induction ks with
  | nil => rfl
  | cons i ks ih =>
    obtain ⟨hi, hks⟩ := List.nodup_cons.mp hks
    rw [List.map_cons, List.sum_cons, ih hks]
    by_cases hk : k = i
    · obtain rfl := hk
      rw [if_pos rfl, if_neg hi, if_pos List.mem_cons_self, Nat.add_zero]
    · rw [if_neg hk, Nat.zero_add]
      apply if_congr _ rfl rfl
      rw [List.mem_cons, or_iff_right hk]

theorem sum_fibers {key : α → Option κ} {ks : List κ} (hks : ks.Nodup) {l : List α}
    (hkey : ∀ a ∈ l, ∀ k, key a = some k → k ∈ ks) :
    (ks.map fun k => ((l.filter fun a => key a = some k).map f).sum).sum =
      ((l.filter fun a => (key a).isSome).map f).sum := by
  induction l with
  | nil => simp
  | cons a l ih =>
    obtain ⟨ha, hl⟩ := List.forall_mem_cons.mp hkey
    cases hk : key a with
    | none =>
      have hnone : ∀ k, ((a :: l).filter fun a => key a = some k) =
          l.filter fun a => key a = some k := by
        intro k
        apply List.filter_cons_of_neg
        rw [hk]
        simp
      simp only [hnone]
      rw [ih hl, List.filter_cons_of_neg (by simp [hk])]
    | some k =>
      have hone : ∀ i, (((a :: l).filter fun a => key a = some i).map f).sum =
          (if k = i then f a else 0) + ((l.filter fun a => key a = some i).map f).sum := by
        intro i
        by_cases hi : k = i
        · rw [List.filter_cons_of_pos (by simp [hk, hi]), if_pos hi, List.map_cons, List.sum_cons]
        · rw [List.filter_cons_of_neg (by simp [hk, hi]), if_neg hi, Nat.zero_add]
      simp only [hone]
      rw [List.sum_map_add, ih hl, sum_ite_key ks hks, if_pos (ha k hk),
        List.filter_cons_of_pos (by simp [hk]), List.map_cons, List.sum_cons]

theorem sum_filter_mem {key : α → κ} {g : κ → Nat} {l : List α} {ks : List κ}
    (hl : (l.map key).Nodup) (hks : ks.Nodup) (hsub : ∀ k ∈ ks, k ∈ l.map key)
    (hf : ∀ a ∈ l, f a = g (key a)) :
    ((l.filter fun a => key a ∈ ks).map f).sum = (ks.map g).sum := by
  have hperm : ((l.filter fun a => key a ∈ ks).map key).Perm ks := by
    rw [List.perm_ext_iff_of_nodup (hl.sublist (List.filter_sublist.map key)) hks]
    intro k
    constructor
    · intro hk
      obtain ⟨a, ha, rfl⟩ := List.mem_map.mp hk
      exact of_decide_eq_true (List.mem_filter.mp ha).2
    · intro hk
      obtain ⟨a, ha, rfl⟩ := List.mem_map.mp (hsub k hk)
      exact List.mem_map_of_mem (List.mem_filter.mpr ⟨ha, decide_eq_true hk⟩)
  rw [← (hperm.map g).sum_eq, List.map_map]
  congr 1
  apply List.map_congr_left
  intro a ha
  exact hf a (List.mem_filter.mp ha).1

end Fibers
