import Mathlib.Data.List.Sort

namespace KeySort
set_option autoImplicit true

section Strict

variable {κ : Type} [LE κ] [LT κ] [Std.IsLinearOrder κ] [Std.LawfulOrderLT κ]

theorem isChain_lt_of_ne {l : List κ} (hs : l.Pairwise (· ≤ ·)) (hn : l.IsChain (· ≠ ·)) :
    l.IsChain (· < ·) := by
  have hle : l.IsChain (· ≤ ·) := hs.isChain
  induction hn with
  | nil => exact .nil
  | singleton a => exact .singleton a
  | cons_cons hne _ ih =>
    cases hle with
    | cons_cons hab hle => exact .cons_cons (Std.lt_of_le_of_ne hab hne) (ih hs.of_cons hle)

theorem nodup_of_isChain_lt {l : List κ} (h : l.IsChain (· < ·)) : l.Nodup := by
  have : IsTrans κ (· < ·) := ⟨fun _ _ _ => Std.lt_trans⟩
  exact (List.isChain_iff_pairwise.mp h).imp Std.ne_of_lt

end Strict

variable {α κ : Type} [LE κ] [DecidableLE κ]

/-- The elements in ascending order of their keys, equal keys in their own order. -/
abbrev sortBy (key : α → κ) (l : List α) : List α := l.insertionSort fun a b => key a ≤ key b

theorem sortBy_perm (key : α → κ) (l : List α) : (sortBy key l).Perm l :=
  List.perm_insertionSort _ l

variable [Std.IsLinearOrder κ]

instance isTrans_le (key : α → κ) : IsTrans α fun a b => key a ≤ key b := ⟨fun _ _ _ => Std.le_trans⟩

instance total_le (key : α → κ) : Std.Total fun a b : α => key a ≤ key b := ⟨fun _ _ => Std.le_total⟩

theorem sortBy_pairwise (key : α → κ) (l : List α) :
    ((sortBy key l).map key).Pairwise (· ≤ ·) :=
  List.pairwise_map.mpr (List.pairwise_insertionSort _ l)

theorem sortBy_eq_of_perm (key : α → κ) {l l' : List α} (h : l.Perm l')
    (hn : (l.map key).Nodup) : sortBy key l = sortBy key l' := by
  have hperm : (sortBy key l).Perm (sortBy key l') :=
    (sortBy_perm key l).trans (h.trans (sortBy_perm key l').symm)
  refine hperm.eq_of_pairwise (fun a b ha hb hab hba => ?_) (List.pairwise_insertionSort _ l)
    (List.pairwise_insertionSort _ l')
  have hmem : b ∈ l := h.mem_iff.mpr ((sortBy_perm key l').mem_iff.mp hb)
  exact List.inj_on_of_nodup_map hn ((sortBy_perm key l).mem_iff.mp ha) hmem
    (Std.le_antisymm hab hba)

variable [LT κ] [Std.LawfulOrderLT κ]

theorem sortBy_isChain_ne (key : α → κ) (l : List α) :
    ((sortBy key l).map key).IsChain (· ≠ ·) ↔ (l.map key).Nodup := by
  rw [← ((sortBy_perm key l).map key).nodup_iff]
  constructor
  · intro h
    exact nodup_of_isChain_lt (isChain_lt_of_ne (sortBy_pairwise key l) h)
  · exact fun h => List.Pairwise.isChain h

theorem sortBy_isChain_lt (key : α → κ) (l : List α) :
    ((sortBy key l).map key).IsChain (· < ·) ↔ (l.map key).Nodup := by
  rw [← sortBy_isChain_ne]
  constructor
  · exact fun h => h.imp fun _ _ => Std.ne_of_lt
  · exact isChain_lt_of_ne (sortBy_pairwise key l)

theorem not_mem_take_sortBy (key : α → κ) {l : List α} {x : α} {n : Nat} [DecidableLT κ]
    (h : n ≤ l.countP fun y => key y < key x) : x ∉ (sortBy key l).take n := by
  intro hx
  have hsorted : (sortBy key l).Pairwise fun a b => key a ≤ key b :=
    List.pairwise_map.mp (sortBy_pairwise key l)
  rw [← List.take_append_drop n (sortBy key l)] at hsorted
  obtain ⟨-, -, hcross⟩ := List.pairwise_append.mp hsorted
  have hdrop : ((sortBy key l).drop n).countP (fun y => key y < key x) = 0 := by
    rw [List.countP_eq_zero]
    intro y hy hlt
    exact Std.not_lt_of_ge (hcross x hx y hy) (of_decide_eq_true hlt)
  have htake : ((sortBy key l).take n).countP (fun y => key y < key x) <
      ((sortBy key l).take n).length := by
    apply Nat.lt_of_le_of_ne List.countP_le_length
    intro hall
    exact Std.lt_irrefl (of_decide_eq_true (List.countP_eq_length.mp hall x hx))
  rw [← (sortBy_perm key l).countP_eq, ← List.take_append_drop n (sortBy key l),
    List.countP_append, hdrop] at h
  have hlen := List.length_take_le n (sortBy key l)
  omega

end KeySort
