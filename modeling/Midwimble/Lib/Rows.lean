import Midwimble.Lib.Diffs

namespace OrderedMap
set_option autoImplicit true

/-- A table of a list's elements at their places. -/
def Rows (t : Std.ExtTreeMap Nat β) (l : List α) (f : Nat → α → β) : Prop :=
  ∀ k : Nat, t[k]? = l[k]?.map (f k)

variable {α β : Type} {t : Std.ExtTreeMap Nat β} {l : List α} {f : Nat → α → β} {a : α}

theorem rows_empty (f : Nat → α → β) : Rows ∅ [] f := by
  intro k
  rw [Std.ExtTreeMap.getElem?_empty, List.getElem?_nil, Option.map_none]

namespace Rows

theorem insert (h : Rows t l f) (a : α) :
    Rows (t.insert l.length (f l.length a)) (l ++ [a]) f := by
  intro k
  rw [Std.ExtTreeMap.getElem?_insert]
  by_cases hk : l.length = k
  · subst hk
    rw [if_pos Std.ReflCmp.compare_self, List.getElem?_concat_length, Option.map_some]
  · rw [if_neg (mt Std.LawfulEqCmp.eq_of_compare hk), h]
    rcases Nat.lt_or_ge k l.length with hlt | hge
    · rw [List.getElem?_append_left hlt]
    · rw [List.getElem?_eq_none hge, List.getElem?_eq_none (by simp; omega)]

theorem erase (h : Rows t (l ++ [a]) f) : Rows (t.erase l.length) l f := by
  intro k
  rw [Std.ExtTreeMap.getElem?_erase]
  by_cases hk : l.length = k
  · subst hk
    simp
  · rw [if_neg (mt Std.LawfulEqCmp.eq_of_compare hk), h]
    rcases Nat.lt_or_ge k l.length with hlt | hge
    · rw [List.getElem?_append_left hlt]
    · rw [List.getElem?_eq_none (by simp; omega), List.getElem?_eq_none hge]

/-- A range of the table reads as that part of the list. -/
theorem range (h : Rows t l f) (start stop : Nat) :
    t.toList.filter (fun p => start ≤ p.1 ∧ p.1 < stop) =
      ((l.zipIdx.map fun p => (p.2, f p.2 p.1)).take stop).drop start := by
  have : Std.Irrefl fun a b : Nat × β => compare a.1 b.1 = .lt :=
    ⟨fun a h => Std.OrientedCmp.not_lt_of_lt h h⟩
  have : Std.Antisymm fun a b : Nat × β => compare a.1 b.1 = .lt :=
    ⟨fun a b h h' => (Std.OrientedCmp.not_lt_of_lt h h').elim⟩
  have hsorted : (l.zipIdx.map fun p => (p.2, f p.2 p.1)).Pairwise
      fun a b => compare a.1 b.1 = .lt := by
    rw [List.pairwise_map]
    have hplaces : (l.zipIdx.map Prod.snd).Pairwise (· < ·) := by
      rw [List.zipIdx_map_snd]
      exact List.pairwise_lt_range'
    rw [List.pairwise_map] at hplaces
    exact hplaces.imp fun hlt => Nat.compare_eq_lt.mpr hlt
  apply (Std.ExtTreeMap.ordered_keys_toList.filter _).eq_of_mem_iff
    ((hsorted.sublist (List.take_sublist _ _)).sublist (List.drop_sublist _ _))
  rintro ⟨k, v⟩
  rw [List.mem_filter, Std.ExtTreeMap.mem_toList_iff_getElem?_eq_some, h, decide_eq_true_eq,
    List.mem_iff_getElem?]
  constructor
  · rintro ⟨hk, hle, hlt⟩
    refine ⟨k - start, ?_⟩
    rw [List.getElem?_drop, Nat.add_sub_cancel' hle, List.getElem?_take_of_lt hlt,
      List.getElem?_map, List.getElem?_zipIdx, Option.map_map, Nat.zero_add]
    rw [Option.map_eq_some_iff] at hk ⊢
    obtain ⟨x, hx, rfl⟩ := hk
    exact ⟨x, hx, rfl⟩
  · rintro ⟨i, hi⟩
    rw [List.getElem?_drop] at hi
    have hlt : start + i < stop := by
      have hbound := (List.getElem?_eq_some_iff.mp hi).1
      rw [List.length_take] at hbound
      omega
    rw [List.getElem?_take_of_lt hlt, List.getElem?_map, List.getElem?_zipIdx] at hi
    simp only [Nat.zero_add, Option.map_map, Option.map_eq_some_iff] at hi
    obtain ⟨x, hx, he⟩ := hi
    obtain ⟨rfl, rfl⟩ := Prod.mk.inj he
    rw [hx, Option.map_some]
    exact ⟨rfl, Nat.le_add_right _ _, hlt⟩

end Rows

theorem filter_after {κ ν : Type} [Ord κ] [Std.TransOrd κ] {l done rest : List (κ × ν)}
    (hl : l.Pairwise fun a b => compare a.1 b.1 = .lt)
    (he : l = done ++ rest) :
    l.filter (fun p => (done.getLast?.map Prod.fst).all fun c => compare c p.1 = .lt) = rest := by
  subst he
  rcases List.eq_nil_or_concat done with rfl | ⟨before, last, rfl⟩
  · simp
  · rw [List.concat_eq_append] at hl ⊢
    obtain ⟨hdone, -, hcross⟩ := List.pairwise_append.mp hl
    have hlast : (before ++ [last]).getLast?.map Prod.fst = some last.1 := by simp
    simp only [hlast, Option.all_some]
    have hnone : (before ++ [last]).filter (fun p => decide (compare last.1 p.1 = .lt)) = [] := by
      rw [List.filter_eq_nil_iff]
      intro p hp hlt
      rw [decide_eq_true_eq] at hlt
      rcases List.mem_append.mp hp with hp | hp
      · have hless := (List.pairwise_append.mp hdone).2.2 p hp last (List.mem_singleton_self _)
        exact Std.OrientedCmp.not_lt_of_lt hless hlt
      · rw [List.mem_singleton.mp hp] at hlt
        exact Std.OrientedCmp.not_lt_of_lt hlt hlt
    have hall : rest.filter (fun p => decide (compare last.1 p.1 = .lt)) = rest := by
      rw [List.filter_eq_self]
      intro p hp
      exact decide_eq_true (hcross last (List.mem_append_right _ (List.mem_singleton_self _)) p hp)
    rw [List.filter_append, hnone, hall, List.nil_append]

theorem mem_keys_toList {κ ν : Type} [Ord κ] [Std.TransOrd κ] [Std.LawfulEqOrd κ]
    {t : Std.ExtTreeMap κ ν} {k : κ} : k ∈ t.toList.map Prod.fst ↔ k ∈ t := by
  rw [mem_iff_exists, List.mem_map]
  constructor
  · rintro ⟨⟨k', v⟩, he, rfl⟩
    exact ⟨v, Std.ExtTreeMap.mem_toList_iff_getElem?_eq_some.mp he⟩
  · rintro ⟨v, hv⟩
    exact ⟨(k, v), Std.ExtTreeMap.mem_toList_iff_getElem?_eq_some.mpr hv, rfl⟩

theorem keys_eq {κ ν μ : Type} [Ord κ] [Std.TransOrd κ] [Std.LawfulEqOrd κ]
    {t : Std.ExtTreeMap κ ν} {t' : Std.ExtTreeMap κ μ} (h : ∀ k, k ∈ t ↔ k ∈ t') :
    t.toList.map Prod.fst = t'.toList.map Prod.fst := by
  have : Std.Irrefl fun a b : κ => compare a b = .lt :=
    ⟨fun a h => Std.OrientedCmp.not_lt_of_lt h h⟩
  have : Std.Antisymm fun a b : κ => compare a b = .lt :=
    ⟨fun a b h h' => (Std.OrientedCmp.not_lt_of_lt h h').elim⟩
  have hsorted : ∀ {ξ : Type} (u : Std.ExtTreeMap κ ξ),
      (u.toList.map Prod.fst).Pairwise fun a b => compare a b = .lt :=
    fun u => List.pairwise_map.mpr Std.ExtTreeMap.ordered_keys_toList
  apply (hsorted t).eq_of_mem_iff (hsorted t')
  intro k
  rw [mem_keys_toList, mem_keys_toList, h]

section Consecutive

variable {xs : List (Nat × β)} {first : Nat}

theorem nodup_consecutive (h : xs.map Prod.fst = List.range' first xs.length) :
    (xs.map Prod.fst).Nodup := by
  rw [h]
  exact List.nodup_range'

theorem toList_consecutive (h : xs.map Prod.fst = List.range' first xs.length) :
    (insertAll ∅ xs).toList = xs := by
  apply toList_eq
  · have hsorted : (xs.map Prod.fst).Pairwise (· < ·) := by
      rw [h]
      exact List.pairwise_lt_range'
    exact (List.pairwise_map.mp hsorted).imp Nat.compare_eq_lt.mpr
  · rintro ⟨k, v⟩
    rw [Std.ExtTreeMap.mem_toList_iff_getElem?_eq_some,
      getElem?_insertAll_eq_some (nodup_consecutive h)
        (fun _ _ => Std.ExtTreeMap.getElem?_empty), Std.ExtTreeMap.getElem?_empty]
    exact or_iff_left (Option.some_ne_none _).symm

theorem filter_consecutive (h : xs.map Prod.fst = List.range' first xs.length)
    (hstart : first ≤ start) (hstop : first + xs.length = stop) :
    xs.filter (fun p => start ≤ p.1 ∧ p.1 < stop) = xs.drop (start - first) := by
  induction xs generalizing first with
  | nil => rw [List.drop_nil, List.filter_nil]
  | cons x xs ih =>
    rw [List.map_cons, List.length_cons, List.range'_succ, List.cons.injEq] at h
    rw [List.length_cons] at hstop
    rcases Nat.eq_or_lt_of_le hstart with rfl | hlt
    · rw [Nat.sub_self, List.drop_zero, List.filter_eq_self]
      intro p hp
      have hkey : p.1 ∈ List.range' first (xs.length + 1) := by
        rw [List.range'_succ, ← h.2]
        nth_rewrite 1 [← h.1]
        exact List.mem_map_of_mem hp
      rw [List.mem_range'_1] at hkey
      exact decide_eq_true ⟨hkey.1, by omega⟩
    · have hskip : start - first = start - (first + 1) + 1 := by omega
      rw [hskip, List.drop_succ_cons, List.filter_cons_of_neg, ih h.2 hlt (by omega)]
      rw [h.1]
      simpa using fun hle => absurd hlt (Nat.not_lt.mpr hle)

end Consecutive

end OrderedMap
