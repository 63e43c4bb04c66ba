import Mathlib.Algebra.GroupWithZero.Nat
import Mathlib.Data.List.Sort
import Std.Data.ExtTreeMap

namespace OrderedMap
set_option autoImplicit true

variable {κ ν μ : Type} [Ord κ] [Std.TransOrd κ] [Std.LawfulEqOrd κ]

theorem getElem?_insert_eq_some {t : Std.ExtTreeMap κ ν} {k l : κ} {v w : ν} :
    (t.insert k v)[l]? = some w ↔ k = l ∧ v = w ∨ k ≠ l ∧ t[l]? = some w := by
  rw [Std.ExtTreeMap.getElem?_insert]
  by_cases h : k = l
  · rw [if_pos (Std.LawfulEqCmp.compare_eq_iff_eq.mpr h)]
    simp [h]
  · rw [if_neg (mt Std.LawfulEqCmp.eq_of_compare h)]
    simp [h]

omit [Std.LawfulEqOrd κ] in
theorem mem_iff_exists {t : Std.ExtTreeMap κ ν} {k : κ} : k ∈ t ↔ ∃ v, t[k]? = some v := by
  rw [Std.ExtTreeMap.mem_iff_isSome_getElem?, Option.isSome_iff_exists]

theorem getElem?_erase_eq_some {t : Std.ExtTreeMap κ ν} {k l : κ} {w : ν} :
    (t.erase k)[l]? = some w ↔ k ≠ l ∧ t[l]? = some w := by
  rw [Std.ExtTreeMap.getElem?_erase]
  by_cases h : k = l
  · rw [if_pos (Std.LawfulEqCmp.compare_eq_iff_eq.mpr h)]
    simp [h]
  · rw [if_neg (mt Std.LawfulEqCmp.eq_of_compare h)]
    simp [h]

theorem getElem?_filter_eq_some {t : Std.ExtTreeMap κ ν} {f : κ → ν → Bool} {k : κ} {v : ν} :
    (t.filter f)[k]? = some v ↔ t[k]? = some v ∧ f k v = true := by
  rw [Std.ExtTreeMap.getElem?_filter', Option.filter_eq_some_iff]

theorem getElem?_foldl_insert {f : ν → μ} {l : List (κ × ν)} {m : Std.ExtTreeMap κ μ} {k : κ}
    (hk : ∀ e ∈ l, e.1 ≠ k) :
    (l.foldl (fun m e => m.insert e.1 (f e.2)) m)[k]? = m[k]? := by
  induction l generalizing m with
  | nil => rfl
  | cons e l ih =>
    obtain ⟨hne, hl⟩ := List.forall_mem_cons.mp hk
    rw [List.foldl_cons, ih hl, Std.ExtTreeMap.getElem?_insert,
      if_neg (mt Std.LawfulEqCmp.eq_of_compare hne)]

theorem getElem?_foldl_erase {l : List ι} {key : ι → κ} {m : Std.ExtTreeMap κ ν} {k : κ}
    (hk : ∀ e ∈ l, key e ≠ k) : (l.foldl (fun m e => m.erase (key e)) m)[k]? = m[k]? := by
  induction l generalizing m with
  | nil => rfl
  | cons e l ih =>
    obtain ⟨hne, hl⟩ := List.forall_mem_cons.mp hk
    rw [List.foldl_cons, ih hl, Std.ExtTreeMap.getElem?_erase,
      if_neg (mt Std.LawfulEqCmp.eq_of_compare hne)]

theorem mem_foldl_erase {l : List κ} {m : Std.ExtTreeMap κ ν} {k : κ} :
    k ∈ l.foldl (fun m k => m.erase k) m ↔ k ∉ l ∧ k ∈ m := by
  induction l generalizing m with
  | nil => simp
  | cons a l ih =>
    rw [List.foldl_cons, ih, Std.ExtTreeMap.mem_erase, List.mem_cons, not_or, ne_eq,
      Std.LawfulEqCmp.compare_eq_iff_eq, eq_comm]
    tauto

theorem mem_foldl_insert {l : List κ} {m : Std.ExtTreeMap κ ν} {k : κ} {v : ν} :
    k ∈ l.foldl (fun m k => m.insert k v) m ↔ k ∈ l ∨ k ∈ m := by
  induction l generalizing m with
  | nil => simp
  | cons a l ih =>
    rw [List.foldl_cons, ih, Std.ExtTreeMap.mem_insert, List.mem_cons,
      Std.LawfulEqCmp.compare_eq_iff_eq, eq_comm]
    tauto

theorem getElem?_foldl_insert_of_mem {f : ν → μ} {l : List (κ × ν)} {m : Std.ExtTreeMap κ μ}
    (hl : l.Pairwise fun a b => a.1 ≠ b.1) (h : (k, v) ∈ l) :
    (l.foldl (fun m e => m.insert e.1 (f e.2)) m)[k]? = some (f v) := by
  induction l generalizing m with
  | nil => exact nomatch h
  | cons e l ih =>
    obtain ⟨he, hl⟩ := List.pairwise_cons.mp hl
    rw [List.foldl_cons]
    rcases List.mem_cons.mp h with rfl | h
    · rw [getElem?_foldl_insert fun e h => (he e h).symm, Std.ExtTreeMap.getElem?_insert_self]
    · exact ih hl h

omit [Std.LawfulEqOrd κ] in
theorem pairwise_toList (t : Std.ExtTreeMap κ ν) : t.toList.Pairwise fun a b => a.1 ≠ b.1 := by
  apply Std.ExtTreeMap.ordered_keys_toList.imp
  intro a b hlt heq
  rw [heq] at hlt
  exact Std.OrientedCmp.not_lt_of_lt hlt hlt

/-- Entries put into a map one after another. -/
def insertAll (t : Std.ExtTreeMap κ ν) (entries : List (κ × ν)) : Std.ExtTreeMap κ ν :=
  entries.foldl (fun t e => t.insert e.1 e.2) t

/-- Keys taken out of a map one after another. -/
def eraseAll (t : Std.ExtTreeMap κ ν) (keys : List κ) : Std.ExtTreeMap κ ν :=
  keys.foldl (fun t k => t.erase k) t

theorem getElem?_foldl_erase_eq_some {keys : List κ} {t : Std.ExtTreeMap κ ν} {k : κ} {v : ν} :
    (keys.foldl (fun t k => t.erase k) t)[k]? = some v ↔ k ∉ keys ∧ t[k]? = some v := by
  induction keys generalizing t with
  | nil => simp
  | cons a keys ih =>
    rw [List.foldl_cons, ih, getElem?_erase_eq_some, List.mem_cons, not_or, eq_comm (a := k)]
    tauto

theorem getElem?_foldl_insert_eq_some {keys : List κ} {t : Std.ExtTreeMap κ ν} {k : κ}
    {v w : ν} : (keys.foldl (fun t k => t.insert k v) t)[k]? = some w ↔
      k ∈ keys ∧ v = w ∨ k ∉ keys ∧ t[k]? = some w := by
  induction keys generalizing t with
  | nil => simp
  | cons a keys ih =>
    rw [List.foldl_cons, ih, getElem?_insert_eq_some, List.mem_cons, not_or, eq_comm (a := k)]
    tauto

theorem getElem?_foldl_toList {f : ν → μ} (t : Std.ExtTreeMap κ ν) (k : κ) :
    (t.toList.foldl (fun m e => m.insert e.1 (f e.2)) (∅ : Std.ExtTreeMap κ μ))[k]? =
      t[k]?.map f := by
  cases h : t[k]? with
  | none =>
    rw [getElem?_foldl_insert, Std.ExtTreeMap.getElem?_empty, Option.map_none]
    rintro ⟨key, v⟩ he rfl
    rw [Std.ExtTreeMap.mem_toList_iff_getElem?_eq_some.mp he] at h
    cases h
  | some v =>
    rw [getElem?_foldl_insert_of_mem (pairwise_toList t)
      (Std.ExtTreeMap.mem_toList_iff_getElem?_eq_some.mpr h), Option.map_some]

omit [Std.LawfulEqOrd κ] in
theorem toList_eq {t : Std.ExtTreeMap κ ν} {l : List (κ × ν)}
    (hl : l.Pairwise fun a b => compare a.1 b.1 = .lt) (h : ∀ e, e ∈ t.toList ↔ e ∈ l) :
    t.toList = l := by
  have : Std.Irrefl fun a b : κ × ν => compare a.1 b.1 = .lt :=
    ⟨fun a h => Std.OrientedCmp.not_lt_of_lt h h⟩
  have : Std.Antisymm fun a b : κ × ν => compare a.1 b.1 = .lt :=
    ⟨fun a b h h' => (Std.OrientedCmp.not_lt_of_lt h h').elim⟩
  exact Std.ExtTreeMap.ordered_keys_toList.eq_of_mem_iff hl h

theorem toList_eq_map {t : Std.ExtTreeMap κ ν} {key : ν → κ} {xs : List ν}
    (hxs : xs.Pairwise fun a b => compare (key a) (key b) = .lt)
    (h : ∀ k v, t[k]? = some v ↔ v ∈ xs ∧ key v = k) : t.toList = xs.map fun v => (key v, v) := by
  have hs : (xs.map fun v => (key v, v)).Pairwise fun a b => compare a.1 b.1 = .lt :=
    List.pairwise_map.mpr hxs
  have hmem : ∀ e : κ × ν, e ∈ t.toList ↔ e ∈ xs.map fun v => (key v, v) := by
    rintro ⟨k, v⟩
    rw [Std.ExtTreeMap.mem_toList_iff_getElem?_eq_some, h, List.mem_map]
    constructor
    · rintro ⟨hv, rfl⟩
      exact ⟨v, hv, rfl⟩
    · rintro ⟨w, hw, he⟩
      obtain ⟨rfl, rfl⟩ := Prod.mk.inj he
      exact ⟨hw, rfl⟩
  exact toList_eq hs hmem

theorem toList_erase_head {t : Std.ExtTreeMap κ ν} {k : κ} {v : ν} {l : List (κ × ν)}
    (h : t.toList = (k, v) :: l) : (t.erase k).toList = l := by
  have hs : t.toList.Pairwise fun a b => compare a.1 b.1 = .lt :=
    Std.ExtTreeMap.ordered_keys_toList
  have hne := pairwise_toList t
  rw [h] at hs hne
  apply toList_eq (List.pairwise_cons.mp hs).2
  rintro ⟨a, w⟩
  rw [Std.ExtTreeMap.mem_toList_iff_getElem?_eq_some, getElem?_erase_eq_some,
    ← Std.ExtTreeMap.mem_toList_iff_getElem?_eq_some, h, List.mem_cons]
  constructor
  · rintro ⟨hka, he | he⟩
    · exact absurd (Prod.mk.inj he).1.symm hka
    · exact he
  · intro he
    exact ⟨(List.pairwise_cons.mp hne).1 _ he, .inr he⟩

theorem head?_toList {t : Std.ExtTreeMap κ ν} {k : κ} {v : ν}
    (h : t.toList.head? = some (k, v)) :
    t[k]? = some v ∧ ∀ l w, t[l]? = some w → l = k ∨ compare k l = .lt := by
  obtain ⟨rest, hrest⟩ : ∃ rest, t.toList = (k, v) :: rest := List.head?_eq_some_iff.mp h
  have hs : t.toList.Pairwise fun a b => compare a.1 b.1 = .lt :=
    Std.ExtTreeMap.ordered_keys_toList
  rw [hrest] at hs
  constructor
  · rw [← Std.ExtTreeMap.mem_toList_iff_getElem?_eq_some, hrest]
    exact List.mem_cons_self
  · intro l w hl
    rw [← Std.ExtTreeMap.mem_toList_iff_getElem?_eq_some, hrest, List.mem_cons] at hl
    rcases hl with he | he
    · exact .inl (Prod.mk.inj he).1
    · exact .inr ((List.pairwise_cons.mp hs).1 _ he)

/-- The sum of a weight over the values of a map. -/
def valueSum (f : ν → Nat) (t : Std.ExtTreeMap κ ν) : Nat := (t.toList.map fun e => f e.2).sum

omit [Std.LawfulEqOrd κ] in
theorem valueSum_empty (f : ν → Nat) : valueSum f (∅ : Std.ExtTreeMap κ ν) = 0 := by
  rw [valueSum, Std.ExtTreeMap.toList_eq_nil_iff.mpr rfl, List.map_nil, List.sum_nil]

theorem toList_insert_perm {t : Std.ExtTreeMap κ ν} {k : κ} {v : ν} (h : t[k]? = none) :
    (t.insert k v).toList.Perm ((k, v) :: t.toList) := by
  have hnodup : ∀ t : Std.ExtTreeMap κ ν, t.toList.Nodup :=
    fun t => (pairwise_toList t).imp fun hne he => hne (congrArg Prod.fst he)
  rw [List.perm_ext_iff_of_nodup (hnodup _)]
  · rintro ⟨l, w⟩
    rw [Std.ExtTreeMap.mem_toList_iff_getElem?_eq_some, getElem?_insert_eq_some, List.mem_cons,
      Std.ExtTreeMap.mem_toList_iff_getElem?_eq_some, Prod.mk.injEq]
    constructor
    · rintro (⟨rfl, rfl⟩ | ⟨-, hw⟩)
      · exact .inl ⟨rfl, rfl⟩
      · exact .inr hw
    · rintro (⟨rfl, rfl⟩ | hw)
      · exact .inl ⟨rfl, rfl⟩
      · refine .inr ⟨?_, hw⟩
        rintro rfl
        rw [h] at hw
        cases hw
  · refine List.nodup_cons.mpr ⟨fun hmem => ?_, hnodup t⟩
    rw [Std.ExtTreeMap.mem_toList_iff_getElem?_eq_some, h] at hmem
    cases hmem

theorem valueSum_insert {f : ν → Nat} {t : Std.ExtTreeMap κ ν} {k : κ} {v : ν}
    (h : t[k]? = none) : valueSum f (t.insert k v) = f v + valueSum f t := by
  rw [valueSum, ((toList_insert_perm h).map _).sum_nat, List.map_cons, List.sum_cons]
  rfl

theorem insert_erase {t : Std.ExtTreeMap κ ν} {k : κ} {v : ν} (h : t[k]? = some v) :
    (t.erase k).insert k v = t := by
  apply Std.ExtTreeMap.ext_getElem?
  intro l
  ext w
  rw [getElem?_insert_eq_some, getElem?_erase_eq_some]
  by_cases hl : k = l
  · subst hl
    simp [h]
  · simp [hl]

theorem valueSum_erase {f : ν → Nat} {t : Std.ExtTreeMap κ ν} {k : κ} {v : ν}
    (h : t[k]? = some v) : valueSum f t = f v + valueSum f (t.erase k) := by
  rw [← valueSum_insert (k := k) (v := v) (by simp), insert_erase h]

theorem valueSum_insert_le {f : ν → Nat} {t : Std.ExtTreeMap κ ν} {k : κ} {v : ν} :
    valueSum f (t.insert k v) ≤ f v + valueSum f t := by
  cases h : t[k]? with
  | none => exact Nat.le_of_eq (valueSum_insert h)
  | some w =>
    have hnew : (t.erase k)[k]? = none := by simp
    have hsame : (t.erase k).insert k v = t.insert k v := by
      apply Std.ExtTreeMap.ext_getElem?
      intro l
      ext x
      rw [getElem?_insert_eq_some, getElem?_insert_eq_some, getElem?_erase_eq_some]
      by_cases hl : k = l
      · simp [hl]
      · simp [hl]
    rw [← hsame, valueSum_insert hnew, valueSum_erase h]
    omega

theorem valueSum_insert_getD {f : ν → Nat} {t : Std.ExtTreeMap κ ν} {k : κ} {v d : ν} (hd : f d = 0) :
    valueSum f (t.insert k v) + f (t[k]?.getD d) = valueSum f t + f v := by
  cases h : t[k]? with
  | none =>
    rw [valueSum_insert h, Option.getD_none, hd]
    omega
  | some w =>
    have hnew : (t.erase k)[k]? = none := by simp
    have hsame : (t.erase k).insert k v = t.insert k v := by
      apply Std.ExtTreeMap.ext_getElem?
      intro l
      ext x
      rw [getElem?_insert_eq_some, getElem?_insert_eq_some, getElem?_erase_eq_some]
      constructor
      · rintro (hl | ⟨hne, -, hl⟩)
        · exact .inl hl
        · exact .inr ⟨hne, hl⟩
      · rintro (hl | ⟨hne, hl⟩)
        · exact .inl hl
        · exact .inr ⟨hne, hne, hl⟩
    rw [← hsame, valueSum_insert hnew, valueSum_erase h, Option.getD_some]
    omega

theorem valueSum_congr {f g : ν → Nat} {t : Std.ExtTreeMap κ ν}
    (h : ∀ (k : κ) (v : ν), t[k]? = some v → f v = g v) : valueSum f t = valueSum g t := by
  rw [valueSum, valueSum]
  congr 1
  apply List.map_congr_left
  rintro ⟨k, v⟩ he
  exact h k v (Std.ExtTreeMap.mem_toList_iff_getElem?_eq_some.mp he)

end OrderedMap
