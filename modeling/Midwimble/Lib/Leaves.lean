import Midwimble.Lib.OrderedMap

namespace OrderedMap
set_option autoImplicit true

variable {κ ν μ : Type} [Ord κ] [Std.TransOrd κ] [Std.LawfulEqOrd κ]
  [Ord μ] [Std.TransOrd μ] [Std.LawfulEqOrd μ]

/-- A set of exactly the leaves of a map's entries. -/
def LeavesOf (leaf : κ × ν → μ) (t : Std.ExtTreeMap κ ν) (leaves : Std.ExtTreeSet μ) : Prop :=
  ∀ x, x ∈ leaves ↔ ∃ k v, t[k]? = some v ∧ leaf (k, v) = x

/-- Every entry of a map is one of the entries met. -/
def Within (t : Std.ExtTreeMap κ ν) (met : Set (κ × ν)) : Prop := ∀ k v, t[k]? = some v → (k, v) ∈ met

variable {leaf : κ × ν → μ} {t t' : Std.ExtTreeMap κ ν} {leaves leaves' : Std.ExtTreeSet μ}
  {met : Set (κ × ν)} {k : κ} {v : ν}

theorem Within.erase (h : Within t met) (k : κ) : Within (t.erase k) met :=
  fun _ _ he => h _ _ (getElem?_erase_eq_some.mp he).2

omit [Std.LawfulEqOrd κ] [Std.LawfulEqOrd μ] in
theorem leavesOf_empty (leaf : κ × ν → μ) : LeavesOf leaf (∅ : Std.ExtTreeMap κ ν) ∅ := by
  intro x
  constructor
  · exact fun hx => absurd hx Std.ExtTreeSet.not_mem_empty
  · rintro ⟨k, v, hk, -⟩
    rw [Std.ExtTreeMap.getElem?_empty] at hk
    cases hk

namespace LeavesOf

theorem insert (h : LeavesOf leaf t leaves) (hk : t[k]? = none) :
    LeavesOf leaf (t.insert k v) (leaves.insert (leaf (k, v))) := by
  intro x
  rw [Std.ExtTreeSet.mem_insert, Std.LawfulEqOrd.compare_eq_iff_eq, h]
  constructor
  · rintro (rfl | ⟨k', v', he, rfl⟩)
    · exact ⟨k, v, Std.ExtTreeMap.getElem?_insert_self, rfl⟩
    · refine ⟨k', v', getElem?_insert_eq_some.mpr (.inr ⟨?_, he⟩), rfl⟩
      rintro rfl
      rw [hk] at he
      cases he
  · rintro ⟨k', v', he, rfl⟩
    rcases getElem?_insert_eq_some.mp he with ⟨rfl, rfl⟩ | ⟨-, he⟩
    · exact .inl rfl
    · exact .inr ⟨k', v', he, rfl⟩

theorem erase (h : LeavesOf leaf t leaves) (hinj : Set.InjOn leaf met) (hw : Within t met)
    (hk : t[k]? = some v) : LeavesOf leaf (t.erase k) (leaves.erase (leaf (k, v))) := by
  intro x
  rw [Std.ExtTreeSet.mem_erase, ne_eq, Std.LawfulEqOrd.compare_eq_iff_eq, h]
  constructor
  · rintro ⟨hne, k', v', he, rfl⟩
    refine ⟨k', v', getElem?_erase_eq_some.mpr ⟨?_, he⟩, rfl⟩
    rintro rfl
    rw [hk] at he
    exact hne (by rw [Option.some.inj he])
  · rintro ⟨k', v', he, rfl⟩
    obtain ⟨hne, he⟩ := getElem?_erase_eq_some.mp he
    refine ⟨?_, k', v', he, rfl⟩
    intro hsame
    exact hne (Prod.mk.inj (hinj (hw k v hk) (hw k' v' he) hsame)).1

omit [Std.LawfulEqOrd κ] in
theorem unique (h : LeavesOf leaf t leaves) (h' : LeavesOf leaf t leaves') : leaves = leaves' := by
  apply Std.ExtTreeSet.ext_mem
  intro x
  exact (h x).trans (h' x).symm

end LeavesOf

theorem leavesOf_foldl (leaf : κ × ν → μ) (t : Std.ExtTreeMap κ ν) :
    LeavesOf leaf t (t.toList.foldl (fun leaves p => leaves.insert (leaf p)) ∅) := by
  have hfold : ∀ (l : List (κ × ν)) (leaves : Std.ExtTreeSet μ) (x : μ),
      x ∈ l.foldl (fun leaves p => leaves.insert (leaf p)) leaves ↔
        x ∈ leaves ∨ ∃ p ∈ l, leaf p = x := by
    intro l
    induction l with
    | nil => simp
    | cons p l ih =>
      intro leaves x
      rw [List.foldl_cons, ih, Std.ExtTreeSet.mem_insert, Std.LawfulEqOrd.compare_eq_iff_eq,
        List.exists_mem_cons_iff]
      tauto
  intro x
  rw [hfold]
  constructor
  · rintro (hx | ⟨⟨k, v⟩, hp, rfl⟩)
    · exact absurd hx Std.ExtTreeSet.not_mem_empty
    · exact ⟨k, v, Std.ExtTreeMap.mem_toList_iff_getElem?_eq_some.mp hp, rfl⟩
  · rintro ⟨k, v, hk, rfl⟩
    exact .inr ⟨(k, v), Std.ExtTreeMap.mem_toList_iff_getElem?_eq_some.mpr hk, rfl⟩

end OrderedMap
