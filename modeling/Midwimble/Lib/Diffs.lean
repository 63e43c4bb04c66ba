import Midwimble.Lib.OrderedMap

namespace OrderedMap
set_option autoImplicit true

variable {κ ν : Type} [Ord κ] [Std.TransOrd κ] [Std.LawfulEqOrd κ]

theorem getElem?_insertAll_of_not_mem {t : Std.ExtTreeMap κ ν} {es : List (κ × ν)} {k : κ}
    (hk : k ∉ es.map Prod.fst) : (insertAll t es)[k]? = t[k]? := by
  apply getElem?_foldl_insert (f := fun v => v)
  rintro e he rfl
  exact hk (List.mem_map_of_mem he)

theorem getElem?_insertAll_of_mem {t : Std.ExtTreeMap κ ν} {es : List (κ × ν)} {k : κ} {v : ν}
    (hk : k ∈ es.map Prod.fst) (hes : ∀ e ∈ es, e.1 = k → e.2 = v) :
    (insertAll t es)[k]? = some v := by
  induction es generalizing t with
  | nil => exact absurd hk List.not_mem_nil
  | cons e es ih =>
    by_cases hrest : k ∈ es.map Prod.fst
    · exact ih hrest fun e' he' => hes e' (List.mem_cons_of_mem _ he')
    · have he : e.1 = k := by
        rcases List.mem_cons.mp hk with he | hk
        · exact he.symm
        · exact absurd hk hrest
      show (insertAll (t.insert e.1 e.2) es)[k]? = some v
      rw [getElem?_insertAll_of_not_mem hrest, he, Std.ExtTreeMap.getElem?_insert_self,
        hes e List.mem_cons_self he]

theorem getElem?_insertAll_of_nodup {t : Std.ExtTreeMap κ ν} {es : List (κ × ν)} {e : κ × ν}
    (hes : (es.map Prod.fst).Nodup) (he : e ∈ es) : (insertAll t es)[e.1]? = some e.2 := by
  apply getElem?_insertAll_of_mem (List.mem_map_of_mem he)
  intro e' he' hkey
  rw [List.inj_on_of_nodup_map hes he' he hkey]

theorem getElem?_eraseAll_of_mem {t : Std.ExtTreeMap κ ν} {keys : List κ} {k : κ} (hk : k ∈ keys) :
    (eraseAll t keys)[k]? = none := by
  cases h : (eraseAll t keys)[k]? with
  | none => rfl
  | some v => exact absurd hk (getElem?_foldl_erase_eq_some.mp h).1

theorem getElem?_eraseAll_of_not_mem {t : Std.ExtTreeMap κ ν} {keys : List κ} {k : κ}
    (hk : k ∉ keys) : (eraseAll t keys)[k]? = t[k]? := by
  ext v
  rw [eraseAll, getElem?_foldl_erase_eq_some]
  exact and_iff_right hk

theorem mem_insertAll {t : Std.ExtTreeMap κ ν} {es : List (κ × ν)} {k : κ} :
    k ∈ insertAll t es ↔ k ∈ es.map Prod.fst ∨ k ∈ t := by
  induction es generalizing t with
  | nil => simp [insertAll]
  | cons e es ih =>
    show k ∈ insertAll (t.insert e.1 e.2) es ↔ _
    rw [ih, Std.ExtTreeMap.mem_insert, List.map_cons, List.mem_cons,
      Std.LawfulEqCmp.compare_eq_iff_eq, eq_comm (a := e.1)]
    tauto

theorem getElem?_insertAll_eq_some {t : Std.ExtTreeMap κ ν} {es : List (κ × ν)} {k : κ} {v : ν}
    (hes : (es.map Prod.fst).Nodup) (hnew : ∀ k ∈ es.map Prod.fst, t[k]? = none) :
    (insertAll t es)[k]? = some v ↔ (k, v) ∈ es ∨ t[k]? = some v := by
  by_cases hk : k ∈ es.map Prod.fst
  · rw [hnew k hk]
    obtain ⟨e, he, rfl⟩ := List.mem_map.mp hk
    rw [getElem?_insertAll_of_nodup hes he]
    constructor
    · intro hv
      obtain rfl := Option.some.inj hv
      exact .inl he
    · rintro (hv | hv)
      · rw [List.inj_on_of_nodup_map hes he hv rfl]
      · cases hv
  · rw [getElem?_insertAll_of_not_mem hk]
    constructor
    · exact .inr
    · rintro (hv | hv)
      · exact absurd (List.mem_map_of_mem hv) hk
      · exact hv

theorem undo_eq (t mid : Std.ExtTreeMap κ ν) (added removed : List (κ × ν))
    (hmid : ∀ k, k ∉ removed.map Prod.fst → mid[k]? = t[k]?)
    (hremoved : ∀ e ∈ removed, t[e.1]? = some e.2)
    (hadded : ∀ k ∈ added.map Prod.fst, k ∉ removed.map Prod.fst → t[k]? = none) :
    insertAll (eraseAll (insertAll mid added) (added.map Prod.fst)) removed = t := by
  apply Std.ExtTreeMap.ext_getElem?
  intro k
  by_cases hr : k ∈ removed.map Prod.fst
  · obtain ⟨e, he, rfl⟩ := List.mem_map.mp hr
    rw [hremoved e he]
    apply getElem?_insertAll_of_mem hr
    intro e' he' hkey
    have hsame := hremoved e' he'
    rw [hkey, hremoved e he] at hsame
    exact (Option.some.inj hsame).symm
  · rw [getElem?_insertAll_of_not_mem hr]
    by_cases ha : k ∈ added.map Prod.fst
    · rw [getElem?_eraseAll_of_mem ha, hadded k ha hr]
    · rw [getElem?_eraseAll_of_not_mem ha, getElem?_insertAll_of_not_mem ha, hmid k hr]

theorem insertAll_toList (t : Std.ExtTreeMap κ ν) : insertAll ∅ t.toList = t := by
  apply Std.ExtTreeMap.ext_getElem?
  intro k
  have hread := getElem?_foldl_toList (f := fun v => v) t k
  rwa [Option.map_id'] at hread

omit [Std.LawfulEqOrd κ] in
theorem size_insertAll_le (t : Std.ExtTreeMap κ ν) (es : List (κ × ν)) :
    (insertAll t es).size ≤ t.size + es.length := by
  induction es generalizing t with
  | nil => exact Nat.le_refl _
  | cons e es ih =>
    have hrest : (insertAll t (e :: es)).size ≤ (t.insert e.1 e.2).size + es.length := ih _
    have hone : (t.insert e.1 e.2).size ≤ t.size + 1 := Std.ExtTreeMap.size_insert_le
    rw [List.length_cons]
    omega

theorem nodup_of_size_insertAll {t : Std.ExtTreeMap κ ν} {es : List (κ × ν)}
    (h : (insertAll t es).size = t.size + es.length) :
    (es.map Prod.fst).Nodup ∧ ∀ k ∈ es.map Prod.fst, k ∉ t := by
  induction es generalizing t with
  | nil => exact ⟨List.nodup_nil, fun k hk => absurd hk List.not_mem_nil⟩
  | cons e es ih =>
    have hrest : (insertAll (t.insert e.1 e.2) es).size = t.size + es.length + 1 := h
    have hle := size_insertAll_le (t.insert e.1 e.2) es
    have hnew : e.1 ∉ t := by
      intro hmem
      rw [Std.ExtTreeMap.size_insert, if_pos (Std.ExtTreeMap.mem_iff_contains.mp hmem)] at hle
      omega
    obtain ⟨hnodup, hapart⟩ := ih (t := t.insert e.1 e.2) (by
      rw [hrest, Std.ExtTreeMap.size_insert, if_neg (mt Std.ExtTreeMap.mem_iff_contains.mpr hnew)]
      omega)
    have hsplit : ∀ k ∈ es.map Prod.fst, k ≠ e.1 ∧ k ∉ t := by
      intro k hk
      have hout := hapart k hk
      rw [Std.ExtTreeMap.mem_insert, Std.LawfulEqCmp.compare_eq_iff_eq, not_or] at hout
      exact ⟨Ne.symm hout.1, hout.2⟩
    refine ⟨List.nodup_cons.mpr ⟨fun hmem => (hsplit _ hmem).1 rfl, hnodup⟩, ?_⟩
    intro k hk
    rcases List.mem_cons.mp hk with rfl | hk
    · exact hnew
    · exact (hsplit k hk).2

theorem toList_insertAll_perm {t : Std.ExtTreeMap κ ν} {es : List (κ × ν)}
    (hes : (es.map Prod.fst).Nodup) (hnew : ∀ k ∈ es.map Prod.fst, k ∉ t) :
    (insertAll t es).toList.Perm (es ++ t.toList) := by
  induction es generalizing t with
  | nil => exact List.Perm.refl _
  | cons e es ih =>
    obtain ⟨hout, hes⟩ := List.nodup_cons.mp hes
    have hhead : t[e.1]? = none := Std.ExtTreeMap.getElem?_eq_none (hnew _ List.mem_cons_self)
    have hrest : (insertAll (t.insert e.1 e.2) es).toList.Perm
        (es ++ (t.insert e.1 e.2).toList) := by
      apply ih hes
      intro k hk
      rw [Std.ExtTreeMap.mem_insert, Std.LawfulEqCmp.compare_eq_iff_eq, not_or]
      refine ⟨?_, hnew k (List.mem_cons_of_mem _ hk)⟩
      rintro rfl
      exact hout hk
    exact hrest.trans (((toList_insert_perm hhead).append_left es).trans List.perm_middle)

end OrderedMap
