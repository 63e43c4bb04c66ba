import Std.Data.ExtTreeMap.Lemmas
import Mathlib.Data.List.Basic
import Mathlib.Data.List.Pairwise

namespace Indexed
open Std
set_option autoImplicit true

section Keyed

variable {α κ : Type} [Ord κ] [TransOrd κ] {key : α → κ} {entries entries' : ExtTreeMap κ α}
  {es es' : List α} {e : α}

/-- A map by key holds exactly these elements. -/
def Keyed (key : α → κ) (entries : ExtTreeMap κ α) (es : List α) : Prop :=
  ∀ k e, entries[k]? = some e ↔ e ∈ es ∧ key e = k

theorem keyed_empty : Keyed key ∅ [] := by
  intro k e
  simp

theorem Keyed.get (h : Keyed key entries es) (he : e ∈ es) : entries[key e]? = some e :=
  (h _ _).mpr ⟨he, rfl⟩

theorem Keyed.inj (h : Keyed key entries es) (he : e ∈ es) (he' : e' ∈ es)
    (hk : key e = key e') : e = e' := by
  have hg := h.get he
  rw [hk, h.get he'] at hg
  exact (Option.some.inj hg).symm

theorem Keyed.congr (h : Keyed key entries es) (hm : ∀ e, e ∈ es ↔ e ∈ es') :
    Keyed key entries es' := by
  intro k e
  rw [h k e, hm]

variable [LawfulEqOrd κ]

theorem Keyed.unique (h : Keyed key entries es) (h' : Keyed key entries' es) :
    entries = entries' := by
  apply ExtTreeMap.ext_getElem?
  intro k
  apply Option.ext
  intro e
  rw [h, h']

theorem Keyed.insert (h : Keyed key entries es) (hk : ∀ x ∈ es, key x ≠ key e) :
    Keyed key (entries.insert (key e) e) (es ++ [e]) := by
  intro k x
  rw [ExtTreeMap.getElem?_insert, List.mem_append, List.mem_singleton]
  by_cases hc : key e = k
  · subst hc
    rw [if_pos (compare_self), Option.some.injEq]
    constructor
    · rintro rfl
      exact ⟨.inr rfl, rfl⟩
    · rintro ⟨hm, hx⟩
      exact (hm.resolve_left fun hm => hk x hm hx).symm
  · rw [if_neg (by simpa using hc), h]
    constructor
    · rintro ⟨hm, hx⟩
      exact ⟨.inl hm, hx⟩
    · rintro ⟨hm, hx⟩
      exact ⟨hm.resolve_right fun he => hc (he ▸ hx), hx⟩

theorem Keyed.erase [DecidableEq κ] (h : Keyed key entries es) :
    Keyed key (entries.erase k) (es.filter (key · ≠ k)) := by
  intro k' x
  rw [ExtTreeMap.getElem?_erase, List.mem_filter]
  by_cases hc : k = k'
  · subst hc
    simp
  · rw [if_neg (by simpa using hc), h]
    constructor
    · rintro ⟨hm, rfl⟩
      exact ⟨⟨hm, by simpa using Ne.symm hc⟩, rfl⟩
    · rintro ⟨⟨hm, -⟩, hx⟩
      exact ⟨hm, hx⟩

theorem Keyed.toList_eq (h : Keyed key entries es)
    (hs : es.Pairwise fun a b => compare (key a) (key b) = .lt) :
    entries.toList = es.map fun e => (key e, e) := by
  have hirr : ∀ k : κ, compare k k ≠ .lt := fun k hk => by simp at hk
  have hs' : (es.map fun e => (key e, e)).Pairwise fun a b => compare a.1 b.1 = .lt :=
    List.pairwise_map.mpr hs
  have hnodup : ∀ {l : List (κ × α)}, (l.Pairwise fun a b => compare a.1 b.1 = .lt) →
      l.Nodup := by
    intro l hl
    refine List.Pairwise.imp ?_ hl
    intro a b hab he
    exact hirr _ (he ▸ hab)
  have ho : entries.toList.Pairwise fun a b => compare a.1 b.1 = .lt :=
    ExtTreeMap.ordered_keys_toList
  refine List.Perm.eq_of_pairwise ?_ ho hs' ?_
  · intro a b _ _ hab hba
    exact absurd (TransCmp.lt_trans hab hba) (hirr _)
  · rw [List.perm_ext_iff_of_nodup (hnodup ho) (hnodup hs')]
    intro p
    rw [show p = (p.1, p.2) from rfl, ExtTreeMap.mem_toList_iff_getElem?_eq_some, h,
      List.mem_map]
    constructor
    · rintro ⟨hm, hk⟩
      exact ⟨p.2, hm, by rw [hk]⟩
    · rintro ⟨e, hm, he⟩
      rw [Prod.mk.injEq] at he
      exact ⟨he.2 ▸ hm, he.2 ▸ he.1⟩

end Keyed

section Tagged

variable {α κ τ : Type} [Ord τ] [TransOrd τ] {key : α → κ} {tag : α → τ}
  {index index' : ExtTreeMap τ κ} {es es' : List α} {e : α}

/-- An index by tag holds the keys of exactly these elements. -/
def Tagged (key : α → κ) (tag : α → τ) (index : ExtTreeMap τ κ) (es : List α) : Prop :=
  ∀ t k, index[t]? = some k ↔ ∃ e ∈ es, tag e = t ∧ key e = k

theorem tagged_empty : Tagged key tag ∅ [] := by
  intro t k
  simp

theorem Tagged.get (h : Tagged key tag index es) (he : e ∈ es) :
    index[tag e]? = some (key e) := (h _ _).mpr ⟨e, he, rfl, rfl⟩

theorem Tagged.inj (h : Tagged key tag index es) (he : e ∈ es) (he' : e' ∈ es)
    (ht : tag e = tag e') : key e = key e' := by
  have hg := h.get he
  rw [ht, h.get he'] at hg
  exact (Option.some.inj hg).symm

theorem Tagged.congr (h : Tagged key tag index es) (hm : ∀ e, e ∈ es ↔ e ∈ es') :
    Tagged key tag index es' := by
  intro t k
  simp only [h t k, hm]

variable [LawfulEqOrd τ]

theorem Tagged.unique (h : Tagged key tag index es) (h' : Tagged key tag index' es) :
    index = index' := by
  apply ExtTreeMap.ext_getElem?
  intro t
  apply Option.ext
  intro k
  rw [h, h']

theorem Tagged.insert (h : Tagged key tag index es) (ht : ∀ x ∈ es, tag x ≠ tag e) :
    Tagged key tag (index.insert (tag e) (key e)) (es ++ [e]) := by
  intro t k
  rw [ExtTreeMap.getElem?_insert]
  simp only [List.mem_append, List.mem_singleton]
  by_cases hc : tag e = t
  · subst hc
    rw [if_pos (compare_self), Option.some.injEq]
    constructor
    · rintro rfl
      exact ⟨e, .inr rfl, rfl, rfl⟩
    · rintro ⟨x, hm, hx, rfl⟩
      rw [hm.resolve_left fun hm => ht x hm hx]
  · rw [if_neg (by simpa using hc), h]
    constructor
    · rintro ⟨x, hm, hx, hk⟩
      exact ⟨x, .inl hm, hx, hk⟩
    · rintro ⟨x, hm, hx, hk⟩
      exact ⟨x, hm.resolve_right fun he => hc (he ▸ hx), hx, hk⟩

theorem Tagged.erase [DecidableEq κ] (h : Tagged key tag index es) (he : e ∈ es)
    (hk : ∀ x ∈ es, key x = key e → x = e) :
    Tagged key tag (index.erase (tag e)) (es.filter (key · ≠ key e)) := by
  intro t k
  rw [ExtTreeMap.getElem?_erase]
  simp only [List.mem_filter, decide_eq_true_eq]
  by_cases hc : tag e = t
  · subst hc
    simp only [compare_self, if_true, reduceCtorEq, false_iff, not_exists, not_and]
    rintro x ⟨hm, hx⟩ ht
    exact absurd (h.inj hm he ht) hx
  · rw [if_neg (by simpa using hc), h]
    constructor
    · rintro ⟨x, hm, hx, hkx⟩
      exact ⟨x, ⟨hm, fun hk' => hc (hk x hm hk' ▸ hx)⟩, hx, hkx⟩
    · rintro ⟨x, ⟨hm, -⟩, hx, hkx⟩
      exact ⟨x, hm, hx, hkx⟩

end Tagged

end Indexed
