import Std.Data.ExtTreeMap.Lemmas
import Mathlib.Algebra.BigOperators.Group.List.Basic

namespace KeySum
open Std
set_option autoImplicit true

variable {κ β M : Type} [Ord κ] [TransOrd κ] [LawfulEqOrd κ] [AddCommMonoid M] {f : κ → M}
  {m : ExtTreeMap κ β} {k : κ} {v : β}

/-- The sum of a weight over the keys of a map. -/
def keySum (f : κ → M) (m : ExtTreeMap κ β) : M := (m.keys.map f).sum

theorem keys_insert_perm (h : k ∉ m) : (m.insert k v).keys.Perm (k :: m.keys) := by
  rw [List.perm_ext_iff_of_nodup (ExtTreeMap.nodup_keys)
    (List.nodup_cons.mpr ⟨by rwa [ExtTreeMap.mem_keys], ExtTreeMap.nodup_keys⟩)]
  intro a
  rw [List.mem_cons, ExtTreeMap.mem_keys, ExtTreeMap.mem_keys, ExtTreeMap.mem_insert,
    Std.LawfulEqCmp.compare_eq_iff_eq, eq_comm]

omit [LawfulEqOrd κ] in
@[simp] theorem keySum_empty : keySum f (∅ : ExtTreeMap κ β) = 0 := by
  rw [keySum, ExtTreeMap.keys_eq_nil_iff.mpr rfl, List.map_nil, List.sum_nil]

theorem keySum_insert (h : k ∉ m) : keySum f (m.insert k v) = keySum f m + f k := by
  rw [keySum, ((keys_insert_perm h).map f).sum_eq, List.map_cons, List.sum_cons, add_comm]
  rfl

theorem keySum_erase (h : m[k]? = some v) : keySum f (m.erase k) + f k = keySum f m := by
  have hk : k ∉ m.erase k := by simp
  have hm : (m.erase k).insert k v = m := by
    apply ExtTreeMap.ext_getElem?
    intro a
    rw [ExtTreeMap.getElem?_insert, ExtTreeMap.getElem?_erase]
    by_cases ha : k = a
    · subst ha
      simp [h]
    · simp [ha]
  rw [← keySum_insert hk, hm]

end KeySum
