import Midwimble.Lib.Diffs

namespace OrderedMap
set_option autoImplicit true

section Traces

variable {κ α : Type} [Ord κ] [Std.TransOrd κ] [Std.LawfulEqOrd κ]
  {keys : α → List κ} {m : Std.ExtTreeMap κ Nat} {l : List α} {a : α}

/-- Each key names a place of the list whose entry has it. -/
def Traces (keys : α → List κ) (m : Std.ExtTreeMap κ Nat) (l : List α) : Prop :=
  ∀ k i, m[k]? = some i → ∃ a, l[i]? = some a ∧ k ∈ keys a

/-- Keys that one entry only can have are found at its place. -/
def Finds (keys : α → List κ) (own : κ → α → Prop) (m : Std.ExtTreeMap κ Nat) (l : List α) : Prop :=
  ∀ k i a, l[i]? = some a → k ∈ keys a → own k a → m[k]? = some i

/-- Writes a place under each key. -/
def record (m : Std.ExtTreeMap κ Nat) (ks : List κ) (i : Nat) : Std.ExtTreeMap κ Nat :=
  ks.foldl (fun m k => m.insert k i) m

/-- Takes out the keys that name a place. -/
def forget (m : Std.ExtTreeMap κ Nat) (ks : List κ) (i : Nat) : Std.ExtTreeMap κ Nat :=
  ks.foldl (fun m k => if m[k]? = some i then m.erase k else m) m

theorem getElem?_record [DecidableEq κ] (m : Std.ExtTreeMap κ Nat) (ks : List κ) (i : Nat) (k : κ) :
    (record m ks i)[k]? = if k ∈ ks then some i else m[k]? := by
  unfold record
  induction ks generalizing m with
  | nil => rfl
  | cons k' ks ih =>
    rw [List.foldl_cons, ih]
    by_cases hk : k ∈ ks
    · rw [if_pos hk, if_pos (List.mem_cons_of_mem _ hk)]
    · by_cases he : k = k'
      · subst he
        rw [if_neg hk, if_pos List.mem_cons_self, Std.ExtTreeMap.getElem?_insert_self]
      · have hout : k ∉ k' :: ks := by
          rw [List.mem_cons]
          exact not_or.mpr ⟨he, hk⟩
        rw [if_neg hk, if_neg hout, Std.ExtTreeMap.getElem?_insert, if_neg]
        rw [Std.LawfulEqCmp.compare_eq_iff_eq]
        exact Ne.symm he

theorem getElem?_forget (m : Std.ExtTreeMap κ Nat) (ks : List κ) (i : Nat) (k : κ) :
    (forget m ks i)[k]? = some j ↔ m[k]? = some j ∧ (k ∈ ks → j ≠ i) := by
  unfold forget
  induction ks generalizing m with
  | nil => simp
  | cons k' ks ih =>
    rw [List.foldl_cons, ih]
    by_cases he : k' = k
    · subst he
      by_cases hm : m[k']? = some i
      · rw [if_pos hm, Std.ExtTreeMap.getElem?_erase_self, hm]
        constructor
        · rintro ⟨h, -⟩
          cases h
        · rintro ⟨h, hne⟩
          exact absurd (Option.some.inj h).symm (hne List.mem_cons_self)
      · rw [if_neg hm]
        constructor
        · rintro ⟨h, -⟩
          refine ⟨h, fun _ he => ?_⟩
          subst he
          exact hm h
        · rintro ⟨h, hne⟩
          exact ⟨h, fun _ => hne List.mem_cons_self⟩
    · have hsame : (if m[k']? = some i then m.erase k' else m)[k]? = m[k]? := by
        split
        · rw [Std.ExtTreeMap.getElem?_erase, if_neg]
          rw [Std.LawfulEqCmp.compare_eq_iff_eq]
          exact he
        · rfl
      rw [hsame, List.mem_cons]
      refine and_congr_right fun _ => ?_
      constructor
      · rintro h (rfl | hk)
        · exact absurd rfl he
        · exact h hk
      · exact fun h hk => h (.inr hk)

omit [Std.LawfulEqOrd κ] in
theorem traces_empty (keys : α → List κ) (l : List α) : Traces keys ∅ l := by
  intro k i h
  rw [Std.ExtTreeMap.getElem?_empty] at h
  cases h

theorem Traces.record [DecidableEq κ] (h : Traces keys m l) (a : α) :
    Traces keys (record m (keys a) l.length) (l ++ [a]) := by
  intro k i hk
  rw [getElem?_record] at hk
  by_cases hin : k ∈ keys a
  · rw [if_pos hin, Option.some.injEq] at hk
    subst hk
    exact ⟨a, List.getElem?_concat_length, hin⟩
  · rw [if_neg hin] at hk
    obtain ⟨b, hb, hkey⟩ := h k i hk
    obtain ⟨hlt, -⟩ := List.getElem?_eq_some_iff.mp hb
    exact ⟨b, by rw [List.getElem?_append_left hlt]; exact hb, hkey⟩

theorem Traces.forget (h : Traces keys m (l ++ [a])) :
    Traces keys (forget m (keys a) l.length) l := by
  intro k i hk
  obtain ⟨hm, hne⟩ := (getElem?_forget m _ _ k).mp hk
  obtain ⟨b, hb, hkey⟩ := h k i hm
  obtain ⟨hlt, -⟩ := List.getElem?_eq_some_iff.mp hb
  rw [List.length_append, List.length_singleton] at hlt
  rcases Nat.lt_succ_iff_lt_or_eq.mp hlt with hlt | rfl
  · rw [List.getElem?_append_left hlt] at hb
    exact ⟨b, hb, hkey⟩
  · rw [List.getElem?_concat_length, Option.some.injEq] at hb
    subst hb
    exact absurd rfl (hne hkey)

variable {own : κ → α → Prop}

omit [Std.LawfulEqOrd κ] in
theorem finds_nil (keys : α → List κ) (own : κ → α → Prop) (m : Std.ExtTreeMap κ Nat) :
    Finds keys own m [] := by
  intro k i a h
  cases h

theorem Finds.record [DecidableEq κ] (h : Finds keys own m l) (hnew : a ∉ l)
    (hown : ∀ k b, b ∈ l → own k b → k ∈ keys a → a = b) :
    Finds keys own (record m (keys a) l.length) (l ++ [a]) := by
  intro k i b hb hkey hk
  rw [getElem?_record]
  obtain ⟨hlt, -⟩ := List.getElem?_eq_some_iff.mp hb
  rw [List.length_append, List.length_singleton] at hlt
  rcases Nat.lt_succ_iff_lt_or_eq.mp hlt with hlt | rfl
  · rw [List.getElem?_append_left hlt] at hb
    have hmem := List.mem_of_getElem? hb
    rw [if_neg]
    · exact h k i b hb hkey hk
    · intro hin
      rw [hown k b hmem hk hin] at hnew
      exact hnew hmem
  · rw [List.getElem?_concat_length, Option.some.injEq] at hb
    subst hb
    rw [if_pos hkey]

theorem Finds.forget (h : Finds keys own m (l ++ [a])) (ks : List κ) :
    Finds keys own (forget m ks l.length) l := by
  intro k i b hb hkey hk
  obtain ⟨hlt, -⟩ := List.getElem?_eq_some_iff.mp hb
  rw [getElem?_forget]
  refine ⟨h k i b (by rw [List.getElem?_append_left hlt]; exact hb) hkey hk, fun _ => ?_⟩
  exact Nat.ne_of_lt hlt

/-- Each key names a place that has it, and keys of one entry only are found. -/
structure Places (keys : α → List κ) (S : Set α) (m : Std.ExtTreeMap κ Nat) (l : List α) :
    Prop where
  traces : Traces keys m l
  finds : Finds keys (fun k a => ∀ b ∈ S, k ∈ keys b → b = a) m l

variable {S : Set α}

omit [Std.LawfulEqOrd κ] in
theorem places_empty (keys : α → List κ) (S : Set α) : Places keys S ∅ [] :=
  ⟨traces_empty keys [], finds_nil keys _ ∅⟩

theorem Places.record [DecidableEq κ] (h : Places keys S m l) (ha : a ∈ S) (hnew : a ∉ l) :
    Places keys S (record m (keys a) l.length) (l ++ [a]) :=
  ⟨h.traces.record a, h.finds.record hnew fun _ _ _ hown hin => hown a ha hin⟩

theorem Places.forget (h : Places keys S m (l ++ [a])) :
    Places keys S (forget m (keys a) l.length) l :=
  ⟨h.traces.forget, h.finds.forget (keys a)⟩

end Traces

end OrderedMap
