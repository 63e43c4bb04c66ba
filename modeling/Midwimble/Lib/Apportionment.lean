import Mathlib.Algebra.BigOperators.Group.List.Basic
import Mathlib.Algebra.GroupWithZero.Nat
import Mathlib.Algebra.Order.BigOperators.Group.List
import Mathlib.Data.List.NodupEquivFin
import Mathlib.Data.List.Sort

namespace Apportionment
set_option autoImplicit true

variable {r ws : List Nat} {d i j k total : Nat}

/-- Of the sizes `r`, that of `a` comes before that of `b`: the larger, or of equals the first. -/
def Before (r : List Nat) (a b : Nat) : Prop :=
  r.getD b 0 < r.getD a 0 ∨ (r.getD b 0 = r.getD a 0 ∧ a ≤ b)

instance : DecidableRel (Before r) := fun a b =>
  inferInstanceAs (Decidable (r.getD b 0 < r.getD a 0 ∨ (r.getD b 0 = r.getD a 0 ∧ a ≤ b)))

instance : Std.Total (Before r) where
  total a b := by
    unfold Before
    omega

instance : IsTrans Nat (Before r) where
  trans a b c hab hbc := by
    unfold Before at *
    omega

theorem Before.antisymm (h : Before r i j) (h' : Before r j i) : i = j := by
  unfold Before at h h'
  omega

/-- The places of `r` in order of size. -/
def ranked (r : List Nat) : List Nat := (List.range r.length).insertionSort (Before r)

theorem ranked_perm : (ranked r).Perm (List.range r.length) := List.perm_insertionSort _ _

theorem ranked_nodup : (ranked r).Nodup := ranked_perm.nodup_iff.mpr List.nodup_range

theorem mem_ranked : i ∈ ranked r ↔ i < r.length := by
  rw [ranked_perm.mem_iff, List.mem_range]

/-- The `k` largest. -/
def largest (k : Nat) (r : List Nat) : List Nat := (ranked r).take k

theorem lt_of_mem_largest (h : i ∈ largest k r) : i < r.length :=
  mem_ranked.mp (List.mem_of_mem_take h)

theorem length_largest_le : (largest k r).length ≤ k := List.length_take_le _ _

theorem mem_largest_of_before (hj : j ∈ largest k r) (h : Before r i j) (hi : i < r.length) :
    i ∈ largest k r := by
  have hmem := mem_ranked.mpr hi
  have hsorted : (ranked r).Pairwise (Before r) := List.pairwise_insertionSort _ _
  rw [← List.take_append_drop k (ranked r)] at hmem hsorted
  rcases List.mem_append.mp hmem with hin | hout
  · exact hin
  · have hji := (List.pairwise_append.mp hsorted).2.2 j hj i hout
    rw [h.antisymm hji]
    exact hj

theorem countP_largest (h : k ≤ r.length) :
    (List.range r.length).countP (· ∈ largest k r) = k := by
  have hsplit := List.take_append_drop k (ranked r)
  have hnodup := ranked_nodup (r := r)
  rw [← hsplit, List.nodup_append] at hnodup
  have hin : (largest k r).countP (· ∈ largest k r) = (largest k r).length :=
    List.countP_eq_length.mpr fun i hi => decide_eq_true hi
  have hout : ((ranked r).drop k).countP (· ∈ largest k r) = 0 := by
    apply List.countP_eq_zero.mpr
    intro i hi hmem
    exact hnodup.2.2 i (of_decide_eq_true hmem) i hi rfl
  have hlen : (largest k r).length = k := by
    rw [largest, List.length_take, ranked_perm.length_eq, List.length_range]
    exact min_eq_left h
  rw [← ranked_perm.countP_eq, ← hsplit, List.countP_append, hout, Nat.add_zero]
  exact hin.trans hlen

theorem map_getD_range (r : List Nat) : (List.range r.length).map (r.getD · 0) = r := by
  apply List.ext_getElem
  · simp
  · intro i h h'
    simp [h']

theorem sum_le_countP_mul (h : ∀ x ∈ r, x < d) : r.sum ≤ r.countP (0 < ·) * d := by
  induction r with
  | nil => exact Nat.zero_le _
  | cons x r ih =>
    have hx := h x List.mem_cons_self
    have hr := ih fun y hy => h y (List.mem_cons_of_mem _ hy)
    rw [List.sum_cons, List.countP_cons]
    by_cases h0 : 0 < x
    · rw [if_pos (decide_eq_true h0), Nat.succ_mul]
      omega
    · rw [if_neg (by simpa using h0), Nat.add_zero]
      omega

theorem pos_of_mem_largest (h : ∀ x ∈ r, x < d) (hsum : r.sum = k * d)
    (hj : j ∈ largest k r) : 0 < r.getD j 0 := by
  by_contra h0
  have hzero : r.getD j 0 = 0 := by omega
  have hpos : ((List.range r.length).filter (0 < r.getD · 0)).length = r.countP (0 < ·) := by
    rw [← List.countP_eq_length_filter]
    conv_rhs => rw [← map_getD_range r, List.countP_map]
    rfl
  -- every place with a remainder comes before `j`
  have hsub : (List.range r.length).filter (0 < r.getD · 0) ⊆ (largest k r).erase j := by
    intro i hi
    rw [List.mem_filter, List.mem_range, decide_eq_true_eq] at hi
    have hne : i ≠ j := by
      rintro rfl
      omega
    exact (List.mem_erase_of_ne hne).mpr
      (mem_largest_of_before hj (.inl (by omega)) hi.1)
  have hle := (List.subperm_of_subset (List.nodup_range.filter _) hsub).length_le
  rw [hpos, List.length_erase_of_mem hj] at hle
  have hk := length_largest_le (k := k) (r := r)
  have hone := List.length_pos_of_mem hj
  have hbound := sum_le_countP_mul h
  have hd : 0 < d := by
    have hlt := lt_of_mem_largest hj
    exact Nat.pos_of_ne_zero fun hd0 => by
      have := h _ (List.getElem_mem hlt)
      omega
  have hlt : r.countP (0 < ·) * d < k * d := Nat.mul_lt_mul_of_pos_right (by omega) hd
  omega

/-- What `total` leaves each weight after whole units. -/
def remainders (total : Nat) (ws : List Nat) : List Nat := ws.map (total * · % ws.sum)

/-- The units left over when every weight has its whole ones. -/
def leftover (total : Nat) (ws : List Nat) : Nat := total - (ws.map (total * · / ws.sum)).sum

/-- `total` shared by weight: whole units, and one more to the largest remainders. -/
def shares (total : Nat) (ws : List Nat) : List Nat :=
  ws.zipIdx.map fun p =>
    total * p.1 / ws.sum + if p.2 ∈ largest (leftover total ws) (remainders total ws) then 1 else 0

theorem length_shares : (shares total ws).length = ws.length := by
  rw [shares, List.length_map, List.length_zipIdx]

theorem getElem?_shares : (shares total ws)[i]? = ws[i]?.map fun w =>
    total * w / ws.sum +
      if i ∈ largest (leftover total ws) (remainders total ws) then 1 else 0 := by
  rw [shares, List.getElem?_map, List.getElem?_zipIdx, Option.map_map, Nat.zero_add]
  rfl

theorem sum_div_add_mod (total d : Nat) (ws : List Nat) :
    d * (ws.map (total * · / d)).sum + (ws.map (total * · % d)).sum = total * ws.sum := by
  induction ws with
  | nil => rfl
  | cons w ws ih =>
    have hw := Nat.div_add_mod (total * w) d
    simp only [List.map_cons, List.sum_cons, Nat.mul_add]
    omega

theorem sum_whole_le (total : Nat) (h : 0 < ws.sum) :
    (ws.map (total * · / ws.sum)).sum ≤ total := by
  have hdiv := sum_div_add_mod total ws.sum ws
  apply Nat.le_of_mul_le_mul_left _ h
  rw [Nat.mul_comm ws.sum total]
  omega

theorem sum_remainders :
    (remainders total ws).sum = leftover total ws * ws.sum := by
  have hdiv := sum_div_add_mod total ws.sum ws
  rw [remainders, leftover, Nat.mul_comm, Nat.mul_sub, Nat.mul_comm ws.sum total]
  omega

theorem remainder_lt (total : Nat) (h : 0 < ws.sum) : ∀ x ∈ remainders total ws, x < ws.sum := by
  intro x hx
  obtain ⟨w, -, rfl⟩ := List.mem_map.mp hx
  exact Nat.mod_lt _ h

theorem leftover_le (total : Nat) (h : 0 < ws.sum) :
    leftover total ws ≤ (remainders total ws).length := by
  have hle := sum_le_countP_mul (remainder_lt total h)
  rw [sum_remainders] at hle
  exact (Nat.le_of_mul_le_mul_right hle h).trans List.countP_le_length

theorem sum_indicator (l : List Nat) (p : Nat → Prop) [DecidablePred p] :
    (l.map fun i => if p i then 1 else 0).sum = l.countP (p ·) := by
  induction l with
  | nil => rfl
  | cons i l ih =>
    rw [List.map_cons, List.sum_cons, ih, List.countP_cons]
    by_cases hi : p i <;> simp [hi, Nat.add_comm]

theorem sum_shares (h : 0 < ws.sum) : (shares total ws).sum = total := by
  have hwhole := sum_whole_le total h
  have hcount := countP_largest (leftover_le total h)
  have hextra : (ws.zipIdx.map ((fun i =>
      if i ∈ largest (leftover total ws) (remainders total ws) then 1 else 0) ∘ Prod.snd)).sum =
        leftover total ws := by
    rw [← List.map_map, List.zipIdx_map_snd, ← List.range_eq_range', sum_indicator]
    rw [remainders, List.length_map] at hcount
    exact hcount
  have hfirst : (ws.zipIdx.map ((total * · / ws.sum) ∘ Prod.fst)).sum =
      (ws.map (total * · / ws.sum)).sum := by
    rw [← List.map_map, List.zipIdx_map_fst]
  have hsplit : (shares total ws).sum = (ws.map (total * · / ws.sum)).sum + leftover total ws := by
    rw [← hfirst, ← hextra, ← List.sum_map_add]
    rfl
  rw [hsplit, leftover]
  omega

theorem getD_remainders (hw : ws[i]? = some w) :
    (remainders total ws).getD i 0 = total * w % ws.sum := by
  rw [List.getD_eq_getElem?_getD, remainders, List.getElem?_map, hw]
  rfl

theorem share_eq (h : 0 < ws.sum) (hw : ws[i]? = some w) (hs : (shares total ws)[i]? = some s) :
    s = total * w / ws.sum ∨
      0 < total * w % ws.sum ∧ s = total * w / ws.sum + 1 := by
  rw [getElem?_shares, hw, Option.map_some, Option.some.injEq] at hs
  by_cases hi : i ∈ largest (leftover total ws) (remainders total ws)
  · have hpos := pos_of_mem_largest (remainder_lt total h) sum_remainders hi
    rw [getD_remainders hw] at hpos
    rw [if_pos hi] at hs
    exact .inr ⟨hpos, hs.symm⟩
  · rw [if_neg hi] at hs
    exact .inl hs.symm

theorem share_rank (hw : ws[i]? = some w) (hw' : ws[j]? = some w')
    (hs : (shares total ws)[i]? = some (total * w / ws.sum))
    (hs' : (shares total ws)[j]? = some (total * w' / ws.sum + 1)) :
    total * w % ws.sum < total * w' % ws.sum ∨
      total * w % ws.sum = total * w' % ws.sum ∧ j < i := by
  rw [getElem?_shares, hw, Option.map_some, Option.some.injEq] at hs
  rw [getElem?_shares, hw', Option.map_some, Option.some.injEq] at hs'
  have hi : i ∉ largest (leftover total ws) (remainders total ws) := by
    intro hi
    rw [if_pos hi] at hs
    omega
  have hj : j ∈ largest (leftover total ws) (remainders total ws) := by
    by_contra hj
    rw [if_neg hj] at hs'
    omega
  have hlen : i < (remainders total ws).length := by
    rw [remainders, List.length_map]
    exact (List.getElem?_eq_some_iff.mp hw).1
  have hnot : ¬ Before (remainders total ws) i j :=
    fun h => hi (mem_largest_of_before hj h hlen)
  rw [Before, getD_remainders hw, getD_remainders hw'] at hnot
  omega

/-- More weight never gets less. -/
theorem share_mono (h : 0 < ws.sum) (hw : ws[i]? = some w) (hw' : ws[j]? = some w')
    (hs : (shares total ws)[i]? = some s) (hs' : (shares total ws)[j]? = some s') (hlt : w < w') :
    s ≤ s' := by
  have hdiv : total * w / ws.sum ≤ total * w' / ws.sum :=
    Nat.div_le_div_right (Nat.mul_le_mul_left _ hlt.le)
  rw [getElem?_shares, hw, Option.map_some, Option.some.injEq] at hs
  rw [getElem?_shares, hw', Option.map_some, Option.some.injEq] at hs'
  have hpass : total * w / ws.sum = total * w' / ws.sum →
      i ∈ largest (leftover total ws) (remainders total ws) →
        j ∈ largest (leftover total ws) (remainders total ws) := by
    intro heq hi
    have hj : j < (remainders total ws).length := by
      rw [remainders, List.length_map]
      exact (List.getElem?_eq_some_iff.mp hw').1
    have hpos := pos_of_mem_largest (remainder_lt total h) sum_remainders hi
    have hmod := Nat.div_add_mod (total * w) ws.sum
    have hmod' := Nat.div_add_mod (total * w') ws.sum
    apply mem_largest_of_before hi _ hj
    left
    rw [getD_remainders hw] at hpos ⊢
    rw [getD_remainders hw']
    rw [← heq] at hmod'
    have hprod : total * w < total * w' := by
      apply Nat.mul_lt_mul_of_pos_left hlt
      apply Nat.pos_of_ne_zero
      rintro rfl
      rw [Nat.zero_mul, Nat.zero_mod] at hpos
      exact absurd hpos (Nat.lt_irrefl 0)
    omega
  by_cases hi : i ∈ largest (leftover total ws) (remainders total ws)
  · by_cases heq : total * w / ws.sum = total * w' / ws.sum
    · rw [if_pos hi] at hs
      rw [if_pos (hpass heq hi)] at hs'
      omega
    · rw [if_pos hi] at hs
      omega
  · rw [if_neg hi] at hs
    omega

end Apportionment
