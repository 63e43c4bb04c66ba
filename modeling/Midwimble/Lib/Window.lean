import Mathlib.Data.List.Count
import Mathlib.Data.List.DropRight
import Mathlib.Order.Lattice
import Std.Data.ExtTreeMap.Lemmas

namespace SlidingWindow
set_option autoImplicit true

/-- The last `n` elements of a list. -/
def lastN (n : Nat) (l : List α) : List α := l.drop (l.length - n)

theorem length_lastN : (lastN n l).length = min n l.length := by
  rw [lastN, List.length_drop]
  omega

theorem lastN_of_length_le (h : l.length ≤ n) : lastN n l = l := by
  rw [lastN, Nat.sub_eq_zero_of_le h, List.drop_zero]

theorem lastN_cons_of_lt (h : n < (x :: l).length) : lastN n (x :: l) = lastN n l := by
  have hs : (x :: l).length - n = (l.length - n) + 1 := by
    rw [List.length_cons] at h ⊢
    omega
  rw [lastN, hs, List.drop_succ_cons, lastN]

theorem lastN_min : lastN (min l.length n) l = lastN n l := by
  rw [lastN, lastN]
  congr 1
  omega

theorem map_lastN (f : α → β) : (lastN n l).map f = lastN n (l.map f) := by
  rw [lastN, lastN, List.map_drop, List.length_map]

theorem lastN_suffix : lastN n l <:+ l := List.drop_suffix _ _

theorem lastN_lastN (h : m ≤ n) : lastN m (lastN n l) = lastN m l := by
  have hk : l.length - m = l.length - n + ((lastN n l).length - m) := by
    rw [length_lastN]
    omega
  rw [lastN, lastN, lastN, List.drop_drop, hk]
  rfl

theorem lastN_lastN_append : lastN n (lastN n l ++ [x]) = lastN n (l ++ [x]) := by
  obtain ⟨pre, hpre⟩ := lastN_suffix (n := n) (l := l)
  have hlen := length_lastN (n := n) (l := l)
  have htotal := congrArg List.length hpre
  rw [List.length_append] at htotal
  have hsplit : l ++ [x] = pre ++ (lastN n l ++ [x]) := by
    rw [← List.append_assoc, hpre]
  rw [hsplit]
  generalize lastN n l = w at hlen htotal
  have hk : (pre ++ (w ++ [x])).length - n = pre.length + ((w ++ [x]).length - n) := by
    simp only [List.length_append, List.length_singleton]
    omega
  rw [lastN, lastN, hk, ← List.drop_drop, List.drop_left]

theorem suffix_lastN (hs : w <:+ l) (hl : w.length ≤ n) : w <:+ lastN n l :=
  List.suffix_of_suffix_length_le hs lastN_suffix (by
    rw [length_lastN]
    exact Nat.le_min.mpr ⟨hl, hs.length_le⟩)

section Tally

variable [Ord α] [Std.TransOrd α] [DecidableEq α]
  {counts counts' : Std.ExtTreeMap α Nat} {l : List (Option α)} {a : α}

/-- The map holds how often each key occurs in the list, and no key that does not. -/
def Tally (counts : Std.ExtTreeMap α Nat) (l : List (Option α)) : Prop :=
  ∀ a, counts[a]? = if l.count (some a) = 0 then none else some (l.count (some a))

theorem Tally.getD (h : Tally counts l) : counts[a]?.getD 0 = l.count (some a) := by
  rw [h a]
  split
  · rename_i h0
    rw [Option.getD_none, h0]
  · rfl

theorem tally_empty : Tally (∅ : Std.ExtTreeMap α Nat) [] := by
  intro a
  simp

theorem Tally.skip (h : Tally counts l) : Tally counts (l ++ [none]) := by
  intro a
  rw [h a, List.count_append]
  simp

theorem Tally.drop_none (h : Tally counts (none :: l)) : Tally counts l := by
  intro a
  rw [h a, List.count_cons_of_ne (by simp)]

theorem Tally.get_head (h : Tally counts (some a :: l)) :
    counts[a]? = some (l.count (some a) + 1) := by
  rw [h a, List.count_cons_self, if_neg (Nat.succ_ne_zero _)]

variable [Std.LawfulEqOrd α]

theorem Tally.add (h : Tally counts l) :
    Tally (counts.insert a (counts[a]?.getD 0 + 1)) (l ++ [some a]) := by
  intro b
  rw [Std.ExtTreeMap.getElem?_insert, h.getD, List.count_append, List.count_singleton]
  by_cases hab : a = b
  · subst hab
    simp
  · simp [hab, h b]

theorem Tally.drop_many (h : Tally counts (some a :: l)) (hc : l.count (some a) ≠ 0) :
    Tally (counts.insert a (l.count (some a))) l := by
  intro b
  rw [Std.ExtTreeMap.getElem?_insert]
  by_cases hab : a = b
  · subst hab
    simp [hc]
  · simp [hab, h b]

theorem Tally.drop_last (h : Tally counts (some a :: l)) (hc : l.count (some a) = 0) :
    Tally (counts.erase a) l := by
  intro b
  rw [Std.ExtTreeMap.getElem?_erase]
  by_cases hab : a = b
  · subst hab
    simp [hc]
  · simp [hab, h b]

theorem Tally.unique (h : Tally counts l) (h' : Tally counts' l) : counts = counts' := by
  apply Std.ExtTreeMap.ext_getElem?
  intro a
  rw [h a, h' a]

end Tally

section LowPoints

variable {β : Type} [LinearOrder β] {key : α → Nat} {val : α → β}

/-- The elements no later one undercuts, in order. -/
def lowPoints (val : α → β) : List α → List α
  | [] => []
  | x :: xs => if xs.all (val x < val ·) then x :: lowPoints val xs else lowPoints val xs

theorem lowPoints_sublist : (lowPoints val l).Sublist l := by
  induction l with
  | nil => exact List.Sublist.refl _
  | cons x xs ih =>
    simp only [lowPoints]
    split
    · exact ih.cons_cons x
    · exact ih.cons x

theorem lowPoints_rising : (lowPoints val l).Pairwise (val · < val ·) := by
  induction l with
  | nil => exact .nil
  | cons x xs ih =>
    simp only [lowPoints]
    split
    · rename_i hx
      refine ih.cons fun y hy => ?_
      simpa using List.all_eq_true.mp hx y (lowPoints_sublist.mem hy)
    · exact ih

theorem rdropWhile_rising {l : List α} (h : l.Pairwise (val · < val ·)) (b : β) :
    l.rdropWhile (b ≤ val ·) = l.filter (val · < b) := by
  induction l using List.reverseRecOn with
  | nil => rfl
  | append_singleton l x ih =>
    rw [List.pairwise_append] at h
    rw [List.filter_append]
    by_cases hx : b ≤ val x
    · rw [List.rdropWhile_concat_pos _ _ _ (by simpa using hx), ih h.1]
      simp [hx]
    · have hall : ∀ y ∈ l, val y < b := fun y hy =>
        (h.2.2 y hy x (List.mem_singleton_self x)).trans (not_le.mp hx)
      rw [List.rdropWhile_concat_neg _ _ _ (by simpa using hx),
        List.filter_eq_self.mpr (by simpa using hall)]
      simp [not_le.mp hx]

theorem lowPoints_append_filter :
    lowPoints val (l ++ [x]) = (lowPoints val l).filter (val · < val x) ++ [x] := by
  induction l with
  | nil => simp [lowPoints]
  | cons y l ih =>
    simp only [List.cons_append, lowPoints, List.all_append, List.all_cons, List.all_nil,
      Bool.and_true, ih]
    by_cases hl : l.all (val y < val ·) <;> by_cases hx : val y < val x <;>
      simp [hl, hx]

theorem lowPoints_append :
    lowPoints val (l ++ [x]) = (lowPoints val l).rdropWhile (val x ≤ val ·) ++ [x] := by
  rw [lowPoints_append_filter, rdropWhile_rising lowPoints_rising]

theorem lowPoints_split (l l' : List α) :
    ∃ kept, kept.Sublist l ∧ lowPoints val (l ++ l') = kept ++ lowPoints val l' := by
  induction l with
  | nil => exact ⟨[], List.Sublist.refl _, rfl⟩
  | cons x l ih =>
    obtain ⟨kept, hs, he⟩ := ih
    simp only [List.cons_append, lowPoints, he]
    split
    · exact ⟨x :: kept, hs.cons_cons x, rfl⟩
    · exact ⟨kept, hs.cons x, rfl⟩

theorem dropWhile_lowPoints (h : ∀ x ∈ l, key x < k) (h' : ∀ x ∈ l', k ≤ key x) :
    (lowPoints val (l ++ l')).dropWhile (key · < k) = lowPoints val l' := by
  obtain ⟨kept, hs, he⟩ : ∃ kept, kept.Sublist l ∧
      lowPoints val (l ++ l') = kept ++ lowPoints val l' := lowPoints_split l l'
  rw [he, List.dropWhile_append_of_pos fun x hx => by simpa using h x (hs.mem hx)]
  cases hl : lowPoints val l' with
  | nil => rfl
  | cons x xs =>
    have hx := h' x (lowPoints_sublist.mem (hl ▸ List.mem_cons_self))
    rw [List.dropWhile_cons_of_neg]
    simpa using hx

theorem lowPoints_eq_nil : lowPoints val l = [] ↔ l = [] := by
  constructor
  · intro h
    rcases List.eq_nil_or_concat' l with hl | ⟨front, x, rfl⟩
    · exact hl
    · rw [lowPoints_append_filter] at h
      exact absurd h (List.append_ne_nil_of_right_ne_nil _ (List.cons_ne_nil _ _))
  · rintro rfl
    rfl

theorem head_lowPoints_le (h : lowPoints val l = y :: ys) : ∀ z ∈ l, val y ≤ val z := by
  induction l generalizing y ys with
  | nil => exact fun z hz => absurd hz List.not_mem_nil
  | cons x xs ih =>
    intro z hz
    rw [lowPoints] at h
    split at h
    case isTrue hx =>
      obtain ⟨rfl, -⟩ := List.cons.inj h
      rcases List.mem_cons.mp hz with rfl | hz
      · exact le_rfl
      · exact (of_decide_eq_true (List.all_eq_true.mp hx z hz)).le
    case isFalse hx =>
      rcases List.mem_cons.mp hz with rfl | hz
      · obtain ⟨w, hw, hle⟩ : ∃ w ∈ xs, val w ≤ val z := by
          simpa using hx
        exact (ih h w hw).trans hle
      · exact ih h z hz

end LowPoints

end SlidingWindow
