import Midwimble.Filter.Golomb

namespace Midwimble
set_option autoImplicit true

theorem mem_destutter'_ne {a x : Nat} {l : List Nat} :
    x ∈ l.destutter' (· ≠ ·) a ↔ x = a ∨ x ∈ l := by
  induction l generalizing a with
  | nil => simp
  | cons b l ih =>
    rw [List.destutter'_cons]
    by_cases hab : a ≠ b
    · rw [if_pos hab, List.mem_cons, ih, List.mem_cons]
    · obtain rfl := not_not.mp hab
      rw [if_neg hab, ih, List.mem_cons]
      exact ⟨fun h => h.imp_right .inr, fun h => h.elim .inl id⟩

theorem mem_destutter_ne {x : Nat} {l : List Nat} : x ∈ l.destutter (· ≠ ·) ↔ x ∈ l := by
  cases l with
  | nil => rfl
  | cons a l => rw [List.destutter_cons', mem_destutter'_ne, List.mem_cons]

theorem filterModulus_eq_zero : filterModulus n = 0 ↔ 2 ^ 58 ∣ n := by
  have hsplit : n * fprInverse = n * 15625 * 2 ^ 6 := by rw [Nat.mul_assoc]; rfl
  have hcoprime : Nat.Coprime (2 ^ 58) 15625 := Nat.Coprime.pow_left 58 (by decide)
  rw [filterModulus, ← Nat.dvd_iff_mod_eq_zero, hsplit, show 2 ^ 64 = 2 ^ 58 * 2 ^ 6 from rfl,
    Nat.mul_dvd_mul_iff_right (Nat.two_pow_pos 6), hcoprime.dvd_mul_right]

theorem filterModulus_lt (n : Nat) : filterModulus n < 2 ^ 64 := Nat.mod_lt _ (by decide)

variable [Primitives]

theorem matchAny_returns_iff :
    (∃ b, matchAny data blockHash n items = some b) ↔
      data = [] ∨ n = 0 ∨ items = [] ∨ ¬ 2 ^ 58 ∣ n := by
  rw [← filterModulus_eq_zero, ← or_assoc, ← or_assoc, or_assoc (a := data = [])]
  unfold matchAny
  by_cases hskip : data.isEmpty ∨ n = 0 ∨ items.isEmpty
  · rw [if_pos hskip]
    simp only [List.isEmpty_iff] at hskip
    simp [hskip]
  · rw [if_neg hskip]
    simp only [List.isEmpty_iff] at hskip
    by_cases hm : filterModulus n = 0
    · simp [hm, hskip]
    · simp [hm]

omit [Primitives] in
theorem matchValues_encodeValues {hashes queries : List Nat} (hs : hashes.Pairwise (· ≤ ·))
    (hlt : ∀ x ∈ hashes, x < 2 ^ 64) :
    matchValues hashes.length 0 ((queries.insertionSort (· ≤ ·)).destutter (· ≠ ·))
        (.new (encodeValues hashes)) = decide (∃ q ∈ queries, q ∈ hashes) := by
  obtain ⟨padding, hp⟩ := ofBytes_encodeValues hashes
  have hreads := BitReader.reads_new (encodeValues hashes)
  rw [hp] at hreads
  have hsorted : ((queries.insertionSort (· ≤ ·)).destutter (· ≠ ·)).Pairwise (· ≤ ·) :=
    (List.pairwise_insertionSort _ _).sublist (List.destutter_sublist _ _)
  rw [Bool.eq_iff_iff, decide_eq_true_iff, matchValues_deltas hreads
    (List.pairwise_cons.mpr ⟨fun y _ => Nat.zero_le y, hs⟩) hlt hsorted]
  simp only [mem_destutter_ne, List.mem_insertionSort]
  exact exists_congr fun x => and_comm

/-- A built filter matches exactly the queries that hash like one of its items. -/
theorem matchAny_buildFilter {items : Finset Bytes32} (hn : items.card < 2 ^ 64)
    (hb : buildFilter blockHash items = some data) (queries : List Bytes32) :
    matchAny data blockHash items.card queries =
      some (decide (∃ q ∈ queries, ∃ item ∈ items,
        keyedHash blockHash q % filterModulus items.card =
          keyedHash blockHash item % filterModulus items.card)) := by
  unfold buildFilter at hb
  rw [Nat.mod_eq_of_lt hn] at hb
  by_cases hzero : items.card = 0
  · obtain rfl := Finset.card_eq_zero.mp hzero
    simp [matchAny]
  rw [if_neg hzero] at hb
  by_cases hm : filterModulus items.card = 0
  · simp [hm] at hb
  rw [if_neg hm, Option.some.injEq] at hb
  generalize hl : (items.val.map fun item =>
    keyedHash blockHash item % filterModulus items.card).sort (· ≤ ·) = hashes at hb
  have hlen : hashes.length = items.card := by
    rw [← hl, Multiset.length_sort, Multiset.card_map]
    rfl
  have hmem : ∀ x, x ∈ hashes ↔ ∃ item ∈ items,
      keyedHash blockHash item % filterModulus items.card = x := by
    intro x
    rw [← hl, Multiset.mem_sort, Multiset.mem_map]
    rfl
  have hs : hashes.Pairwise (· ≤ ·) := by
    rw [← hl]
    exact Multiset.pairwise_sort _ _
  have hlt : ∀ x ∈ hashes, x < 2 ^ 64 := by
    intro x hx
    obtain ⟨item, -, rfl⟩ := (hmem x).mp hx
    exact (Nat.mod_lt _ (Nat.pos_of_ne_zero hm)).trans (filterModulus_lt _)
  have hdata : data.isEmpty = false := by
    cases hashes with
    | nil => exact absurd hlen.symm hzero
    | cons x hashes => simp [← hb, encodeValues_ne_nil]
  unfold matchAny
  by_cases hq : queries = []
  · simp [hq]
  · rw [if_neg (by simp [hdata, hzero, hq, List.isEmpty_iff]), if_neg hm, Option.some.injEq, ← hb,
      ← hlen, matchValues_encodeValues hs hlt]
    rw [decide_eq_decide]
    simp only [List.mem_map, exists_exists_and_eq_and, hmem, hlen]
    apply exists_congr
    intro q
    apply and_congr_right
    intro _
    exact exists_congr fun item => and_congr_right fun _ => eq_comm

omit [Primitives] in
/-- A count whose product with the false positive rate wraps to zero ends the matching. -/
theorem match_any_divides_by_zero : letI := Primitives.words
    matchAny [0] 0 (2 ^ 58) [0] = none := by
  letI := Primitives.words
  decide +kernel

/-- Filters match exactly, decoding inverts encoding, and `match_any` returns on every filter,
key, count and list of items but those whose count's modulus wraps to zero. -/
theorem filter_exact_and_returns_iff :
    (∀ (blockHash : Bytes32) (items : Finset Bytes32) (data : Bytes) (queries : List Bytes32),
      items.card < 2 ^ 64 → buildFilter blockHash items = some data →
      matchAny data blockHash items.card queries =
        some (decide (∃ q ∈ queries, ∃ item ∈ items,
          keyedHash blockHash q % filterModulus items.card =
            keyedHash blockHash item % filterModulus items.card))) ∧
    (∀ hashes : List Nat, hashes.Pairwise (· ≤ ·) → (∀ x ∈ hashes, x < 2 ^ 64) →
      decodeFilter (encodeValues hashes) hashes.length = hashes) ∧
    (∀ (data : Bytes) (blockHash : Bytes32) (n : Nat) (items : List Bytes32),
      (∃ b, matchAny data blockHash n items = some b) ↔
        data = [] ∨ n = 0 ∨ items = [] ∨ ¬ 2 ^ 58 ∣ n) :=
  ⟨fun _ _ _ queries hn hb => matchAny_buildFilter hn hb queries,
    fun _ hs hlt => decodeFilter_encodeValues hs hlt, fun _ _ _ _ => matchAny_returns_iff⟩

end Midwimble
