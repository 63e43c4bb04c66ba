import Midwimble.Explorer.BurnRows

namespace Midwimble
open OrderedMap Database
set_option autoImplicit true

variable [Primitives] {db db' : Database} {chain others blocks : List Batch} {low base : Nat}

/-- The bonds that sign any of these blocks. -/
def signingBonds (blocks : List Batch) : Finset Bytes32 :=
  (blocks.filterMap Batch.signer).toFinset

theorem Mirrors.signingBonds {id : Bytes32} (h : Mirrors db chain low base)
    (hsub : chain ⊆ blocks) (hr : r ∈ db.storedRecords start stop) (hid : r.signer = some id) :
    id ∈ signingBonds blocks := by
  obtain ⟨k, -, hk⟩ := List.mem_filterMap.mp hr
  obtain ⟨hlow, hlt⟩ := h.record_isSome.mp (Option.isSome_iff_exists.mpr ⟨r, hk⟩)
  have hb : chain[k]? = some chain[k] := List.getElem?_eq_getElem hlt
  obtain ⟨r', hr', -, -, -, hsigner, -⟩ := h.record_eq_some hlow hb
  obtain rfl := Option.some.inj (hk.symm.trans hr')
  apply List.mem_toFinset.mpr
  apply List.mem_filterMap.mpr
  exact ⟨chain[k], hsub (List.getElem_mem hlt), hsigner ▸ hid⟩

/-- The stored records of a range follow each other from the first of them to its end, or to the
chain's. -/
theorem Mirrors.storedRecords_cons (h : Mirrors db chain low base)
    (hread : db.storedRecords start stop = first :: rest) :
    start ≤ first.height ∧ first.height + (rest.length + 1) ≤ stop ∧
      (start < first.height → start < low) ∧
        db.storedRecords first.height (first.height + (rest.length + 1)) = first :: rest := by
  obtain ⟨bottom, hfrom⟩ : ∃ k, k = max start low := ⟨_, rfl⟩
  obtain ⟨top, hto⟩ : ∃ k, k = min stop chain.length := ⟨_, rfl⟩
  have hcut : db.storedRecords start stop = db.storedRecords bottom top := by
    rcases Nat.lt_or_ge bottom top with hlt | hge
    · have hbelow : db.storedRecords start bottom = [] := by
        apply storedRecords_none
        intro k hk hk'
        exact h.record_eq_none (by omega)
      have habove : db.storedRecords top stop = [] := by
        apply storedRecords_none
        intro k hk hk'
        exact h.record_eq_none (by omega)
      rw [← storedRecords_append (show start ≤ bottom by omega) (show bottom ≤ stop by omega),
        ← storedRecords_append (show bottom ≤ top by omega) (show top ≤ stop by omega), hbelow,
        habove, List.append_nil, List.nil_append]
    · rw [storedRecords_empty hge]
      apply storedRecords_none
      intro k hk hk'
      exact h.record_eq_none (by omega)
  have hlt : bottom < top := by
    apply Nat.lt_of_not_le
    intro hge
    rw [hcut, storedRecords_empty hge] at hread
    cases hread
  obtain ⟨r, hr⟩ := Option.isSome_iff_exists.mp (h.record_isSome.mpr
    (show low ≤ bottom ∧ bottom < chain.length by omega))
  have hlen : (db.storedRecords bottom top).length = top - bottom := by
    apply length_storedRecords
    intro k hk hk'
    rw [h.record_isSome]
    omega
  have hfirst : first.height = bottom := by
    rw [hcut, Database.storedRecords_cons hr hlt, List.cons.injEq] at hread
    rw [← hread.1, record_height hr]
  rw [← hcut, hread, List.length_cons] at hlen
  have hend : bottom + (rest.length + 1) = top := by omega
  rw [hfirst, hend, ← hcut, hread]
  exact ⟨by omega, by omega, by omega, rfl⟩

namespace BurnIndex

variable {b : BurnIndex} {signers : Finset Bytes32}

/-- The rows and the hashes are those of a database's blocks at the tracker's heights. -/
def ReadFrom (b : BurnIndex) (db : Database) (signers : Finset Bytes32) : Prop :=
  b.Holds (db.storedRecords b.start b.end) signers

omit [Primitives] in
theorem end_le_of_nil (hrows : b.rows = []) : b.end ≤ b.start := by
  rw [BurnIndex.end, hrows]
  exact Nat.le_refl _

namespace ReadFrom

omit [Primitives] in
theorem stored (h : b.ReadFrom db signers) (hstart : b.start ≤ k) (hend : k < b.end) :
    (db.record k).isSome := by
  apply stored_of_length ?_ hstart hend
  rw [← h.length, BurnIndex.end, Nat.add_sub_cancel_left]

omit [Primitives] in
theorem of_nil (h : b.ReadFrom db signers) (hrows : b.rows = []) : b.ReadFrom db' signers := by
  rw [ReadFrom, storedRecords_empty (end_le_of_nil hrows)] at h ⊢
  exact h

omit [Primitives] in
theorem default : BurnIndex.default.ReadFrom db signers := by
  have hnone : db.storedRecords BurnIndex.default.start BurnIndex.default.end = [] :=
    storedRecords_empty (Nat.le_refl 0)
  rw [ReadFrom, hnone]
  exact holds_default

omit [Primitives] in
theorem restart (h : b.ReadFrom db signers) (hrows : b.rows = []) (start : Nat) :
    ({ b with start := start } : BurnIndex).ReadFrom db signers := by
  have hend : ({ b with start := start } : BurnIndex).end ≤ start := end_le_of_nil hrows
  rw [ReadFrom, storedRecords_empty (end_le_of_nil hrows)] at h
  rw [ReadFrom, storedRecords_empty hend]
  exact ⟨h.rows, h.hashes, ⟨h.indexed.nodup, h.indexed.mem, h.indexed.index⟩⟩

omit [Primitives] in
theorem hashes_nil (h : b.ReadFrom db signers) (hrows : b.rows = []) : b.hashes = [] := by
  rw [ReadFrom, storedRecords_empty (end_le_of_nil hrows)] at h
  exact List.suffix_nil.mp h.hashes

omit [Primitives] in
theorem last (h : b.ReadFrom db signers) (hrows : b.rows ≠ []) :
    ∃ r, b.end = b.end - 1 + 1 ∧ b.start ≤ b.end - 1 ∧ db.record (b.end - 1) = some r ∧
      db.storedRecords b.start b.end = db.storedRecords b.start (b.end - 1) ++ [r] := by
  have hpos : 0 < b.rows.length := List.length_pos_of_ne_nil hrows
  have hend : b.end = b.end - 1 + 1 := by
    rw [BurnIndex.end]
    omega
  have hle : b.start ≤ b.end - 1 := by
    rw [BurnIndex.end]
    omega
  obtain ⟨r, hr⟩ := Option.isSome_iff_exists.mp (h.stored hle (by omega))
  refine ⟨r, hend, hle, hr, ?_⟩
  rw [← storedRecords_concat hr hle, ← hend]

omit [Primitives] in
theorem newest (h : b.ReadFrom db signers) (hrows : b.rows ≠ []) (hknown : b.hashes ≠ []) :
    ∃ header, db.loadHeader (b.end - 1) = some header ∧
      b.hashes.getLast? = some header.extension.finalHash := by
  obtain ⟨r, -, -, hr, hsplit⟩ := h.last hrows
  obtain ⟨header, hload, rfl⟩ := Option.map_eq_some_iff.mp hr
  refine ⟨header, hload, ?_⟩
  have hlast := List.getLast?_eq_some_getLast hknown
  have hhash := suffix_getLast? h.hashes hlast
  rw [hsplit, List.map_append, List.map_singleton, List.getLast?_append, List.getLast?_singleton,
    Option.some_or] at hhash
  rw [hlast, ← hhash]
  rfl

omit [Primitives] in
theorem pop (h : b.ReadFrom db signers) (hrows : b.rows ≠ []) : b.pop.ReadFrom db signers := by
  obtain ⟨r, hend, -, -, hsplit⟩ := h.last hrows
  have hpop := Holds.pop h
  have hpos : 0 < b.rows.length := List.length_pos_of_ne_nil hrows
  have hstop : b.pop.end = b.end - 1 := by
    simp only [BurnIndex.end, BurnIndex.pop, List.length_dropLast]
    omega
  rw [hsplit, List.dropLast_concat] at hpop
  rw [ReadFrom, hstop]
  exact hpop

theorem relink (hids : Set.InjOn (fun b : Batch => b.extension.finalHash) {b | b ∈ blocks})
    (h : b.ReadFrom db signers) (hrows : b.rows ≠ []) (hm : Mirrors db chain low base)
    (hm' : Mirrors db' others low base) (hsub : chain ⊆ blocks) (hsub' : others ⊆ blocks)
    (hload : db'.loadHeader (b.end - 1) = some header)
    (hlast : b.hashes.getLast? = some header.extension.finalHash) : b.ReadFrom db' signers := by
  obtain ⟨r, hend, hle, hr, hsplit⟩ := h.last hrows
  have hhash := suffix_getLast? h.hashes hlast
  rw [hsplit, List.map_append, List.map_singleton, List.getLast?_append, List.getLast?_singleton,
    Option.some_or, Option.some.injEq] at hhash
  have hq : db'.record (b.end - 1) = some (db'.recordOf (b.end - 1) header) := by
    rw [Database.record, hload, Option.map_some]
  have hsame : db.storedRecords b.start b.end = db'.storedRecords b.start b.end := by
    apply storedRecords_congr
    intro k hk hk'
    exact hm.records_below hids hm' hsub hsub' hr hq hhash (by omega)
  rw [ReadFrom, ← hsame]
  exact h

theorem pushes (h : b.ReadFrom db signers) (hroom : signers.card < 2 ^ 32)
    (hm : Mirrors db chain low base) (hsub : chain ⊆ blocks)
    (hsigners : signers = signingBonds blocks)
    (hread : db.storedRecords b.end (b.end + (rest.length + 1)) = first :: rest) :
    ((first :: rest).foldl push b).ReadFrom db signers ∧
      ((first :: rest).foldl push b).hashes ≠ [] ∧
        ((first :: rest).foldl push b).end = b.end + (rest.length + 1) := by
  have hid : ∀ r ∈ first :: rest, ∀ id, r.signer = some id → id ∈ signers := by
    intro r hr id hid
    rw [← hread] at hr
    rw [hsigners]
    exact hm.signingBonds hsub hr hid
  obtain ⟨hall, hknown, hstart⟩ := Holds.pushes h hroom hid
  have hle : b.start ≤ b.end := Nat.le_add_right _ _
  rw [← hread, storedRecords_append hle (Nat.le_add_right _ _), hread] at hall
  have hlen : ((first :: rest).foldl push b).end = b.end + (rest.length + 1) := by
    have hrows := hall.length
    have hold := h.length
    rw [← storedRecords_append hle (Nat.le_add_right _ _), List.length_append, hread,
      ← hold, List.length_cons] at hrows
    rw [BurnIndex.end, hstart, hrows, BurnIndex.end]
    omega
  refine ⟨?_, hknown (List.cons_ne_nil _ _), hlen⟩
  rw [ReadFrom, hlen, hstart]
  exact hall

end ReadFrom

end BurnIndex

end Midwimble
