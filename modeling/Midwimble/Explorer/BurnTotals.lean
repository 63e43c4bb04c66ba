import Midwimble.Explorer.BurnRuns

namespace Midwimble
open OrderedMap Database
set_option autoImplicit true

namespace Burn

/-- What a row's block withheld of what it was offered, if that is known. -/
def Row.withheld (row : Row) (offered : Nat) : Nat :=
  if row.minted = unknown then 0 else offered - row.minted

variable {s : Sums} {rows : List Row} {start tipTimestamp : Nat} {scheduled : Nat → Nat} {p : Fin 3}

theorem Tally.withheld_add (t : Tally) (row : Row) (offered : Nat) (signed : Bool) :
    (t.add offered row.minted signed).withheld = t.withheld + row.withheld offered := by
  rw [Tally.add, Row.withheld]
  simp only
  split
  · rfl
  · rfl

/-- What a row adds to a period's withheld total. -/
def Row.share (tipTimestamp : Nat) (p : Fin 3) (row : Row) (offered : Nat) : Nat :=
  if within tipTimestamp row.timestamp p then row.withheld offered else 0

theorem withheld_addWithin (tallies : Fin 3 → Tally) (row : Row) (offered : Nat) (signed : Bool) :
    (addWithin tipTimestamp offered signed row tallies p).withheld =
      (tallies p).withheld + row.share tipTimestamp p offered := by
  rw [addWithin, Row.share]
  split
  · exact Tally.withheld_add _ row offered signed
  · rfl

theorem Sums.network_add (row : Row) (height : Nat) :
    ((s.add tipTimestamp scheduled row height).network p).withheld =
      (s.network p).withheld + row.share tipTimestamp p (scheduled height) := by
  apply withheld_addWithin

theorem Sums.bondsWithheld_add {row : Row} {height : Nat}
    (h : row.signer = unsigned → row.withheld (scheduled height) = 0) :
    (s.add tipTimestamp scheduled row height).bondsWithheld p =
      s.bondsWithheld p + row.share tipTimestamp p (scheduled height) := by
  rw [bondsWithheld, bondsWithheld, Sums.add]
  by_cases hsigner : row.signer = unsigned
  · have hnone : row.share tipTimestamp p (scheduled height) = 0 := by
      rw [Row.share, h hsigner, ite_self]
    simp [hsigner, hnone]
  · have hbond : (((s.bonds[row.signer]?.getD BondTally.zero).add tipTimestamp
        (scheduled height) height row).periods p).withheld =
          ((s.bonds[row.signer]?.getD BondTally.zero).periods p).withheld +
            row.share tipTimestamp p (scheduled height) := by
      apply withheld_addWithin
    have hinsert := valueSum_insert_getD (t := s.bonds) (k := row.signer) (d := BondTally.zero)
      (f := fun b => (b.periods p).withheld) (v := (s.bonds[row.signer]?.getD BondTally.zero).add
        tipTimestamp (scheduled height) height row) rfl
    simp only [ne_eq, hsigner, not_false_eq_true, decide_true, if_true] at hinsert ⊢
    omega

theorem network_sum : ((sum rows start tipTimestamp scheduled).network p).withheld =
    ((rows.zipIdx.filter fun e => e.1.counted).map
      fun e => e.1.share tipTimestamp p (scheduled (start + e.2))).sum := by
  have hfold : ∀ (l : List (Row × Nat)) (s : Sums),
      ((l.foldl (fun s e => s.add tipTimestamp scheduled e.1 (start + e.2)) s).network p).withheld =
        (s.network p).withheld +
          (l.map fun e => e.1.share tipTimestamp p (scheduled (start + e.2))).sum := by
    intro l s
    induction l generalizing s with
    | nil => rfl
    | cons e l ih =>
      rw [List.foldl_cons, ih, Sums.network_add, List.map_cons, List.sum_cons, Nat.add_assoc]
  rw [Burn.sum, hfold]
  exact Nat.zero_add _

theorem bondsWithheld_sum (h : ∀ e ∈ rows.zipIdx, e.1.signer = unsigned →
    e.1.withheld (scheduled (start + e.2)) = 0) :
    (sum rows start tipTimestamp scheduled).bondsWithheld p =
      ((sum rows start tipTimestamp scheduled).network p).withheld := by
  have hfold : ∀ (l : List (Row × Nat)) (s : Sums), (∀ e ∈ l, e.1.signer = unsigned →
      e.1.withheld (scheduled (start + e.2)) = 0) →
      s.bondsWithheld p = (s.network p).withheld →
      (l.foldl (fun s e => s.add tipTimestamp scheduled e.1 (start + e.2)) s).bondsWithheld p =
        ((l.foldl (fun s e => s.add tipTimestamp scheduled e.1 (start + e.2)) s).network
          p).withheld := by
    intro l s hl hs
    induction l generalizing s with
    | nil => exact hs
    | cons e l ih =>
      obtain ⟨hfirst, hrest⟩ := List.forall_mem_cons.mp hl
      apply ih _ hrest
      rw [Sums.bondsWithheld_add hfirst, Sums.network_add, hs]
  apply hfold
  · intro e he
    exact h e (List.mem_of_mem_filter he)
  · exact valueSum_empty _

/-- What the row at a height withheld, if one is there and counts. -/
def withheldAt (rows : List Row) (start : Nat) (scheduled : Nat → Nat) (height : Nat) : Nat :=
  if start ≤ height then
    (rows[height - start]?.filter Row.counted).elim 0 fun row => row.withheld (scheduled height)
  else 0

theorem sum_zipIdx (F : Row → Nat → Nat) :
    ((rows.zipIdx.filter fun e => e.1.counted).map fun e => F e.1 e.2).sum =
      ((List.range rows.length).map fun i =>
        (rows[i]?.filter Row.counted).elim 0 fun row => F row i).sum := by
  induction rows using List.reverseRecOn with
  | nil => rfl
  | append_singleton rows row ih =>
    have hbelow : ∀ i ∈ List.range rows.length,
        ((rows ++ [row])[i]?.filter Row.counted).elim 0 (fun row => F row i) =
          (rows[i]?.filter Row.counted).elim 0 fun row => F row i := by
      intro i hi
      rw [List.getElem?_append_left (List.mem_range.mp hi)]
    rw [List.zipIdx_append, List.filter_append, List.map_append, List.sum_append, ih,
      List.length_append, List.length_singleton, List.range_succ, List.map_append,
      List.sum_append, List.map_congr_left hbelow, List.map_singleton, List.sum_singleton,
      List.getElem?_concat_length]
    congr 1
    simp only [List.zipIdx_singleton, Nat.zero_add, Option.filter_some]
    cases hcounted : row.counted with
    | true => simp [hcounted]
    | false => simp [hcounted]

theorem network_withheld : ((sum rows start tipTimestamp scheduled).network 0).withheld =
    ((List.range (start + rows.length)).map (withheldAt rows start scheduled)).sum := by
  have hall : ∀ (row : Row) (offered : Nat),
      row.share tipTimestamp 0 offered = row.withheld offered := by
    intro row offered
    have hperiod : periods 0 = u64Max := rfl
    rw [Row.share, within, decide_eq_true hperiod, Bool.true_or, if_pos rfl]
  have hbelow : ∀ h ∈ List.range start, withheldAt rows start scheduled h = 0 := by
    intro h hh
    rw [withheldAt, if_neg (Nat.not_le_of_lt (List.mem_range.mp hh))]
  have habove : ∀ i ∈ List.range rows.length,
      (withheldAt rows start scheduled ∘ fun i => start + i) i =
        (rows[i]?.filter Row.counted).elim 0 fun row => row.withheld (scheduled (start + i)) := by
    intro i _
    rw [Function.comp, withheldAt, if_pos (Nat.le_add_right _ _), Nat.add_sub_cancel_left]
  simp only [network_sum, hall]
  rw [sum_zipIdx (fun row i => row.withheld (scheduled (start + i))), List.range_add,
    List.map_append, List.sum_append, List.map_map, List.map_congr_left hbelow,
    List.map_congr_left habove]
  simp

end Burn

variable {db : Database} {chain : List Batch} {low base : Nat} {b : BurnIndex}

/-- Every block of the chain stamped at or after the switch has a row, which knows what it
minted. -/
def BurnIndex.Covers (b : BurnIndex) (chain : List Batch) : Prop :=
  ∀ (n : Nat) batch, chain[n]? = some batch → launchEarlyBondsUntil ≤ batch.timestamp →
    ∃ row : Burn.Row, b.start ≤ n ∧ b.rows[n - b.start]? = some row ∧ row.minted ≠ Burn.unknown

namespace BurnIndex.Exact

theorem record {row : Burn.Row} (h : b.Exact db tip) (hrow : b.rows[i]? = some row) :
    ∃ r, db.record (b.start + i) = some r ∧ row.Shows b.ids r := by
  obtain ⟨hi, rfl⟩ := List.getElem?_eq_some_iff.mp hrow
  have hi' : i < (db.storedRecords b.start tip).length := by
    rw [h.rows.length_eq]
    exact hi
  have hr := List.getElem?_eq_getElem hi'
  have hshows := h.rows.get hi' hi
  have hat := congrArg (fun l => l[i]?) h.heights
  simp only [List.getElem?_map, hr, Option.map_some, List.getElem?_range' hi,
    Option.some.injEq, Nat.one_mul] at hat
  obtain ⟨k, -, hk⟩ := List.mem_filterMap.mp (List.mem_of_getElem? hr)
  rw [← hat, record_height hk]
  exact ⟨_, hk, hshows⟩

variable [Primitives]

theorem block {row : Burn.Row} (h : b.Exact db tip) (hm : Mirrors db chain low base)
    (hrow : b.rows[i]? = some row) :
    ∃ batch, chain[b.start + i]? = some batch ∧ row.timestamp = batch.timestamp ∧
      (row.signer = Burn.unsigned → batch.signer = none) ∧
        (row.minted ≠ Burn.unknown → Mints chain (b.start + i) row.minted) := by
  obtain ⟨r, hr, hshows⟩ := h.record hrow
  obtain ⟨hlow, hlt⟩ := hm.record_isSome.mp (Option.isSome_iff_exists.mpr ⟨r, hr⟩)
  have hat : chain[b.start + i]? = some chain[b.start + i] := List.getElem?_eq_getElem hlt
  obtain ⟨q, hq, -, -, htime, hsigner, hminted⟩ := hm.record_eq_some hlow hat
  obtain rfl := Option.some.inj (hr.symm.trans hq)
  refine ⟨_, hat, hshows.timestamp.trans htime, ?_, ?_⟩
  · intro hunsigned
    rw [← hsigner]
    cases hid : r.signer with
    | none => rfl
    | some id => exact absurd hunsigned (hshows.signed id hid).1
  · intro hknown
    have hrecorded := hshows.minted
    cases hx : r.minted with
    | none =>
      rw [hx] at hrecorded
      exact absurd hrecorded hknown
    | some x =>
      rw [hx] at hrecorded
      rw [hrecorded]
      exact ((hminted x).mp hx).2

theorem unsigned_withheld (h : b.Exact db tip) (hm : Mirrors db chain low base)
    (hbuilt : Built chain s) (he : e ∈ b.rows.zipIdx)
    (hunsigned : e.1.signer = Burn.unsigned) :
    e.1.withheld (blockReward (b.start + e.2)) = 0 := by
  have hrow : b.rows[e.2]? = some e.1 := List.mem_zipIdx_iff_getElem?.mp he
  obtain ⟨batch, hbatch, -, hsigner, hminted⟩ := h.block hm hrow
  obtain ⟨x, hx, -, huntapered⟩ := hbuilt.mints hbatch
  have hall := huntapered (.inl (hsigner hunsigned))
  rw [Burn.Row.withheld]
  split
  · rfl
  · rename_i hknown
    rw [← hx.unique (hminted hknown), hall, Nat.sub_self]

/-- A block withheld what it did not mint of its reward, and a row tells it. -/
theorem mints_add_withheld (h : b.Exact db tip) (hm : Mirrors db chain low base)
    (hbuilt : Built chain s) (hcovers : b.Covers chain) (hn : n < chain.length) :
    ∃ x, Mints chain n x ∧ x + Burn.withheldAt b.rows b.start blockReward n = blockReward n := by
  have hat : chain[n]? = some chain[n] := List.getElem?_eq_getElem hn
  obtain ⟨x, hx, hle, huntapered⟩ := hbuilt.mints hat
  refine ⟨x, hx, ?_⟩
  by_cases hswitch : launchEarlyBondsUntil ≤ chain[n].timestamp
  · obtain ⟨row, hstart, hrow, hknown⟩ := hcovers n _ hat hswitch
    obtain ⟨batch, hbatch, htime, -, hminted⟩ := h.block hm hrow
    rw [Nat.add_sub_cancel' hstart] at hbatch hminted
    obtain rfl := Option.some.inj (hat.symm.trans hbatch)
    have hsame := hx.unique (hminted hknown)
    have hcounted : row.counted = true := by
      rw [Burn.Row.counted, htime]
      exact decide_eq_true hswitch
    have hwithheld : Burn.withheldAt b.rows b.start blockReward n = blockReward n - x := by
      rw [Burn.withheldAt, if_pos hstart, hrow, Option.filter_some, hcounted, if_pos rfl,
        Option.elim_some, Burn.Row.withheld, if_neg hknown, hsame]
    omega
  · have hnone : Burn.withheldAt b.rows b.start blockReward n = 0 := by
      rw [Burn.withheldAt]
      split
      · rename_i hstart
        cases hrow : b.rows[n - b.start]? with
        | none => rfl
        | some row =>
          obtain ⟨batch, hbatch, htime, -⟩ := h.block hm hrow
          rw [Nat.add_sub_cancel' hstart] at hbatch
          obtain rfl := Option.some.inj (hat.symm.trans hbatch)
          have hcounted : row.counted = false := by
            rw [Burn.Row.counted, htime]
            exact decide_eq_false hswitch
          rw [Option.filter_some, hcounted]
          rfl
      · rfl
    rw [hnone, huntapered (.inr (Nat.lt_of_not_le hswitch))]
    rfl

theorem end_eq (h : b.Exact db chain.length) (hm : Mirrors db chain low base)
    (hrows : b.rows ≠ []) : b.start + b.rows.length = chain.length := by
  have hpos := List.length_pos_of_ne_nil hrows
  obtain ⟨r, hr, -⟩ := h.record (List.getElem?_eq_getElem hpos)
  obtain ⟨hlow, hlt⟩ := hm.record_isSome.mp (Option.isSome_iff_exists.mpr ⟨r, hr⟩)
  have hlen : (db.storedRecords b.start chain.length).length = chain.length - b.start := by
    apply length_storedRecords
    intro k hk hk'
    rw [hm.record_isSome]
    omega
  rw [h.rows.length_eq] at hlen
  omega

theorem sum_withheldAt (h : b.Exact db chain.length) (hm : Mirrors db chain low base) :
    ((List.range (b.start + b.rows.length)).map
        (Burn.withheldAt b.rows b.start blockReward)).sum =
      ((List.range chain.length).map (Burn.withheldAt b.rows b.start blockReward)).sum := by
  by_cases hrows : b.rows = []
  · have hnone : ∀ n, Burn.withheldAt b.rows b.start blockReward n = 0 := by
      intro n
      rw [Burn.withheldAt, hrows]
      split
      · rfl
      · rfl
    have hzero : ∀ m, ((List.range m).map
        (Burn.withheldAt b.rows b.start blockReward)).sum = 0 := by
      intro m
      rw [List.sum_eq_zero_iff_forall_eq_nat]
      intro x hx
      obtain ⟨n, -, rfl⟩ := List.mem_map.mp hx
      exact hnone n
    rw [hzero, hzero]
  · rw [h.end_eq hm hrows]

/-- What the rows withheld is what the chain's supply lacks of the schedule, and the bonds
withheld all of it. -/
theorem accounts (h : b.Exact db s.height) (hm : Mirrors db chain low base)
    (hbuilt : Built chain s) (hheight : s.height < 2 ^ 64) (hcovers : b.Covers chain)
    (tipTimestamp : Nat) :
    s.supply + ((Burn.sum b.rows b.start tipTimestamp blockReward).network 0).withheld =
        issuedBefore s.height ∧
      ∀ p, (Burn.sum b.rows b.start tipTimestamp blockReward).bondsWithheld p =
        ((Burn.sum b.rows b.start tipTimestamp blockReward).network p).withheld := by
  constructor
  · rw [hbuilt.height] at h hheight ⊢
    have hsupply : ((List.range chain.length).map fun n =>
        blockReward n - Burn.withheldAt b.rows b.start blockReward n).sum = s.supply := by
      apply hbuilt.sum_mints
      intro n x hx
      obtain ⟨y, hy, hsum⟩ := h.mints_add_withheld hm hbuilt hcovers
        hx.choose_spec.choose_spec.2.2.1
      obtain rfl := hx.unique hy
      omega
    have hsplit : ∀ n ∈ List.range chain.length, blockReward n =
        (blockReward n - Burn.withheldAt b.rows b.start blockReward n) +
          Burn.withheldAt b.rows b.start blockReward n := by
      intro n hn
      obtain ⟨x, -, hsum⟩ := h.mints_add_withheld hm hbuilt hcovers (List.mem_range.mp hn)
      omega
    have hissued : ((List.range chain.length).map blockReward).sum =
        issuedBefore chain.length := emission_fits.sum_blockReward hheight
    rw [List.map_congr_left hsplit, List.sum_map_add, hsupply, ← h.sum_withheldAt hm] at hissued
    rw [Burn.network_withheld, hissued]
  · intro p
    apply Burn.bondsWithheld_sum
    intro e he hunsigned
    exact h.unsigned_withheld hm hbuilt he hunsigned

end BurnIndex.Exact

end Midwimble
