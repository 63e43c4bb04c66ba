import Midwimble.Core.Burn
import Midwimble.Storage.Commits

namespace Midwimble
open OrderedMap
set_option autoImplicit true

theorem filter_toList_range (t : Std.ExtTreeMap Nat ν) (start stop : Nat) :
    (t.toList.filter fun p => start ≤ p.1 ∧ p.1 < stop) =
      (List.range' start (stop - start)).filterMap fun k => t[k]?.map fun v => (k, v) := by
  have : Std.Irrefl fun a b : Nat × ν => a.1 < b.1 := ⟨fun a => Nat.lt_irrefl _⟩
  have : Std.Antisymm fun a b : Nat × ν => a.1 < b.1 :=
    ⟨fun a b h h' => absurd (Nat.lt_trans h h') (Nat.lt_irrefl _)⟩
  have hleft : (t.toList.filter fun p => start ≤ p.1 ∧ p.1 < stop).Pairwise
      fun a b => a.1 < b.1 := by
    apply List.Pairwise.filter
    exact Std.ExtTreeMap.ordered_keys_toList.imp fun h => Nat.compare_eq_lt.mp h
  have hright : ((List.range' start (stop - start)).filterMap
      fun k => t[k]?.map fun v => (k, v)).Pairwise fun a b => a.1 < b.1 := by
    rw [List.pairwise_filterMap]
    apply (List.pairwise_lt_range' 1 (by decide)).imp
    intro a b hab x hx y hy
    obtain ⟨v, -, rfl⟩ := Option.map_eq_some_iff.mp hx
    obtain ⟨w, -, rfl⟩ := Option.map_eq_some_iff.mp hy
    exact hab
  apply hleft.eq_of_mem_iff hright
  rintro ⟨k, v⟩
  simp only [List.mem_filter, Std.ExtTreeMap.mem_toList_iff_getElem?_eq_some, decide_eq_true_eq,
    List.mem_filterMap, List.mem_range'_1, Option.map_eq_some_iff, Prod.mk.injEq]
  constructor
  · rintro ⟨hv, hstart, hstop⟩
    exact ⟨k, by omega, v, hv, rfl, rfl⟩
  · rintro ⟨_, hrange, _, hv, rfl, rfl⟩
    exact ⟨hv, by omega⟩

theorem upToGap_eq {l : List (Nat × α)} (h : l.IsChain fun a b => a.1 + 1 = b.1) :
    upToGap l = l := by
  induction h with
  | nil => rfl
  | singleton => rfl
  | cons_cons hab _ ih => rw [upToGap, if_pos hab, ih]

namespace Database

/-- The record of the block at a height, if its header is stored. -/
def record (db : Database) (height : Nat) : Option BlockRecord :=
  (db.loadHeader height).map (db.recordOf height)

/-- The stored records of the heights `start..stop`, lowest first. -/
def storedRecords (db : Database) (start stop : Nat) : List BlockRecord :=
  (List.range' start (stop - start)).filterMap db.record

variable {db db' : Database}

theorem record_height (h : db.record k = some r) : r.height = k := by
  obtain ⟨_, -, rfl⟩ := Option.map_eq_some_iff.mp h
  rfl

theorem storedRecords_append (h : start ≤ mid) (h' : mid ≤ stop) :
    db.storedRecords start mid ++ db.storedRecords mid stop = db.storedRecords start stop := by
  obtain ⟨m, rfl⟩ := Nat.exists_eq_add_of_le h
  obtain ⟨n, rfl⟩ := Nat.exists_eq_add_of_le h'
  rw [storedRecords, storedRecords, storedRecords, ← List.filterMap_append,
    Nat.add_sub_cancel_left, Nat.add_sub_cancel_left, Nat.add_assoc, Nat.add_sub_cancel_left,
    List.range'_append_1]

theorem storedRecords_empty (h : stop ≤ start) : db.storedRecords start stop = [] := by
  rw [storedRecords, Nat.sub_eq_zero_of_le h]
  rfl

theorem storedRecords_none (h : ∀ k, start ≤ k → k < stop → db.record k = none) :
    db.storedRecords start stop = [] := by
  rw [storedRecords, List.filterMap_eq_nil_iff]
  intro k hk
  rw [List.mem_range'_1] at hk
  exact h k hk.1 (by omega)

theorem storedRecords_congr (h : ∀ k, start ≤ k → k < stop → db.record k = db'.record k) :
    db.storedRecords start stop = db'.storedRecords start stop := by
  apply List.filterMap_congr
  intro k hk
  rw [List.mem_range'_1] at hk
  exact h k hk.1 (by omega)

theorem storedRecords_cons (h : db.record start = some r) (hlt : start < stop) :
    db.storedRecords start stop = r :: db.storedRecords (start + 1) stop := by
  obtain ⟨n, rfl⟩ := Nat.exists_eq_add_of_lt hlt
  rw [storedRecords, Nat.add_assoc, Nat.add_sub_cancel_left, List.range'_succ,
    List.filterMap_cons_some h, storedRecords, Nat.add_comm n 1, ← Nat.add_assoc,
    Nat.add_sub_cancel_left]

theorem storedRecords_concat (h : db.record stop = some r) (hle : start ≤ stop) :
    db.storedRecords start (stop + 1) = db.storedRecords start stop ++ [r] := by
  rw [← storedRecords_append hle (Nat.le_succ stop), storedRecords_cons h (Nat.lt_succ_self stop),
    storedRecords_empty (Nat.le_refl _)]

theorem length_storedRecords (h : ∀ k, start ≤ k → k < stop → (db.record k).isSome) :
    (db.storedRecords start stop).length = stop - start := by
  obtain ⟨n, hn⟩ : ∃ n, stop - start = n := ⟨_, rfl⟩
  induction n generalizing start with
  | zero => rw [storedRecords_empty (by omega), hn, List.length_nil]
  | succ n ih =>
    obtain ⟨r, hr⟩ := Option.isSome_iff_exists.mp (h start (Nat.le_refl _) (by omega))
    rw [storedRecords_cons hr (by omega), List.length_cons,
      ih (fun k hk => h k (by omega)) (by omega)]
    omega

theorem stored_of_length (h : (db.storedRecords start stop).length = stop - start)
    (hstart : start ≤ k) (hstop : k < stop) : (db.record k).isSome := by
  cases hk : db.record k with
  | some r => rfl
  | none =>
    have hbelow : (db.storedRecords start k).length ≤ k - start := by
      have hle := List.length_filterMap_le db.record (List.range' start (k - start))
      rwa [List.length_range'] at hle
    have habove : (db.storedRecords (k + 1) stop).length ≤ stop - (k + 1) := by
      have hle := List.length_filterMap_le db.record (List.range' (k + 1) (stop - (k + 1)))
      rwa [List.length_range'] at hle
    have hone : db.storedRecords k (k + 1) = [] := by
      apply storedRecords_none
      intro j hj hj'
      obtain rfl : j = k := by omega
      exact hk
    have hsplit : db.storedRecords start stop =
        db.storedRecords start k ++ db.storedRecords (k + 1) stop := by
      rw [← storedRecords_append hstart (Nat.le_of_lt hstop),
        ← storedRecords_append (Nat.le_succ k) hstop, hone, List.nil_append]
    rw [hsplit, List.length_append] at h
    omega

end Database

open Database

variable [Primitives] {db db' : Database} {chain others : List Batch} {low base : Nat}

namespace Mirrors

theorem loadHeader (h : Mirrors db chain low base) (k : Nat) :
    db.loadHeader k = if low ≤ k then chain[k]?.map (·.headerAt k) else none :=
  h.stored.choose_spec.headers k

theorem header_isSome (h : Mirrors db chain low base) :
    (db.headers[k]?).isSome ↔ low ≤ k ∧ k < chain.length := by
  have hk := h.loadHeader k
  rw [Database.loadHeader] at hk
  rw [hk]
  split <;> simp [*]

theorem record_isSome (h : Mirrors db chain low base) :
    (db.record k).isSome ↔ low ≤ k ∧ k < chain.length := by
  rw [Database.record, Option.isSome_map]
  exact h.header_isSome

theorem record_eq_none (h : Mirrors db chain low base) (hk : k < low ∨ chain.length ≤ k) :
    db.record k = none := by
  apply Option.not_isSome_iff_eq_none.mp
  rw [h.record_isSome]
  omega

theorem record_eq_some (h : Mirrors db chain low base) (hk : low ≤ k) (hb : chain[k]? = some b) :
    ∃ r, db.record k = some r ∧ r.height = k ∧ r.hash = b.extension.finalHash ∧
      r.timestamp = b.timestamp ∧ r.signer = b.signer ∧
      ∀ x, r.minted = some x ↔ base ≤ k ∧ Mints chain k x := by
  obtain ⟨s, hs⟩ := h.stored
  have hload : db.loadHeader k = some (b.headerAt k) := by
    rw [h.loadHeader, if_pos hk, hb, Option.map_some]
  refine ⟨db.recordOf k (b.headerAt k), ?_, rfl, rfl, rfl, ?_, hs.subsidy k⟩
  · rw [Database.record, hload, Option.map_some]
  · show db.signers[k]?.getD b.signer = b.signer
    cases hsigner : db.signers[k]? with
    | none => rfl
    | some signer =>
      obtain ⟨c, hc, rfl⟩ := hs.signers k signer hsigner
      rw [Option.some.inj (hb.symm.trans hc)]
      rfl

theorem records_ext (h : Mirrors db chain low base) (h' : Mirrors db' others low base)
    (htake : chain.take (k + 1) = others.take (k + 1)) : db.record k = db'.record k := by
  have hat : chain[k]? = others[k]? := by
    rw [← List.getElem?_take_of_lt (Nat.lt_succ_self k), htake,
      List.getElem?_take_of_lt (Nat.lt_succ_self k)]
  cases hb : chain[k]? with
  | none =>
    rw [Database.record, Database.record, h.loadHeader, h'.loadHeader, ← hat, hb]
    split <;> rfl
  | some b =>
    by_cases hk : low ≤ k
    · obtain ⟨r, hr, hheight, hhash, htime, hsigner, hminted⟩ := h.record_eq_some hk hb
      obtain ⟨q, hq, hheight', hhash', htime', hsigner', hminted'⟩ :=
        h'.record_eq_some hk (hat ▸ hb)
      have hm : r.minted = q.minted := by
        ext x
        rw [hminted, hminted']
        exact and_congr_right fun _ => ⟨Mints.of_take htake, Mints.of_take htake.symm⟩
      rw [hr, hq]
      cases r
      cases q
      simp_all
    · rw [Database.record, Database.record, h.loadHeader, h'.loadHeader, if_neg hk, if_neg hk]
      rfl

theorem records_below {S : Set Batch}
    (hids : Set.InjOn (fun b : Batch => b.extension.finalHash) S)
    (h : Mirrors db chain low base) (h' : Mirrors db' others low base) (hS : ∀ b ∈ chain, b ∈ S)
    (hS' : ∀ b ∈ others, b ∈ S) (hr : db.record n = some r) (hq : db'.record n = some q)
    (he : r.hash = q.hash) (hk : k ≤ n) : db.record k = db'.record k := by
  obtain ⟨hlow, hn⟩ := h.record_isSome.mp (Option.isSome_iff_exists.mpr ⟨r, hr⟩)
  obtain ⟨-, hn'⟩ := h'.record_isSome.mp (Option.isSome_iff_exists.mpr ⟨q, hq⟩)
  obtain ⟨b, hb⟩ : ∃ b, chain[n]? = some b := ⟨_, List.getElem?_eq_getElem hn⟩
  obtain ⟨c, hc⟩ : ∃ c, others[n]? = some c := ⟨_, List.getElem?_eq_getElem hn'⟩
  obtain ⟨r', hr', -, hhash, -⟩ := h.record_eq_some hlow hb
  obtain ⟨q', hq', -, hhash', -⟩ := h'.record_eq_some hlow hc
  obtain rfl := Option.some.inj (hr.symm.trans hr')
  obtain rfl := Option.some.inj (hq.symm.trans hq')
  have htake := h.stored.choose_spec.built.take_eq hids h'.stored.choose_spec.built hS hS' hb hc
    (by rw [← hhash, ← hhash', he])
  apply h.records_ext h'
  have hcut := congrArg (List.take (k + 1)) htake
  rwa [List.take_take, List.take_take, Nat.min_eq_left (by omega)] at hcut

/-- What one read of the block records returns: all of them that are stored. -/
theorem blockRecords (h : Mirrors db chain low base) (start count : Nat) :
    db.blockRecords start count = db.storedRecords start (satAdd64 start count) := by
  have hchain : ((List.range' start (satAdd64 start count - start)).filterMap
      fun k => db.headers[k]?.map fun v => (k, v)).IsChain fun a b => a.1 + 1 = b.1 := by
    generalize satAdd64 start count - start = n
    induction n generalizing start with
    | zero => exact .nil
    | succ n ih =>
      rw [List.range'_succ]
      cases hv : db.headers[start]? with
      | none =>
        rw [List.filterMap_cons_none (by rw [hv]; rfl)]
        exact ih (start + 1)
      | some v =>
        rw [List.filterMap_cons_some (by rw [hv]; rfl)]
        apply (ih (start + 1)).cons
        intro p hp
        have hmem := List.mem_of_mem_head? hp
        obtain ⟨k, hk, hkp⟩ := List.mem_filterMap.mp hmem
        obtain ⟨w, hw, rfl⟩ := Option.map_eq_some_iff.mp hkp
        rw [List.mem_range'_1] at hk
        -- No gap: what lies between two stored heights is stored.
        have hstart := h.header_isSome.mp (Option.isSome_iff_exists.mpr ⟨v, hv⟩)
        have hlast := h.header_isSome.mp (Option.isSome_iff_exists.mpr ⟨w, hw⟩)
        obtain ⟨m, rfl⟩ : ∃ m, n = m + 1 := ⟨n - 1, by omega⟩
        obtain ⟨u, hu⟩ : ∃ u, db.headers[start + 1]? = some u := by
          apply Option.isSome_iff_exists.mp
          apply (h.header_isSome).mpr
          omega
        rw [List.range'_succ, List.filterMap_cons_some (by rw [hu]; rfl), List.head?_cons,
          Option.mem_some_iff, Prod.mk.injEq] at hp
        exact hp.1
  rw [Database.blockRecords, filter_toList_range, upToGap_eq hchain, storedRecords,
    List.map_filterMap]
  apply List.filterMap_congr
  intro k _
  rw [Database.record, Option.map_map]
  rfl

end Mirrors

end Midwimble
