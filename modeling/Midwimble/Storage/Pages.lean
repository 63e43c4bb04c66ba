import Midwimble.Storage.Sessions

namespace Midwimble
open Fallible OrderedMap
set_option autoImplicit true

section
variable [Primitives]

/-- An unspent output as a ledger serves it: with its own record. -/
structure Ledger.Serves (l : Ledger) (p : Output × UtxoEntry) : Prop where
  record : l.utxos[p.1.commitment]? = some p.2
  outputHash : p.2.outputHash = p.1.metadataHash
  ownerKey : p.2.ownerKey = p.1.ownerKey
  recoveryCommitment : p.2.recoveryCommitment = p.1.recoveryCommitment

namespace Ledger

variable {l : Ledger} {ms : List (Point32 × Bytes32 × Nat)}

omit [Primitives] in
theorem cachedGroup_eq_ok {cache : Std.ExtTreeMap Bytes32 StoredGroup}
    (hcache : ∀ (gid : Bytes32) g, cache[gid]? = some g → l.groups[gid]? = some g)
    {gid : Bytes32} {g : StoredGroup} (hg : l.groups[gid]? = some g) :
    ∃ cache', l.cachedGroup cache gid = .ok (g, cache') ∧
      ∀ (gid : Bytes32) g, cache'[gid]? = some g → l.groups[gid]? = some g := by
  cases hc : cache[gid]? with
  | some g' =>
    have hsame := hcache gid g' hc
    rw [hg, Option.some.injEq] at hsame
    exact ⟨cache, by rw [cachedGroup, hc, hsame], hcache⟩
  | none =>
    refine ⟨cache.insert gid g, by rw [cachedGroup, hc, hg, orBail_some, bind_ok], ?_⟩
    intro gid' g' hg'
    rcases getElem?_insert_eq_some.mp hg' with ⟨rfl, rfl⟩ | ⟨-, hg'⟩
    · exact hg
    · exact hcache gid' g' hg'

/-- A page holds the first members, whatever groups were read before. -/
theorem Grouped.pageOf (h : l.Grouped) (cache : Std.ExtTreeMap Bytes32 StoredGroup)
    (hcache : ∀ (gid : Bytes32) g, cache[gid]? = some g → l.groups[gid]? = some g)
    (hms : ∀ m ∈ ms, l.members[m.1]? = some m.2) (limit : Nat) :
    ∃ page, l.pageOf limit cache ms = .ok page ∧
      page.map (fun p => p.1.commitment) = (ms.take limit).map Prod.fst ∧
        ∀ p ∈ page, l.Serves p := by
  induction limit generalizing cache ms with
  | zero =>
    refine ⟨[], rfl, ?_, fun p hp => absurd hp List.not_mem_nil⟩
    rw [List.take_zero]
    rfl
  | succ limit ih =>
    cases ms with
    | nil => exact ⟨[], rfl, rfl, fun p hp => absurd hp List.not_mem_nil⟩
    | cons m ms =>
      obtain ⟨c, gid, idx⟩ := m
      have hm := hms _ List.mem_cons_self
      obtain ⟨g, o, hg, ho, rfl⟩ := h.place c gid idx hm
      obtain ⟨e, he⟩ := mem_iff_exists.mp ((h.members _).mp (mem_iff_exists.mpr ⟨_, hm⟩))
      obtain ⟨hhash, howner, hrecovery⟩ := h.record gid g idx o e hg ho he
      obtain ⟨cache', hread, hcache'⟩ := cachedGroup_eq_ok hcache hg
      obtain ⟨page, hpage, hkeys, hserves⟩ := ih cache' hcache'
        (fun m hm => hms m (List.mem_cons_of_mem _ hm))
      refine ⟨(o, e) :: page, ?_, ?_, ?_⟩
      · have houtput : memberOutput g idx = .ok o := by
          rw [memberOutput, ho]
        simp only [Ledger.pageOf, hread, bind_ok, houtput, he, orBail_some, hpage]
      · rw [List.map_cons, hkeys, List.take_succ_cons, List.map_cons]
      · intro p hp
        rcases List.mem_cons.mp hp with rfl | hp
        · exact ⟨he, hhash, howner, hrecovery⟩
        · exact hserves p hp

/-- Paging on from the last output read collects the rest of the members. -/
theorem Grouped.collectUnspent (h : l.Grouped) (hpage : 0 < page) (fuel : Nat)
    (done rest : List (Point32 × Bytes32 × Nat)) (he : l.members.toList = done ++ rest)
    (hfuel : rest.length < fuel * page) :
    ∃ outputs, l.collectUnspent page fuel (done.getLast?.map Prod.fst) = .ok outputs ∧
      outputs.map (fun p => p.1.commitment) = rest.map Prod.fst ∧ ∀ p ∈ outputs, l.Serves p := by
  induction fuel generalizing done rest with
  | zero => omega
  | succ fuel ih =>
    have hafter := filter_after Std.ExtTreeMap.ordered_keys_toList he
    have hms : ∀ m ∈ rest, l.members[m.1]? = some m.2 := by
      intro m hm
      apply Std.ExtTreeMap.mem_toList_iff_getElem?_eq_some.mp
      rw [he]
      exact List.mem_append_right _ hm
    obtain ⟨first, hfirst, hkeys, hserves⟩ := h.pageOf ∅
      (fun gid g hg => by simp at hg) hms page
    have hread : l.unspentOutputs (done.getLast?.map Prod.fst) page = .ok first := by
      rw [unspentOutputs, hafter]
      exact hfirst
    have hlength : first.length = min page rest.length := by
      have hcount := congrArg List.length hkeys
      rwa [List.length_map, List.length_map, List.length_take] at hcount
    rw [Ledger.collectUnspent, hread, bind_ok]
    by_cases hfull : page ≤ rest.length
    · have hlen : first.length = page := by omega
      have hlast : first.getLast?.map (fun p => p.1.commitment) =
          ((done ++ rest.take page).getLast?.map Prod.fst) := by
        have hne : rest.take page ≠ [] := by
          intro hnil
          have hzero := congrArg List.length hnil
          rw [List.length_take, List.length_nil] at hzero
          omega
        rw [List.getLast?_append_of_ne_nil _ hne, ← List.getLast?_map, hkeys, List.getLast?_map]
      cases hl : first.getLast? with
      | none =>
        rw [List.getLast?_eq_none_iff] at hl
        rw [hl, List.length_nil] at hlen
        omega
      | some last =>
        rw [hl, Option.map_some] at hlast
        have hsplit : l.members.toList = (done ++ rest.take page) ++ rest.drop page := by
          rw [he, List.append_assoc, List.take_append_drop]
        have hleft : (rest.drop page).length < fuel * page := by
          rw [List.length_drop]
          rw [Nat.succ_mul] at hfuel
          omega
        obtain ⟨more, hmore, hmoreKeys, hmoreServes⟩ := ih _ _ hsplit hleft
        rw [← hlast] at hmore
        refine ⟨first ++ more, ?_, ?_, ?_⟩
        · simp only [hlen, decide_true, hmore, bind_ok]
        · rw [List.map_append, hkeys, hmoreKeys, ← List.map_append, List.take_append_drop]
        · intro p hp
          exact (List.mem_append.mp hp).elim (hserves p) (hmoreServes p)
    · have hshort : first.length ≠ page := by omega
      refine ⟨first, ?_, ?_, hserves⟩
      · simp only [hshort, decide_false]
        cases first.getLast? <;> rfl
      · rw [hkeys, List.take_of_length_le (by omega)]

/-- All pages together are the unspent outputs. -/
theorem Grouped.collect_all (h : l.Grouped) (hpage : 0 < page) (fuel : Nat)
    (hfuel : l.utxos.size < fuel * page) : ∃ outputs,
      l.collectUnspent page fuel none = .ok outputs ∧
        outputs.map (fun p => (p.1.commitment, p.2)) = l.utxos.toList ∧
          ∀ p ∈ outputs, l.Serves p := by
  have hall := keys_eq h.members
  have hlength : l.members.toList.length = l.utxos.size := by
    have hcount := congrArg List.length hall
    rw [List.length_map, List.length_map] at hcount
    exact hcount.trans Std.ExtTreeMap.length_toList
  obtain ⟨outputs, hread, hkeys, hserves⟩ := h.collectUnspent hpage fuel [] _
    (List.nil_append _).symm (by rw [hlength]; exact hfuel)
  rw [hall] at hkeys
  refine ⟨outputs, hread, ?_, hserves⟩
  symm
  apply toList_eq
  · have hsorted : (outputs.map fun p => p.1.commitment).Pairwise fun a b => compare a b = .lt := by
      rw [hkeys]
      exact List.pairwise_map.mpr Std.ExtTreeMap.ordered_keys_toList
    exact List.pairwise_map.mpr (List.pairwise_map.mp hsorted)
  · rintro ⟨c, e⟩
    rw [Std.ExtTreeMap.mem_toList_iff_getElem?_eq_some, List.mem_map]
    constructor
    · intro he
      have hc : c ∈ outputs.map fun p => p.1.commitment := by
        rw [hkeys]
        exact List.mem_map.mpr ⟨(c, e), Std.ExtTreeMap.mem_toList_iff_getElem?_eq_some.mpr he, rfl⟩
      obtain ⟨p, hp, rfl⟩ := List.mem_map.mp hc
      have hrecord := (hserves p hp).record
      rw [he, Option.some.injEq] at hrecord
      exact ⟨p, hp, by rw [hrecord]⟩
    · rintro ⟨p, hp, heq⟩
      obtain ⟨rfl, rfl⟩ := Prod.mk.inj heq
      exact (hserves p hp).record

end Ledger

/-- A wallet that pages through a node's unspent outputs gets each of them once, in commitment
order, with its own record. -/
theorem unspent_pages_complete {S : Set Batch} {db : Database} {chain : List Batch} {peak : Nat}
    (ha : StoredApart S) (h : Database.Made S db chain peak) (hpage : 0 < page) :
    ∃ s, Built chain s ∧ ∀ fuel, s.utxos.size < fuel * page → ∃ outputs,
      db.ledger.collectUnspent page fuel none = .ok outputs ∧
        outputs.map (fun p => (p.1.commitment, p.2)) = s.utxos.toList ∧
          ∀ p ∈ outputs, db.ledger.Serves p := by
  obtain ⟨s, kept, hkeeps, -, -, hsub⟩ := h.keeps ha
  have hstands := hkeeps.holds.ledger.stands ha hkeeps.built hsub
  have hsame : db.ledger.Grouped ∧ db.ledger.utxos = s.utxos := by
    obtain ⟨-, ⟨hutxos, -⟩, hcovers, -⟩ := hstands
    have hgrouped := hcovers.toGrouped
    unfold Database.rootRelay at hutxos hgrouped
    split at hutxos
    · rw [if_pos ‹_›] at hgrouped
      exact ⟨⟨hgrouped.place, hgrouped.covered, hgrouped.live, hgrouped.members,
        hgrouped.record⟩, hutxos⟩
    · rw [if_neg ‹_›] at hgrouped
      exact ⟨hgrouped, hutxos⟩
  obtain ⟨hgrouped, hutxos⟩ := hsame
  refine ⟨s, hkeeps.built, ?_⟩
  rw [← hutxos]
  exact hgrouped.collect_all hpage

end

section Paged

local instance pagedWords : Primitives := racedPrimitives

/-- A wallet that pages through the reorganised node, an output at a time, gets the three
coinbases of the second branch. -/
theorem unspent_pages_forked : ∃ (db : Database),
    Database.Made forkedBlocks db [.genesis, newBlock, newMiddle, newTop] 4 ∧
    newTopState.utxos.size = 3 ∧
      ∃ outputs, db.ledger.collectUnspent 1 (newTopState.utxos.size + 1) none = .ok outputs ∧
        outputs.map (fun p => (p.1.commitment, p.2)) = newTopState.utxos.toList := by
  obtain ⟨db, hmade⟩ := forked_reorganised
  obtain ⟨s, hbuilt, hall⟩ := unspent_pages_complete forked_apart hmade (show 0 < 1 by decide)
  obtain rfl := newTopState_chain.built.unique hbuilt
  obtain ⟨outputs, hread, hkeys, -⟩ := hall (newTopState.utxos.size + 1) (by omega)
  exact ⟨db, hmade, by decide +kernel, outputs, hread, hkeys⟩

end Paged

end Midwimble
