import Midwimble.Storage.Kept

namespace Midwimble
open Fallible OrderedMap SlidingWindow
set_option autoImplicit true

variable [Primitives]

section Bonds

variable {S : Set Batch} {chain : List Batch} {s : State}

theorem Built.bonds (h : Built chain s) (ha : StoredApart S) (hsub : ∀ c ∈ chain, c ∈ S) :
    s.bonds.Committed ∧ s.bonds.Within (registeredBonds S) := by
  induction h with
  | genesis =>
    refine ⟨BondSet.committed_empty, ?_⟩
    intro id e he
    simp [State.genesis, BondSet.empty, BondSet.get] at he
  | @block blocks s batch now pre skip s' hb hok ih =>
    obtain ⟨hc, hw⟩ := ih fun c hc => hsub c (List.mem_append_left _ hc)
    rw [← (apply_bond_effects hok).1, applyBondEffects, BondSet.foldl_remove,
      BondSet.foldl_insert, ← List.foldl_append]
    apply BondSet.committed_edits hc hw ha.bonds
    intro p hp
    exact ⟨_, _, hsub, hb.block hok, mem_inserted_edits.mp hp⟩

theorem BondSet.Committed.eq {b b' : BondSet} (h : b.Committed) (h' : b'.Committed)
    (he : b.entries = b'.entries) : b = b' := by
  obtain ⟨entries, ⟨coins⟩⟩ := b
  obtain ⟨entries', ⟨coins'⟩⟩ := b'
  obtain rfl : entries = entries' := he
  obtain rfl : coins = coins' := by
    apply Std.ExtTreeSet.ext_mem
    intro leaf
    exact (h leaf).trans (h' leaf).symm
  rfl

theorem readBonds_eq (h : Built chain s) (ha : StoredApart S) (hsub : ∀ c ∈ chain, c ∈ S) :
    readBonds s.bonds.entries = s.bonds := by
  obtain ⟨hc, hw⟩ := h.bonds ha hsub
  apply BondSet.Committed.eq _ hc (entries_readBonds _)
  rw [readBonds, BondSet.foldl_insert]
  have hempty : BondSet.empty.Within (registeredBonds S) := by
    intro id e he
    simp [BondSet.empty, BondSet.get] at he
  apply (BondSet.committed_edits BondSet.committed_empty hempty ha.bonds _ _).1
  intro p hp
  obtain ⟨q, hq, he⟩ := List.mem_map.mp hp
  obtain ⟨hid, hentry⟩ := BondSet.Edit.insert.inj he
  obtain rfl : q = p := Prod.ext hid hentry
  exact hw _ _ (Std.ExtTreeMap.mem_toList_iff_getElem?_eq_some.mp hq)

end Bonds

theorem readRelay_eq {s : State} (h : Relayed s) : readRelay s.relay.entries = .ok s.relay := by
  obtain ⟨full, es, hs, ht⟩ := h
  have hvalues : s.relay.entries.toList.map Prod.snd = es := hs.values
  rw [readRelay, hvalues]
  cases es with
  | nil => exact absurd rfl hs.nonempty
  | cons e es =>
    show Except.mapError _ (Relay.fromEntries (e :: es)) = _
    rw [hs.fromEntries ht]
    rfl

omit [Primitives] in
theorem take_works (chain : List Batch) (hn : n ≤ chain.length) :
    (works chain).take n = works (chain.take n) := by
  have hlen : (works (chain.take n)).length = n := by
    rw [length_works, List.length_take, Nat.min_eq_left hn]
  have hsplit : works chain = works (chain.take n) ++
      ((chain.drop n).zipIdx (chain.take n).length).map fun p => (p.2, p.1.work) := by
    have happend : chain.zipIdx = (chain.take n).zipIdx ++
        (chain.drop n).zipIdx (chain.take n).length := by
      rw [← Nat.zero_add (chain.take n).length, ← List.zipIdx_append, List.take_append_drop]
    rw [works, happend, List.map_append]
    rfl
  rw [hsplit, List.take_left' hlen]

namespace Database.Holds

variable {db : Database} {chain : List Batch} {kept : Nat} {t : State}

theorem mapM_loggedSigner (h : db.Holds chain kept) (hle : start + n ≤ chain.length) :
    (List.range' start n).mapM (loggedSigner db.signers db.batches) =
      .ok (((chain.map Batch.signer).drop start).take n) := by
  induction n generalizing start with
  | zero => rfl
  | succ n ih =>
    have hlt : start < (chain.map Batch.signer).length := by
      rw [List.length_map]
      omega
    have hone : loggedSigner db.signers db.batches start =
        .ok (chain.map Batch.signer)[start] := by
      rw [loggedSigner, h.signers, ← List.getElem?_map, List.getElem?_eq_getElem hlt]
    rw [List.range'_succ, mapM_cons_eq_ok]
    refine ⟨_, _, hone, ih (by omega), ?_⟩
    rw [List.drop_eq_getElem_cons hlt, List.take_succ_cons]

theorem headerWorks_eq (h : db.Holds chain kept) (start : Nat) (hstop : stop ≤ chain.length) :
    headerWorks db.headers start stop = .ok (((works chain).take stop).drop start) := by
  have hout : (db.headers.toList.filter fun p => start ≤ p.1 ∧ p.1 < stop).map (fun p =>
      (p.1, calculateWork p.2.target)) = ((works chain).take stop).drop start := by
    rw [h.headers.range start stop, List.map_drop, List.map_take, List.map_map]
    rfl
  have hlen : (((works chain).take stop).drop start).length = stop - start := by
    rw [List.length_drop, List.length_take, length_works, Nat.min_eq_left hstop]
  rw [headerWorks, hout, bailIf_neg (by rw [hlen]; exact not_not_intro rfl), bind_ok]

theorem windows (h : db.Holds chain kept) (ht : Built (chain.take n) t) (hn : n ≤ chain.length) :
    (List.range' (n - capWindow) (n - (n - capWindow))).mapM
        (loggedSigner db.signers db.batches) =
          .ok (lastN capWindow ((chain.take n).map Batch.signer)) ∧
      (∀ bonds, rebuildSignerWindow bonds (lastN capWindow ((chain.take n).map Batch.signer)) =
        t.signers) ∧
      ∃ ws, headerWorks db.headers (n - workCapWindow) n = .ok ws ∧
        rebuildWorkFloor ws = t.workFloor := by
  have hlen : (chain.take n).length = n := by
    rw [List.length_take]
    omega
  have hw := ht.run.windowed
  refine ⟨?_, ?_, _, h.headerWorks_eq _ hn, ?_⟩
  · rw [h.mapM_loggedSigner (by omega), lastN, List.length_map, hlen, List.map_take,
      List.drop_take]
  · intro bonds
    have hshows := shows_rebuildSignerWindow bonds
      (lastN capWindow ((chain.take n).map Batch.signer))
    apply SignerWindow.Shows.unique _ hw.signers
    refine ⟨?_, ?_⟩
    · rw [hshows.recent, lastN_lastN (Nat.le_refl _)]
    · exact hshows.tally
  · have hworks : ((works chain).take n).drop (n - workCapWindow) =
        lastN workCapWindow (works (chain.take n)) := by
      rw [take_works chain hn, lastN, length_works, hlen]
    have hcut := works_heights.drop (Nat.sub_le (works (chain.take n)).length workCapWindow)
    have hfloor := rebuildWorkFloor_floors hcut
    rw [← lastN] at hfloor
    rw [hworks, hfloor, lastN_lastN (Nat.le_refl _)]
    exact hw.floors.symm

theorem cappedBefore_eq (h : db.Holds chain kept) (ht : Built (chain.take n) t)
    (hn : n ≤ chain.length) : db.cappedBefore n = t.capped := by
  cases n with
  | zero =>
    rw [List.take_zero] at ht
    rw [ht.unique .genesis]
    rfl
  | succ n =>
    rw [cappedBefore, (h.weights n t hn ht).1]
    rfl

end Database.Holds

end Midwimble
