import Midwimble.Storage.Imports

namespace Midwimble
open Fallible OrderedMap
set_option autoImplicit true

section Exports

variable [Primitives]

variable {S : Set Batch} {db : Database} {chain : List Batch} {s t : State} {l' : Ledger}
  {kept : Nat}

theorem Ledger.Covers.id_eq {l : Ledger} (h : l.Covers chain) {gid : Bytes32} {g : StoredGroup}
    (hg : l.groups[gid]? = some g) : g.id = gid := by
  obtain ⟨b, -, p, -, hid, spent, rfl⟩ := h.origin gid g hg
  rw [StoredGroup.id_after, hid]

namespace Database

/-- Undo records take the groups back block by block, and the kernels below were all kept. -/
theorem Holds.groupsAt (h : db.Holds chain kept) (ha : StoredApart S) (hsub : ∀ c ∈ chain, c ∈ S)
    (hl : Ledger.Of (chain.take (n + m)) l') (hb : Built (chain.take (n + m)) s)
    (hle : n + m ≤ chain.length) (hkept : m = 0 ∨ kept ≤ n) :
    ∃ l, Ledger.Of (chain.take n) l ∧ db.groupsAt n m l'.groups = .ok l.groups ∧
      ∀ (k : Bytes32) v, l.kernels[k]? = some v → l'.kernels[k]? = some v := by
  induction m generalizing s l' with
  | zero => exact ⟨l', hl, rfl, fun k v hv => hv⟩
  | succ m ih =>
    have hfirst : kept ≤ n := hkept.resolve_left (Nat.succ_ne_zero m)
    have hlt : n + m < chain.length := by omega
    have hlen : (chain.take (n + m)).length = n + m := by
      rw [List.length_take]
      omega
    have htake : chain.take (n + m + 1) = chain.take (n + m) ++ [chain[n + m]] := by
      rw [List.take_add_one, List.getElem?_eq_getElem hlt]
      rfl
    have hin : ∀ c ∈ chain.take (n + m) ++ [chain[n + m]], c ∈ S := by
      rw [← htake]
      exact fun c hc => hsub c (List.mem_of_mem_take hc)
    rw [← Nat.add_assoc, htake] at hb hl
    obtain ⟨below, hbelow, -⟩ := hb.last
    obtain ⟨u, hu⟩ := mem_iff_exists.mp ((h.undo (n + m)).mpr ⟨by omega, hlt⟩)
    have hlogged : Logged (chain.take (n + m) ++ [chain[n + m]]) (chain.take (n + m)).length u := by
      rw [hlen]
      exact (h.logged _ u hu).of_take (by rw [← htake, List.take_take, Nat.min_self])
    obtain ⟨hof, -, -⟩ := hlogged.tip ha hin hbelow hb hl
    obtain ⟨l, hl, hgroups, hkernels⟩ := ih hof hbelow (by omega) (.inr hfirst)
    refine ⟨l, hl, ?_, ?_⟩
    · rw [Database.groupsAt, hu, orBail_some, bind_ok]
      exact hgroups
    · intro k v hv
      exact (getElem?_foldl_erase_eq_some.mp (hkernels k v hv)).2

end Database

/-- A chain's snapshot at its tip, from its state and its tables. -/
def Snapshot.picture (checkpoint : Checkpoint) (blocks : List Batch) (t : State) (l : Ledger)
    (peaks : List Bytes32) : Snapshot where
  checkpoint := checkpoint
  headers := (blocks.zipIdx.map fun b => b.1.headerAt b.2).drop (blocks.length - snapshotHeaders)
  parts := t.checkpointParts
  mmrPeaks := peaks
  utxos := t.utxos.toList
  groups := l.groups.toList.map Prod.snd
  kernels := l.kernels.toList.map Prod.snd
  bonds := t.bonds.entries.toList
  relay := t.relay.values

/-- A snapshot of some blocks, at a checkpoint that describes them. -/
def Snapshot.Pictures (p : Snapshot) (blocks : List Batch) : Prop :=
  ∃ below batch t l peaks, blocks = below ++ [batch] ∧ Built blocks t ∧ Ledger.Of blocks l ∧
    mmrPeakValues (mmrOf below) = .ok peaks ∧
      p.checkpoint.matches (batch.headerAt below.length) t.depth = .ok () ∧
        p = .picture p.checkpoint blocks t l peaks

theorem Snapshot.Pictures.unique {p q : Snapshot} {blocks : List Batch} (h : p.Pictures blocks)
    (h' : q.Pictures blocks) (he : p.checkpoint = q.checkpoint) : p = q := by
  obtain ⟨below, batch, t, l, peaks, hsplit, ht, hl, hpeaks, -, hp⟩ := h
  obtain ⟨below', batch', t', l', peaks', hsplit', ht', hl', hpeaks', -, hq⟩ := h'
  obtain rfl := ht.unique ht'
  obtain rfl := hl.unique hl'
  obtain rfl := List.append_inj_left' (hsplit.symm.trans hsplit') rfl
  rw [hpeaks, Except.ok.injEq] at hpeaks'
  rw [hp, hq, he, hpeaks']

theorem Batch.matches_headerAt {cp : Checkpoint} {batch : Batch}
    (h : cp.matches (batch.headerAt n) depth = .ok ()) :
    n + 1 = cp.mwHeight ∧ batch.extension.finalHash = cp.mwHeaderHash ∧
      batch.stateRoot = cp.mwStateRoot ∧ depth = cp.mwCumulativeWork := by
  simp only [Checkpoint.matches, bind_eq_ok, bailIf_eq_ok, not_or, ne_eq, not_not] at h
  obtain ⟨_, -, hdescribes⟩ := h
  exact hdescribes

theorem Built.checkpointParts_root {below : List Batch} {batch : Batch}
    (h : Built (below ++ [batch]) t) (hlen : (below ++ [batch]).length < 2 ^ 63) :
    t.checkpointParts.root = batch.stateRoot := by
  have hheight : t.height - 1 = below.length := by
    rw [h.height, List.length_append, List.length_singleton, Nat.add_sub_cancel]
  have hmmr : t.chainMmr.truncated (t.height - 1) = mmrOf below := by
    rw [h.chainMmr, mmrOf_truncated hlen, hheight, List.take_left]
  rw [h.stateRoot, State.checkpointParts, hmmr]
  rfl

theorem crested_mmrOf {blocks : List Batch} (hlen : blocks.length < 2 ^ 63) :
    ∃ f, Crested f (mmrOf blocks) ∧ (mmrOf blocks).leafCount = blocks.length := by
  have hcount : (mmrOf blocks).leafCount = blocks.length := by
    rw [mmrOf, leafCount_appendAll, List.length_map]
    exact Nat.zero_add _
  have hfits : MerkleMountainRange.new.leafCount +
      (blocks.map fun b => b.extension.finalHash).length < 2 ^ 63 := by
    rw [List.length_map]
    exact (Nat.zero_add _).trans_lt hlen
  exact ⟨_, crested_new.appendAll hfits, hcount⟩

omit [Primitives] in
theorem take_zipIdx (chain : List Batch) (hn : n ≤ chain.length) :
    chain.zipIdx.take n = (chain.take n).zipIdx := by
  have happend : chain.zipIdx = (chain.take n).zipIdx ++
      (chain.drop n).zipIdx (chain.take n).length := by
    rw [← Nat.zero_add (chain.take n).length, ← List.zipIdx_append, List.take_append_drop]
  rw [happend, List.take_left' (by rw [List.length_zipIdx, List.length_take, Nat.min_eq_left hn])]

theorem Ledger.Tells.kernels_below {l : Ledger} (htells' : l'.Tells s) (htells : l.Tells t)
    (hgrow : ∀ (k : Bytes32) v, l.kernels[k]? = some v → l'.kernels[k]? = some v) :
    (l'.kernels.toList.map Prod.snd).filter (fun k => t.kernels.coins.contains k.id) =
      l.kernels.toList.map Prod.snd := by
  have hkept : l.kernels.toList =
      l'.kernels.toList.filter fun p => t.kernels.coins.contains p.2.id := by
    apply toList_eq (Std.ExtTreeMap.ordered_keys_toList.filter _)
    rintro ⟨id, k⟩
    rw [List.mem_filter, Std.ExtTreeMap.mem_toList_iff_getElem?_eq_some,
      Std.ExtTreeMap.mem_toList_iff_getElem?_eq_some, ← Std.ExtTreeSet.mem_iff_contains,
      ← htells.kernels]
    constructor
    · intro hk
      rw [htells.kernel_id id k hk]
      exact ⟨hgrow id k hk, mem_iff_exists.mpr ⟨k, hk⟩⟩
    · rintro ⟨hk, hknown⟩
      rw [htells'.kernel_id id k hk] at hknown
      obtain ⟨k', hk'⟩ := mem_iff_exists.mp hknown
      have hsame := hgrow id k' hk'
      rw [hk, Option.some.injEq] at hsame
      rw [hk', hsame]
  rw [hkept, List.filter_map]
  rfl

namespace Database

/-- What a node that holds a chain exports at one of its blocks. -/
theorem Keeps.exportSnapshot_eq (h : db.Keeps chain s kept) (ha : StoredApart S)
    (hr : RecordsApart (chainRecords S))
    (hids : Set.InjOn (fun b : Batch => b.extension.finalHash) S) (hsub : ∀ c ∈ chain, c ∈ S)
    (hlen : chain.length < 2 ^ 63) {cp : Checkpoint} {below : List Batch} {batch : Batch}
    (hn : cp.mwHeight = below.length + 1) (htake : chain.take cp.mwHeight = below ++ [batch])
    (hle : cp.mwHeight ≤ chain.length) (hkept : cp.mwHeight = chain.length ∨ kept ≤ cp.mwHeight)
    (ht : Built (below ++ [batch]) t) :
    ∃ l peaks, Ledger.Of (below ++ [batch]) l ∧ mmrPeakValues (mmrOf below) = .ok peaks ∧
      db.exportSnapshot s cp = (do
        cp.matches (batch.headerAt below.length) t.depth
        bailIf (t.checkpointParts.root ≠ cp.mwStateRoot)
          "derived state does not match the checkpoint"
        .ok (.picture cp (below ++ [batch]) t l peaks)) := by
  have hrooted : db.rootRelay = db := by
    rcases h.scalars with ⟨-, rfl⟩ | ⟨-, hrooted⟩
    · rw [hn] at hle
      exact absurd hle (Nat.not_succ_le_zero _)
    · exact hrooted
  have hholds := h.holds
  rw [hrooted] at hholds
  have hstands := hholds.ledger.stands ha h.built hsub
  have hat : chain[below.length]? = some batch := by
    have hcut := congrArg (fun l => l[below.length]?) htake
    simp only [List.getElem?_concat_length] at hcut
    rwa [List.getElem?_take_of_lt (by omega)] at hcut
  have hstate : db.stateAt s cp.mwHeight = .ok { t with effects := s.effects } := by
    rw [h.stateAt_iff ha hr hids hsub h.built hsub hlen]
    exact ⟨List.prefix_refl _, hle, hkept, t, by rw [htake]; exact ht, rfl⟩
  have htip : db.loadHeader (cp.mwHeight - 1) = some (batch.headerAt below.length) := by
    rw [loadHeader, hn, Nat.add_sub_cancel, hholds.headers, hat]
    rfl
  have hstored : insertAll ∅ (db.ledger.groups.toList.map fun p => (p.2.id, p.2)) =
      db.ledger.groups := by
    have hsame : (db.ledger.groups.toList.map fun p => (p.2.id, p.2)) =
        db.ledger.groups.toList.map id := by
      apply List.map_congr_left
      intro p hp
      rw [hstands.covers.id_eq (Std.ExtTreeMap.mem_toList_iff_getElem?_eq_some.mp hp)]
      rfl
    rw [hsame, List.map_id, insertAll_toList]
  have hspan : cp.mwHeight + (chain.length - cp.mwHeight) = chain.length := by omega
  have hwhole : chain.take (cp.mwHeight + (chain.length - cp.mwHeight)) = chain := by
    rw [hspan, List.take_length]
  obtain ⟨l, hl, hgroups, hgrow⟩ := hholds.groupsAt ha hsub (by rw [hwhole]; exact hholds.ledger)
    (by rw [hwhole]; exact h.built) (Nat.le_of_eq hspan) (by omega)
  rw [htake] at hl
  have hin : ∀ c ∈ below ++ [batch], c ∈ S := by
    rw [← htake]
    exact fun c hc => hsub c (List.mem_of_mem_take hc)
  have hbelow := hl.stands ha ht hin
  have hkernels := hstands.tells.kernels_below hbelow.tells hgrow
  have hfits : below.length < 2 ^ 63 := by omega
  obtain ⟨peaks, hpeaks⟩ : ∃ peaks, mmrPeakValues (mmrOf below) = .ok peaks := by
    obtain ⟨f, hcrest, hcount⟩ := crested_mmrOf hfits
    exact ⟨_, hcrest.peakValues (by rw [hcount]; exact hfits)⟩
  have hmmr : t.chainMmr.truncated (cp.mwHeight - 1) = mmrOf below := by
    rw [ht.chainMmr, mmrOf_truncated (by rw [List.length_append, List.length_singleton]; omega), hn,
      Nat.add_sub_cancel, List.take_left]
  have hheaders : db.loadHeaders (cp.mwHeight - snapshotHeaders)
      (cp.mwHeight - (cp.mwHeight - snapshotHeaders)) =
        ((below ++ [batch]).zipIdx.map fun b => b.1.headerAt b.2).drop
          ((below ++ [batch]).length - snapshotHeaders) := by
    have hstop : satAdd64 (cp.mwHeight - snapshotHeaders)
        (cp.mwHeight - (cp.mwHeight - snapshotHeaders)) = cp.mwHeight := by
      rw [satAdd64, Nat.add_sub_cancel' (Nat.sub_le _ _), Nat.min_eq_left (by omega)]
    have hlength : (below ++ [batch]).length = cp.mwHeight := by
      rw [List.length_append, List.length_singleton, hn]
    rw [loadHeaders, hstop, hholds.headers.range, hlength, List.map_drop, List.map_take,
      List.map_map, ← htake, ← take_zipIdx chain hle, List.map_take]
    rfl
  refine ⟨l, peaks, hl, hpeaks, ?_⟩
  rw [Database.exportSnapshot]
  simp only [hstate, htip, bind_ok, orBail_some, hstored, h.built.height, hgroups, hmmr, hpeaks,
    hheaders]
  rw [hkernels]
  rfl

theorem Keeps.exportSnapshot_iff (h : db.Keeps chain s kept) (ha : StoredApart S)
    (hr : RecordsApart (chainRecords S))
    (hids : Set.InjOn (fun b : Batch => b.extension.finalHash) S) (hsub : ∀ c ∈ chain, c ∈ S)
    (hlen : chain.length < 2 ^ 63) (cp : Checkpoint) (p : Snapshot) :
    db.exportSnapshot s cp = .ok p ↔ p.checkpoint = cp ∧ cp.mwHeight ≤ chain.length ∧
      (cp.mwHeight = chain.length ∨ kept ≤ cp.mwHeight) ∧ p.Pictures (chain.take cp.mwHeight) := by
  constructor
  · intro hok
    have hparts := hok
    simp only [Database.exportSnapshot, bind_eq_ok, orBail_eq_ok] at hparts
    obtain ⟨x, hstate, tip, -, _, hmatches, -⟩ := hparts
    obtain ⟨-, hle, hkept, t, ht, -⟩ :=
      (h.stateAt_iff ha hr hids hsub h.built hsub hlen _ _).mp hstate
    have hpos : cp.mwHeight ≠ 0 := by
      simp only [Checkpoint.matches, bind_eq_ok, bailIf_eq_ok, not_or, ne_eq, not_not] at hmatches
      obtain ⟨_, -, hheight, -⟩ := hmatches
      omega
    rcases List.eq_nil_or_concat (chain.take cp.mwHeight) with hnil | ⟨below, batch, hsplit⟩
    · have hzero := congrArg List.length hnil
      rw [List.length_take, List.length_nil] at hzero
      omega
    · rw [List.concat_eq_append] at hsplit
      have hn : cp.mwHeight = below.length + 1 := by
        have hcount := congrArg List.length hsplit
        rw [List.length_take, Nat.min_eq_left hle, List.length_append,
          List.length_singleton] at hcount
        exact hcount
      rw [hsplit] at ht
      obtain ⟨l, peaks, hl, hpeaks, hexport⟩ :=
        h.exportSnapshot_eq ha hr hids hsub hlen hn hsplit hle hkept ht
      rw [hexport] at hok
      simp only [bind_eq_ok, bailIf_eq_ok, ne_eq, not_not, Except.ok.injEq] at hok
      obtain ⟨_, hdescribes, _, -, rfl⟩ := hok
      refine ⟨rfl, hle, hkept, below, batch, t, l, peaks, hsplit, ?_, ?_, hpeaks, hdescribes, ?_⟩
      · rw [hsplit]
        exact ht
      · rw [hsplit]
        exact hl
      · rw [hsplit]
        rfl
  · rintro ⟨rfl, hle, hkept, below, batch, t, l, peaks, hsplit, ht, hl, hpeaks, hdescribes, hp⟩
    obtain ⟨hheight, -, hstateRoot, -⟩ := Batch.matches_headerAt hdescribes
    have hn := hheight.symm
    rw [hsplit] at ht hl
    have hcount : (below ++ [batch]).length < 2 ^ 63 := by
      rw [← hsplit, List.length_take]
      omega
    have hroot := (ht.checkpointParts_root hcount).trans hstateRoot
    obtain ⟨l', peaks', hl', hpeaks', hexport⟩ :=
      h.exportSnapshot_eq ha hr hids hsub hlen hn hsplit hle hkept ht
    obtain rfl := hl.unique hl'
    rw [hpeaks, Except.ok.injEq] at hpeaks'
    subst hpeaks'
    rw [hexport, hdescribes, bind_ok, bailIf_neg (not_not_intro hroot), bind_ok, ← hsplit, ← hp]

end Database

/-- Nodes that export at one checkpoint export one snapshot, whatever they built above it or
reorganised away. -/
theorem exports_agree {db' : Database} {chain' : List Batch} {s' : State} {cp : Checkpoint}
    {p p' : Snapshot} (ha : StoredApart S) (hr : RecordsApart (chainRecords S))
    (hids : Set.InjOn (fun b : Batch => b.extension.finalHash) S)
    (h : Database.Made S db chain peak) (h' : Database.Made S db' chain' peak')
    (hcurrent : Built chain s) (hcurrent' : Built chain' s') (hlen : chain.length < 2 ^ 63)
    (hlen' : chain'.length < 2 ^ 63) (hp : db.exportSnapshot s cp = .ok p)
    (hp' : db'.exportSnapshot s' cp = .ok p') : p = p' := by
  obtain ⟨t, kept, hkeeps, -, -, hsub⟩ := h.keeps ha
  obtain rfl := hcurrent.unique hkeeps.built
  obtain ⟨t', kept', hkeeps', -, -, hsub'⟩ := h'.keeps ha
  obtain rfl := hcurrent'.unique hkeeps'.built
  obtain ⟨rfl, hle, -, hpicture⟩ := (hkeeps.exportSnapshot_iff ha hr hids hsub hlen cp p).mp hp
  obtain ⟨hsame, hle', -, hpicture'⟩ :=
    (hkeeps'.exportSnapshot_iff ha hr hids hsub' hlen' _ p').mp hp'
  have htip : ∀ {held : List Batch} {q : Snapshot}, q.Pictures (held.take p.checkpoint.mwHeight) →
      q.checkpoint = p.checkpoint → p.checkpoint.mwHeight ≤ held.length →
        ∃ batch, held[p.checkpoint.mwHeight - 1]? = some batch ∧
          batch.extension.finalHash = p.checkpoint.mwHeaderHash := by
    intro held q hq he hc
    obtain ⟨below, batch, t, l, peaks, hsplit, -, -, -, hdescribes, -⟩ := hq
    obtain ⟨hheight, hhash, -⟩ := Batch.matches_headerAt hdescribes
    rw [he] at hheight hhash
    refine ⟨batch, ?_, hhash⟩
    rw [← List.getElem?_take_of_lt (show _ < p.checkpoint.mwHeight by omega), hsplit, ← hheight,
      Nat.add_sub_cancel, List.getElem?_concat_length]
  obtain ⟨batch, hat, hhash⟩ := htip hpicture rfl hle
  obtain ⟨batch', hat', hhash'⟩ := htip hpicture' hsame hle'
  have htake := hcurrent.take_eq hids hcurrent' hsub hsub' hat hat' (hhash.trans hhash'.symm)
  have hpos : p.checkpoint.mwHeight - 1 + 1 = p.checkpoint.mwHeight := by
    obtain ⟨below, batch, t, l, peaks, -, -, -, -, hdescribes, -⟩ := hpicture
    have hheight := (Batch.matches_headerAt hdescribes).1
    omega
  rw [hpos] at htake
  rw [← htake] at hpicture'
  exact hpicture.unique hpicture' hsame.symm

theorem Snapshot.exists_pictures {cp : Checkpoint} {below : List Batch} {batch : Batch} {l : Ledger}
    (ht : Built (below ++ [batch]) t) (hl : Ledger.Of (below ++ [batch]) l)
    (hlen : below.length < 2 ^ 63)
    (hdescribes : cp.matches (batch.headerAt below.length) t.depth = .ok ()) :
    ∃ p : Snapshot, p.checkpoint = cp ∧ p.Pictures (below ++ [batch]) := by
  obtain ⟨f, hcrest, hcount⟩ := crested_mmrOf hlen
  have hpeaks := hcrest.peakValues (by rw [hcount]; exact hlen)
  exact ⟨.picture cp (below ++ [batch]) t l _, rfl, below, batch, t, l, _, rfl, ht, hl, hpeaks,
    hdescribes, rfl⟩

end Exports

section Compared

local instance comparedWords : Primitives := racedPrimitives

/-- The checkpoint at the block of the second branch that registers the bond. -/
def forkedCheckpoint : Checkpoint :=
  ⟨checkpointVersion, networkAnchor, 3, newMiddle.extension.finalHash, newMiddle.stateRoot,
    newMiddleState.depth, 0⟩

theorem forkedCheckpoint_describes :
    forkedCheckpoint.matches (newMiddle.headerAt 2) newMiddleState.depth = .ok () := by
  rw [Checkpoint.matches, bailIf_neg (by simp [forkedCheckpoint]), bind_ok, bailIf_neg]
  simp [forkedCheckpoint, Batch.headerAt, Batch.header]

theorem forked_pictured : ∃ p : Snapshot, p.checkpoint = forkedCheckpoint ∧
    p.Pictures [.genesis, newBlock, newMiddle] := by
  obtain ⟨db, hmade⟩ := forked_behind
  obtain ⟨s, kept, hkeeps, -, -, -⟩ := hmade.keeps forked_apart
  have hbuilt : Built ([.genesis, newBlock] ++ [newMiddle]) newMiddleState :=
    newMiddleState_chain.built
  have hledger : Ledger.Of ([.genesis, newBlock] ++ [newMiddle]) db.rootRelay.ledger :=
    hkeeps.holds.ledger
  exact Snapshot.exists_pictures hbuilt hledger (by decide) forkedCheckpoint_describes

/-- So does the node that never held the first branch, at its tip: the two snapshots are one. -/
theorem exports_agree_forked : ∃ (db db' : Database) (p : Snapshot),
    Database.Made forkedBlocks db [.genesis, newBlock, newMiddle, newTop] 4 ∧
      Database.Made forkedBlocks db' [.genesis, newBlock, newMiddle] 3 ∧
        db.exportSnapshot newTopState forkedCheckpoint = .ok p ∧
          (db'.exportSnapshot newMiddleState forkedCheckpoint).isOk = true ∧
            ∀ p', db'.exportSnapshot newMiddleState forkedCheckpoint = .ok p' → p = p' := by
  obtain ⟨db, hmade⟩ := forked_reorganised
  obtain ⟨db', hmade'⟩ := forked_behind
  obtain ⟨p, hcp, hpicture⟩ := forked_pictured
  obtain ⟨s, kept, hkeeps, hkept, -, hsub⟩ := hmade.keeps forked_apart
  obtain rfl := newTopState_chain.built.unique hkeeps.built
  obtain ⟨s', kept', hkeeps', -, -, hsub'⟩ := hmade'.keeps forked_apart
  obtain rfl := newMiddleState_chain.built.unique hkeeps'.built
  have hzero : kept ≤ 3 := Nat.le_trans hkept (by decide)
  have hp := (hkeeps.exportSnapshot_iff forked_apart forked_records forked_ids hsub (by decide)
    forkedCheckpoint p).mpr ⟨hcp, by decide, .inr hzero, hpicture⟩
  have hp' := (hkeeps'.exportSnapshot_iff forked_apart forked_records forked_ids hsub' (by decide)
    forkedCheckpoint p).mpr ⟨hcp, Nat.le_refl 3, .inl rfl, hpicture⟩
  refine ⟨db, db', p, hmade, hmade', hp, by rw [hp']; rfl, ?_⟩
  intro q hq
  exact exports_agree forked_apart forked_records forked_ids hmade hmade' newTopState_chain.built
    newMiddleState_chain.built (by decide) (by decide) hp hq

end Compared

end Midwimble
