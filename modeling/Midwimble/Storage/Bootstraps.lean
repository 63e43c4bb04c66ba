import Midwimble.Merkle.PeaksOnly
import Midwimble.Storage.Validated

namespace Midwimble
open Fallible OrderedMap SlidingWindow
set_option autoImplicit true

/-- How many blocks below a height the schedule rewards. -/
def rewardedBelow (height : Nat) : Nat :=
  emission.finalRewardHeight.elim (height - 1) fun final => min final (height - 1)

section Bootstraps

variable [Primitives]

theorem Built.audited {blocks : List Batch} {t : State} (h : Built blocks t) : Audited t := by
  induction h with
  | genesis => exact audited_genesis
  | block _ hok ih =>
    obtain ⟨-, hheader, b, -, rfl⟩ := applyBatchInternal_eq_ok.mp hok
    exact b.audited ih (b.balance hheader)

theorem Built.tip_fields {below : List Batch} {batch : Batch} {t : State}
    (h : Built (below ++ [batch]) t) :
    (batch.headerAt below.length).postTxMidstate = t.mwMidstate ∧
      calculateTarget t.height t.timestamp = t.target ∧
        (batch.headerAt below.length).timestamp = t.timestamp := by
  obtain ⟨s, -, now, pre, skip, hok⟩ := h.last
  obtain ⟨hl, -, b, -, rfl⟩ := applyBatchInternal_eq_ok.mp hok
  rw [b.next_eq]
  refine ⟨?_, rfl, rfl⟩
  show foldBlock batch.prevMidstate batch = _
  rw [(checkLinkage_eq_ok.mp hl).1]

namespace Snapshot

variable {S : Set Batch} {p : Snapshot} {blocks below : List Batch} {batch : Batch} {t : State}
  {l : Ledger}

theorem utxo_fold_new {ps : List (Point32 × UtxoEntry)}
    {acc : Std.ExtTreeMap Point32 UtxoEntry × Std.ExtTreeSet Bytes32}
    (hnodup : (ps.map Prod.fst).Nodup) (hnew : ∀ k ∈ ps.map Prod.fst, k ∉ acc.1) :
    ps.foldlM utxoStep acc =
      .ok (insertAll acc.1 ps,
        ps.foldl (fun leaves q => leaves.insert (utxoLeaf q.1 q.2)) acc.2) := by
  induction ps generalizing acc with
  | nil => rfl
  | cons q ps ih =>
    obtain ⟨hout, hnodup⟩ := List.nodup_cons.mp hnodup
    rw [foldlM_cons_eq_ok]
    refine ⟨_, utxoStep_eq_ok.mpr ⟨hnew _ List.mem_cons_self, rfl⟩, ?_⟩
    apply ih hnodup
    intro k hk
    rw [Std.ExtTreeMap.mem_insert, Std.LawfulEqCmp.compare_eq_iff_eq, not_or]
    refine ⟨?_, hnew k (List.mem_cons_of_mem _ hk)⟩
    rintro rfl
    exact hout hk

theorem utxoState_of_state (hutxos : p.utxos = t.utxos.toList)
    (hroot : p.parts.utxoRoot = t.utxoSet.root true) (hleafed : t.Leafed) :
    p.utxoState = .ok (t.utxos, t.utxoSet) := by
  have hfold : p.utxos.foldlM utxoStep (∅, ∅) = .ok (t.utxos, t.utxoSet.coins) := by
    rw [hutxos, utxo_fold_new (List.pairwise_map.mpr (pairwise_toList t.utxos))
      fun k _ => Std.ExtTreeMap.not_mem_empty, insertAll_toList,
      (leavesOf_foldl (fun q => utxoLeaf q.1 q.2) t.utxos).unique hleafed]
  show p.utxos.foldlM utxoStep (∅, ∅) >>= _ = _
  rw [hfold, bind_ok]
  show (do bailIf ((⟨t.utxoSet.coins⟩ : UtxoAccumulator).root true ≠ p.parts.utxoRoot) _; _) = _
  rw [bailIf_neg (not_not_intro hroot.symm), bind_ok]

/-- The kernels of validated blocks rebuild the accumulator. -/
theorem kernelState_of_state (hkernels : p.kernels = l.kernels.toList.map Prod.snd)
    (htells : l.Tells t) (hperm : (l.kernels.toList.map Prod.snd).Perm (chainKernels blocks))
    (hbuilt : Built blocks t) (hchecked : ∀ b ∈ blocks, b.Checked)
    (hkernelRoot : p.parts.kernelRoot = t.kernels.root true)
    (hexcess : p.parts.kernelExcessSum = t.kernelExcessSum)
    (hminted : rewardedBelow p.checkpoint.mwHeight ≤ blocks.countP fun b => b.coinbase.isSome) :
    p.kernelState = .ok t.kernels := by
  have hin : ∀ k ∈ p.kernels, k ∈ chainKernels blocks := by
    intro k hk
    rw [hkernels] at hk
    exact hperm.mem_iff.mp hk
  have hids : p.kernels.map Kernel.id = l.kernels.toList.map Prod.fst := by
    rw [hkernels, List.map_map]
    apply List.map_congr_left
    intro q hq
    exact htells.kernel_id _ _ (Std.ExtTreeMap.mem_toList_iff_getElem?_eq_some.mp hq)
  have hset : (⟨Std.ExtTreeSet.ofList (p.kernels.map Kernel.id)⟩ : UtxoAccumulator) =
      t.kernels := by
    have hcoins : Std.ExtTreeSet.ofList (p.kernels.map Kernel.id) = t.kernels.coins := by
      apply Std.ExtTreeSet.ext_mem
      intro id
      rw [Std.ExtTreeSet.mem_ofList, List.contains_iff_mem, hids, ← htells.kernels,
        mem_keys_toList]
    rw [hcoins]
  have hvalid : (!p.kernels.all fun k =>
      decide (k.checkRules = .ok ()) && k.verifySignature) ≠ true := by
    rw [ne_eq, Bool.not_eq_true', Bool.not_eq_false, List.all_eq_true]
    intro k hk
    obtain ⟨b, hb, hkb⟩ := List.mem_flatMap.mp (hin k hk)
    obtain ⟨hrules, hsigned⟩ := (hchecked b hb).kernels k hkb
    rw [decide_eq_true hrules, hsigned]
    rfl
  have hsize : (Std.ExtTreeSet.ofList (p.kernels.map Kernel.id)).size = p.kernels.length := by
    rw [Std.ExtTreeSet.size_ofList, List.length_map]
    rw [hids]
    exact (pairwise_toList l.kernels).map _ fun a b hne => by
      rwa [Std.LawfulEqCmp.compare_eq_iff_eq]
  obtain ⟨hdecodes, hsum⟩ := hbuilt.excess
  have htotal : sumPoints (p.kernels.map Kernel.excess) =
      .ok (pointSum ((chainKernels blocks).map Kernel.excess)) := by
    rw [sumPoints_eq_ok]
    constructor
    · intro c hc
      obtain ⟨k, hk, rfl⟩ := List.mem_map.mp hc
      exact hdecodes k (hin k hk)
    · rw [hkernels]
      exact (((hperm.map Kernel.excess).map point).sum_eq).symm
  have hcount : rewardedBelow p.checkpoint.mwHeight ≤
      (p.kernels.filter fun k => k.features = .coinbase).length := by
    rw [hkernels, (hperm.filter _).length_eq]
    exact hminted.trans (coinbases_le hchecked)
  simp only [kernelState, bind_eq_ok, bailIf_eq_ok]
  refine ⟨(), hvalid, (), not_not_intro hsize, (), ?_, _, htotal, (), ?_, (), ?_, ?_⟩
  · rw [hset]
    exact not_not_intro hkernelRoot.symm
  · rw [hexcess, hsum]
    exact not_not_intro rfl
  · unfold rewardedBelow at hcount
    cases hfinal : emission.finalRewardHeight with
    | none =>
      rw [hfinal] at hcount
      exact Nat.not_lt.mpr hcount
    | some final =>
      rw [hfinal] at hcount
      exact Nat.not_lt.mpr hcount
  · rw [hset]

omit [Primitives] in
theorem lastN_map {α β : Type} (f : α → β) (n : Nat) (l : List α) :
    lastN n (l.map f) = (lastN n l).map f := by
  rw [lastN, lastN, List.length_map, List.map_drop]

theorem windows_of_headers (h : Built blocks t) (bonds : BondSet)
    (hheaders : p.headers = lastN snapshotHeaders (blocks.zipIdx.map fun b => b.1.headerAt b.2)) :
    rebuildSignerWindow bonds
        ((p.headers.drop (p.headers.length - capWindow)).map BatchHeader.signer) = t.signers ∧
      rebuildWorkFloor ((p.headers.drop (p.headers.length - workCapWindow)).map fun h =>
        (h.height, calculateWork h.target)) = t.workFloor := by
  have hw := h.run.windowed
  have hsigned : (blocks.zipIdx.map fun b => b.1.headerAt b.2).map BatchHeader.signer =
      blocks.map Batch.signer := by
    rw [List.map_map]
    exact (List.map_map (g := Batch.signer) (f := Prod.fst)).symm.trans (by rw [List.zipIdx_map_fst])
  constructor
  · rw [← lastN, hheaders, lastN_lastN (show capWindow ≤ snapshotHeaders by decide), ← lastN_map,
      hsigned]
    have hshows := shows_rebuildSignerWindow bonds (lastN capWindow (blocks.map Batch.signer))
    apply SignerWindow.Shows.unique _ hw.signers
    refine ⟨?_, ?_⟩
    · rw [hshows.recent, lastN_lastN (Nat.le_refl _)]
    · exact hshows.tally
  · rw [← lastN, hheaders, lastN_lastN (show workCapWindow ≤ snapshotHeaders by decide), ← lastN_map,
      List.map_map]
    show rebuildWorkFloor (lastN workCapWindow (works blocks)) = t.workFloor
    have hcut := works_heights.drop (Nat.sub_le (works blocks).length workCapWindow)
    have hfloor := rebuildWorkFloor_floors hcut
    rw [← lastN] at hfloor
    rw [hfloor, lastN_lastN (Nat.le_refl _)]
    exact hw.floors.symm

theorem chainMmr_of_peaks {below : List Batch} {batch : Batch}
    (hpeaks : mmrPeakValues (mmrOf below) = .ok p.mmrPeaks)
    (hlen : (below ++ [batch]).length < 2 ^ 63) (hheight : p.checkpoint.mwHeight = below.length + 1)
    (hhash : p.checkpoint.mwHeaderHash = batch.extension.finalHash)
    (hroot : p.parts.chainMmrRoot = (mmrOf below).root true) :
    ∃ mmr, p.chainMmr = .ok mmr ∧ mmr.root true = (mmrOf (below ++ [batch])).root true ∧
      (mmr.truncated below.length).root true = (mmrOf below).root true := by
  rw [List.length_append, List.length_singleton] at hlen
  obtain ⟨f, hcrest, hcount⟩ := crested_mmrOf (Nat.lt_of_succ_lt hlen)
  obtain ⟨mmr, hmmr, hsame, hleaves⟩ := hcrest.fromPeaks (by omega)
  rw [hcrest.peakValues (by omega), Except.ok.injEq] at hpeaks
  have hroots : mmr.root true = (mmrOf below).root true := by
    rw [hsame.root (by omega), hcrest.root (by omega)]
  have hcut : (mmr.appendAll true [p.checkpoint.mwHeaderHash]).truncated below.length = _ :=
    hsame.truncated_appendAll (by omega) (by rw [List.length_singleton]; omega)
  refine ⟨mmr.append p.checkpoint.mwHeaderHash true, ?_, ?_, ?_⟩
  · rw [Snapshot.chainMmr, hheight, Nat.add_sub_cancel, ← hpeaks, ← hcount, hmmr, bind_ok,
      bailIf_neg (not_not_intro (hroots.trans hroot.symm)), bind_ok]
  · rw [hhash, mmrOf_append, (hsame.append (by omega)).root (by show mmr.leafCount + 1 < _; omega),
      (hcrest.append (by omega)).root (by show (mmrOf below).leafCount + 1 < _; omega)]
  · rw [hleaves, hcount, Nat.sub_self, List.take_zero] at hcut
    exact (congrArg (fun m => m.root true) hcut).trans hroots

theorem nodup_places (g : StoredGroup) : g.places.Nodup := by
  have hplaces : (g.members.zipIdx.map Prod.snd).Nodup := by
    rw [List.zipIdx_map_snd]
    exact List.nodup_range'
  rw [StoredGroup.places, List.Nodup, List.pairwise_filterMap]
  refine (List.pairwise_map.mp hplaces).imp ?_
  rintro ⟨m, i⟩ ⟨m', i'⟩ hne x hx y hy rfl
  cases m with
  | unspent o =>
    cases m' with
    | unspent o' =>
      have he := hx.trans hy.symm
      simp only [Option.some.injEq, Prod.mk.injEq] at he
      exact hne he.2.2
    | spent c' v' => cases hy
  | spent c v => cases hx

/-- No output of a chain's tables is in two places. -/
theorem nodup_covered (h : l.Covers blocks) :
    (((l.groups.toList.map Prod.snd).flatMap StoredGroup.unspent).map Output.commitment).Nodup := by
  have hplaces : ∀ x ∈ (l.groups.toList.map Prod.snd).flatMap StoredGroup.places,
      l.members[x.1]? = some x.2 := by
    rintro ⟨c, gid, i⟩ hx
    obtain ⟨g, hg, hx⟩ := List.mem_flatMap.mp hx
    obtain ⟨⟨gid', g⟩, hrow, rfl⟩ := List.mem_map.mp hg
    have hstored := Std.ExtTreeMap.mem_toList_iff_getElem?_eq_some.mp hrow
    obtain ⟨rfl, o, ho, rfl⟩ := StoredGroup.mem_places.mp hx
    rw [h.id_eq hstored]
    exact h.covered _ _ _ _ hstored ho
  have hkeys : ((l.groups.toList.map Prod.snd).flatMap StoredGroup.places).map Prod.fst =
      ((l.groups.toList.map Prod.snd).flatMap StoredGroup.unspent).map Output.commitment := by
    rw [List.map_flatMap, List.map_flatMap]
    congr 1
    funext g
    exact g.keys_places
  rw [← hkeys]
  apply List.Nodup.map_on
  · intro x hx y hy he
    have hsame := hplaces x hx
    rw [he, hplaces y hy, Option.some.injEq] at hsame
    exact Prod.ext he hsame.symm
  · rw [List.nodup_flatMap]
    refine ⟨fun g _ => nodup_places g, ?_⟩
    rw [List.pairwise_map]
    refine (pairwise_toList l.groups).imp_of_mem ?_
    intro x y hx hy hne z hz hz'
    obtain ⟨c, gid, i⟩ := z
    have hxid := h.id_eq (Std.ExtTreeMap.mem_toList_iff_getElem?_eq_some.mp hx)
    have hyid := h.id_eq (Std.ExtTreeMap.mem_toList_iff_getElem?_eq_some.mp hy)
    apply hne
    rw [← hxid, ← hyid, (StoredGroup.mem_places.mp hz).1, (StoredGroup.mem_places.mp hz').1]

omit [Primitives] in
theorem mem_covered {o : Output} :
    o ∈ (l.groups.toList.map Prod.snd).flatMap StoredGroup.unspent ↔
      ∃ (gid : Bytes32) (g : StoredGroup) (i : Nat), l.groups[gid]? = some g ∧
        g.members[i]? = some (.unspent o) := by
  rw [List.mem_flatMap]
  constructor
  · rintro ⟨g, hg, ho⟩
    obtain ⟨⟨gid, g⟩, hstored, rfl⟩ := List.mem_map.mp hg
    rw [StoredGroup.unspent, List.mem_filterMap] at ho
    obtain ⟨m, hm, hrow⟩ := ho
    obtain ⟨i, hi⟩ := List.mem_iff_getElem?.mp hm
    cases m with
    | unspent o' =>
      cases hrow
      exact ⟨gid, g, i, Std.ExtTreeMap.mem_toList_iff_getElem?_eq_some.mp hstored, hi⟩
    | spent c m => cases hrow
  · rintro ⟨gid, g, i, hg, hi⟩
    refine ⟨g, List.mem_map_of_mem (Std.ExtTreeMap.mem_toList_iff_getElem?_eq_some.mpr hg), ?_⟩
    rw [StoredGroup.unspent, List.mem_filterMap]
    exact ⟨_, List.mem_of_getElem? hi, rfl⟩

theorem mem_covered_keys (h : l.Covers blocks) {c : Point32} :
    c ∈ ((l.groups.toList.map Prod.snd).flatMap StoredGroup.unspent).map Output.commitment ↔
      c ∈ l.utxos := by
  rw [← h.members, List.mem_map]
  constructor
  · rintro ⟨o, ho, rfl⟩
    obtain ⟨gid, g, i, hg, hi⟩ := mem_covered.mp ho
    exact mem_iff_exists.mpr ⟨_, h.covered gid g i o hg hi⟩
  · intro hc
    obtain ⟨⟨gid, i⟩, hc⟩ := mem_iff_exists.mp hc
    obtain ⟨g, o, hg, hi, rfl⟩ := h.place c gid i hc
    exact ⟨o, mem_covered.mpr ⟨gid, g, i, hg, hi⟩, rfl⟩

/-- The groups of validated blocks cover the records of their state. -/
theorem checkGroups_of_covers (h : l.Covers blocks) (hchecked : ∀ b ∈ blocks, b.Checked)
    (hgroups : p.groups = l.groups.toList.map Prod.snd) (hutxos : p.utxos = l.utxos.toList) :
    p.checkGroups = .ok () := by
  have hvalid : p.groups.all StoredGroup.verify = true := by
    rw [List.all_eq_true, hgroups]
    intro g hg
    obtain ⟨⟨gid, g⟩, hrow, rfl⟩ := List.mem_map.mp hg
    obtain ⟨b, hb, q, hq, -, spent, hg⟩ :=
      h.origin gid g (Std.ExtTreeMap.mem_toList_iff_getElem?_eq_some.mp hrow)
    obtain ⟨hstructure, hrange⟩ := (hchecked b hb).groups q hq
    rw [hg]
    exact StoredGroup.verify_after hstructure hrange spent
  have hids : (p.groups.map StoredGroup.id).Nodup := by
    have hkeys : p.groups.map StoredGroup.id = l.groups.toList.map Prod.fst := by
      rw [hgroups, List.map_map]
      apply List.map_congr_left
      intro q hq
      exact h.id_eq (Std.ExtTreeMap.mem_toList_iff_getElem?_eq_some.mp hq)
    rw [hkeys]
    exact List.pairwise_map.mpr (pairwise_toList l.groups)
  have hlive : p.groups.any StoredGroup.isFullySpent = false := by
    rw [List.any_eq_false, hgroups]
    intro g hg
    obtain ⟨⟨gid, g⟩, hrow, rfl⟩ := List.mem_map.mp hg
    rw [h.live gid g (Std.ExtTreeMap.mem_toList_iff_getElem?_eq_some.mp hrow)]
    exact Bool.false_ne_true
  have hapart := nodup_covered h
  have hrows : (p.utxos.map Prod.fst).Nodup := by
    rw [hutxos]
    exact List.pairwise_map.mpr (pairwise_toList l.utxos)
  have hsame : ∀ c, c ∈ ((l.groups.toList.map Prod.snd).flatMap StoredGroup.unspent).map
      Output.commitment ↔ c ∈ p.utxos.map Prod.fst := by
    intro c
    rw [mem_covered_keys h, hutxos, mem_keys_toList]
  have hcount : ((l.groups.toList.map Prod.snd).flatMap StoredGroup.unspent).length =
      p.utxos.length := by
    have hperm := (List.perm_ext_iff_of_nodup hapart hrows).mpr hsame
    have hlength := hperm.length_eq
    rwa [List.length_map, List.length_map] at hlength
  rw [← hgroups] at hapart hcount
  simp only [checkGroups, bind_eq_ok, bailIf_eq_ok, checkAll_eq_ok, orBail_eq_ok]
  refine ⟨(), by simp [hvalid], (), by simp [hids, hlive], (), not_not_intro hapart, (),
    not_not_intro hcount, ?_⟩
  intro q hq
  rw [← hgroups] at hsame
  obtain ⟨o, ho, hkey⟩ := List.mem_map.mp ((hsame q.1).mpr (List.mem_map_of_mem hq))
  cases hfind : (p.groups.flatMap StoredGroup.unspent).find? fun o => o.commitment = q.1 with
  | none =>
    have hnone := List.find?_eq_none.mp hfind o ho
    rw [decide_eq_true_eq] at hnone
    exact absurd hkey hnone
  | some o' =>
    have hkey' := List.find?_some hfind
    rw [decide_eq_true_eq] at hkey'
    have ho' := List.mem_of_find?_eq_some hfind
    rw [hgroups] at ho'
    obtain ⟨gid, g, i, hg, hi⟩ := mem_covered.mp ho'
    rw [hutxos] at hq
    have hrecord := Std.ExtTreeMap.mem_toList_iff_getElem?_eq_some.mp hq
    rw [← hkey'] at hrecord
    obtain ⟨hhash, howner, hrecovery⟩ := h.record gid g i o' q.2 hg hi hrecord
    refine ⟨o', rfl, ?_⟩
    simp [hhash, howner, hrecovery]

theorem checkHeaders_of_chain {below : List Batch} {batch : Batch} {depth : Nat}
    (h : Chain latest (below ++ [batch]) t) (hfits : WorkFits (below ++ [batch])) {cp : Checkpoint}
    (hdescribes : cp.matches (batch.headerAt below.length) depth = .ok ()) :
    (lastN snapshotHeaders ((below ++ [batch]).zipIdx.map fun b => b.1.headerAt b.2)).getLast? =
        some (batch.headerAt below.length) ∧
      checkHeaders cp
        (lastN snapshotHeaders ((below ++ [batch]).zipIdx.map fun b => b.1.headerAt b.2)) =
          .ok () := by
  obtain ⟨hheight, hhash, hroot, -⟩ := Batch.matches_headerAt hdescribes
  have hlength : ((below ++ [batch]).zipIdx.map fun b => b.1.headerAt b.2).length =
      cp.mwHeight := by
    rw [List.length_map, List.length_zipIdx, List.length_append, List.length_singleton, hheight]
  have hwhole : ((below ++ [batch]).zipIdx.map fun b => b.1.headerAt b.2).getLast? =
      some (batch.headerAt below.length) := by
    rw [List.zipIdx_append, List.map_append, List.getLast?_append]
    simp
  have hlast : (lastN snapshotHeaders
      ((below ++ [batch]).zipIdx.map fun b => b.1.headerAt b.2)).getLast? =
        some (batch.headerAt below.length) := by
    rw [lastN, List.getLast?_drop, if_neg, hwhole]
    have hpos : 0 < snapshotHeaders := by decide
    omega
  refine ⟨hlast, ?_⟩
  simp only [checkHeaders, hlast, orBail_some, bind_ok, bind_eq_ok, bailIf_eq_ok, checkAll_eq_ok]
  refine ⟨(), ?_, (), ?_, (), ?_, ?_⟩
  · simp only [not_or, ne_eq, not_not]
    exact ⟨hheight, hhash, hroot⟩
  · rw [lastN, List.length_drop, hlength, not_not]
    omega
  · exact checkHeaderLinks_of_chain ((h.built.follows hfits).drop _)
  · intro x hx hbad
    exact hbad.2 (h.worked x (List.mem_of_mem_drop hx) hbad.1)

/-- A snapshot of validated blocks verifies, with the state the blocks leave. -/
theorem Pictures.verify (h : p.Pictures blocks) (hchain : Chain latest blocks t)
    (ha : StoredApart S) (hr : RecordsApart (chainRecords S)) (hsub : ∀ c ∈ blocks, c ∈ S)
    (hlen : blocks.length < 2 ^ 63) (hfits : WorkFits blocks)
    (hminted : rewardedBelow p.checkpoint.mwHeight ≤ blocks.countP fun b => b.coinbase.isSome) :
    ∃ mmr, mmr.root true = t.chainMmr.root true ∧
      p.verify p.checkpoint.id = .ok { t with effects := .empty, chainMmr := mmr } := by
  obtain ⟨below, batch, t', l, peaks, rfl, ht, hl, hpeaks, hdescribes, hp⟩ := h
  obtain rfl := ht.unique hchain.built
  obtain ⟨hheight, hhash, hroot, hdepth⟩ := Batch.matches_headerAt hdescribes
  have hstands := hl.stands ha ht hsub
  have hchecked := hchain.checked
  obtain ⟨hlast, hheaders⟩ := checkHeaders_of_chain hchain hfits hdescribes
  have hparts : p.parts = t'.checkpointParts := congrArg Snapshot.parts hp
  have hpheaders : (Snapshot.picture p.checkpoint (below ++ [batch]) t' l peaks).headers =
      lastN snapshotHeaders ((below ++ [batch]).zipIdx.map fun b => b.1.headerAt b.2) := by
    rw [lastN, List.length_map, List.length_zipIdx, Snapshot.picture]
  rw [← hp] at hpheaders
  rw [← hpheaders] at hlast hheaders
  have hppeaks : mmrPeakValues (mmrOf below) = .ok p.mmrPeaks :=
    hpeaks.trans (congrArg Except.ok (congrArg Snapshot.mmrPeaks hp).symm)
  have hputxos : p.utxos = t'.utxos.toList := congrArg Snapshot.utxos hp
  have hpgroups : p.groups = l.groups.toList.map Prod.snd := congrArg Snapshot.groups hp
  have hpkernels : p.kernels = l.kernels.toList.map Prod.snd := congrArg Snapshot.kernels hp
  have hpbonds : p.bonds = t'.bonds.entries.toList := congrArg Snapshot.bonds hp
  have hprelay : p.relay = t'.relay.values := congrArg Snapshot.relay hp
  have hbelow : t'.height - 1 = below.length := by
    rw [ht.height, List.length_append, List.length_singleton, Nat.add_sub_cancel]
  have hmmrRoot : p.parts.chainMmrRoot = (mmrOf below).root true := by
    rw [hparts]
    show (t'.chainMmr.truncated (t'.height - 1)).root true = _
    rw [ht.chainMmr, mmrOf_truncated hlen, hbelow, List.take_left]
  obtain ⟨mmr, hmmr, hwhole, hcut⟩ := chainMmr_of_peaks hppeaks hlen hheight.symm hhash.symm hmmrRoot
  have hutxos := utxoState_of_state hputxos (congrArg StateRootParts.utxoRoot hparts)
    (ht.leafed hr hsub)
  have hkernels := kernelState_of_state hpkernels hstands.tells (hl.kernels_perm ha hsub) ht hchecked
    (congrArg StateRootParts.kernelRoot hparts) (congrArg StateRootParts.kernelExcessSum hparts)
    hminted
  have hgroups := checkGroups_of_covers (p := p) hstands.covers hchecked hpgroups
    (by rw [hputxos, hstands.tells.utxos])
  have hwindows := windows_of_headers ht t'.bonds hpheaders
  have hreadBonds : p.bonds.foldl (fun b q => (b.insert q.1 q.2).2) BondSet.empty = t'.bonds := by
    rw [hpbonds]
    exact readBonds_eq ht ha hsub
  have hbondsAndRelay : p.bondsAndRelay = .ok (t'.bonds, t'.relay) := by
    obtain ⟨full, es, hs, htags⟩ := hstands.relayed
    have hvalues : t'.relay.values = es := hs.values
    have hread := hs.fromEntries htags
    rw [← hvalues, ← hprelay] at hread
    have hroot : t'.relay.commitment = p.parts.relayRoot :=
      (congrArg StateRootParts.relayRoot hparts).symm
    rw [bondsAndRelay, hreadBonds, hread, bailIf_neg, bind_ok, bind_ok,
      bailIf_neg (not_not_intro hroot), bind_ok]
    rw [hpbonds, Std.ExtTreeMap.length_toList]
    exact not_not_intro rfl
  obtain ⟨-, hcapped, htip⟩ := ht.run.weighed hfits
  have hweight : t'.depth - t'.capped = batch.chainWeight := htip batch List.getLast?_concat
  have hheld : p.checkpoint.mwCumulativeWork - (batch.headerAt below.length).chainWeight =
      t'.capped := by
    show p.checkpoint.mwCumulativeWork - batch.chainWeight = t'.capped
    omega
  have htaken : p.checkpoint.mwHeight = t'.height := by
    rw [ht.height, List.length_append, List.length_singleton, hheight]
  obtain ⟨hmid, htarget, htime⟩ := ht.tip_fields
  have hmwHash : p.checkpoint.mwHeaderHash = t'.headerHash := by
    rw [ht.headerHash, hhash]
  have hsame : (mmr.truncated (t'.height - 1)).root true =
      (t'.chainMmr.truncated (t'.height - 1)).root true := by
    rw [hbelow, hcut, ht.chainMmr, mmrOf_truncated hlen, List.take_left]
  have hmatches : p.checkpoint.matches (batch.headerAt below.length)
      p.checkpoint.mwCumulativeWork = .ok () := by
    rw [← hdepth]
    exact hdescribes
  refine ⟨mmr, by rw [hwhole, ht.chainMmr], ?_⟩
  simp only [Snapshot.verify, bind_eq_ok, bailIf_eq_ok, orBail_eq_ok, Prod.exists]
  refine ⟨(), not_not_intro rfl, _, hlast, (), hmatches, (), hheaders, (), ?_, _, _, hutxos, _,
    hkernels, (), hgroups, _, hmmr, (), ?_, _, _, hbondsAndRelay, ?_⟩
  · rw [hparts, ht.checkpointParts_root hlen]
    exact not_not_intro hroot
  · show ¬ p.checkpoint.mwCumulativeWork < batch.chainWeight
    omega
  · rw [hwindows.1, hwindows.2, hheld, hmid, htime, htaken, htarget, hmwHash, ← hdepth, hparts]
    refine ⟨(), ?_, (), ?_, (), ?_, rfl⟩
    · exact Nat.not_lt.mpr (supply_le_issuedBefore ⟨_, ht.run⟩)
    · have haudit : t'.verifySupply = .ok () := verifySupply_eq_ok.mpr ht.audited
      exact haudit
    · apply not_not_intro
      simp only [State.checkpointParts, hsame]
      rfl

end Snapshot

variable {S : Set Batch} {db : Database} {chain : List Batch} {s : State} {p : Snapshot}
  {cp : Checkpoint}

theorem Chain.take (h : Chain latest chain s) (n : Nat) :
    ∃ t, Chain latest (chain.take n) t := by
  induction h with
  | genesis => exact ⟨_, by rw [List.take_nil]; exact .genesis⟩
  | @block blocks s now batch s' hchain hnow hok ih =>
    by_cases hn : n ≤ blocks.length
    · rw [List.take_append_of_le_length hn]
      exact ih
    · refine ⟨s', ?_⟩
      rw [List.take_of_length_le (by rw [List.length_append, List.length_singleton]; omega)]
      exact hchain.block hnow hok

/-- What a node with validated blocks exports is accepted at its checkpoint; the node that starts
from it restarts with the state the blocks below left, however far the exporter had moved on. -/
theorem exports_bootstrap (ha : StoredApart S) (hr : RecordsApart (chainRecords S))
    (hids : Set.InjOn (fun b : Batch => b.extension.finalHash) S)
    (h : Database.Made S db chain peak) (hchain : Chain latest chain s) (hlen : chain.length < 2 ^ 63)
    (hfits : WorkFits chain) (hp : db.exportSnapshot s cp = .ok p)
    (hminted : rewardedBelow cp.mwHeight ≤
      (chain.take cp.mwHeight).countP fun b => b.coinbase.isSome) :
    ∃ t mmr db', Built (chain.take cp.mwHeight) t ∧ mmr.root true = t.chainMmr.root true ∧
      p.verify cp.id = .ok { t with effects := .empty, chainMmr := mmr } ∧
        Database.empty.importSnapshot p { t with effects := .empty, chainMmr := mmr } = .ok db' ∧
          db'.loadState = .ok (some { t with effects := .empty, chainMmr := mmr }) := by
  obtain ⟨s', kept, hkeeps, -, -, hsub⟩ := h.keeps ha
  obtain rfl := hchain.built.unique hkeeps.built
  obtain ⟨rfl, hle, -, hpicture⟩ := (hkeeps.exportSnapshot_iff ha hr hids hsub hlen cp p).mp hp
  obtain ⟨t, ht⟩ := hchain.take p.checkpoint.mwHeight
  have hcut : WorkFits (chain.take p.checkpoint.mwHeight) := by
    rw [← List.take_append_drop p.checkpoint.mwHeight chain] at hfits
    exact hfits.of_append
  obtain ⟨mmr, hroot, hverify⟩ := hpicture.verify ht ha hr
    (fun c hc => hsub c (List.mem_of_mem_take hc))
    (by rw [List.length_take]; omega) hcut hminted
  obtain ⟨db', himport, hload, -⟩ := (Snapshot.verify_eq_ok hverify).loadState
  exact ⟨t, mmr, db', ht.built, hroot, hverify, himport, hload⟩

end Bootstraps

section Fresh

local instance freshWords : Primitives := racedPrimitives

/-- A new node starts from what the reorganised node exports two blocks above genesis: two
coinbases, their groups and the bond. -/
theorem exports_bootstrap_forked : ∃ (db : Database) (p : Snapshot) (s : State) (db' : Database),
    Database.Made forkedBlocks db [.genesis, newBlock, newMiddle, newTop] 4 ∧
      db.exportSnapshot newTopState forkedCheckpoint = .ok p ∧
        p.verify forkedCheckpoint.id = .ok s ∧ s.utxos = newMiddleState.utxos ∧
          s.bonds = newMiddleState.bonds ∧ Database.empty.importSnapshot p s = .ok db' ∧
            db'.loadState = .ok (some s) := by
  obtain ⟨db, hmade⟩ := forked_reorganised
  obtain ⟨p, hcp, hpicture⟩ := forked_pictured
  obtain ⟨s, kept, hkeeps, hkept, -, hsub⟩ := hmade.keeps forked_apart
  obtain rfl := newTopState_chain.built.unique hkeeps.built
  have hzero : kept ≤ 3 := Nat.le_trans hkept (by decide)
  have hp := (hkeeps.exportSnapshot_iff forked_apart forked_records forked_ids hsub (by decide)
    forkedCheckpoint p).mpr ⟨hcp, by decide, .inr hzero, hpicture⟩
  obtain ⟨t, mmr, db', ht, -, hverify, himport, hload⟩ := exports_bootstrap forked_apart
    forked_records forked_ids hmade newTopState_chain (by decide) branches_fit.out.2 hp (by decide)
  obtain rfl := newMiddleState_chain.built.unique ht
  exact ⟨db, p, _, db', hmade, hp, hverify, rfl, rfl, himport, hload⟩

end Fresh

end Midwimble
