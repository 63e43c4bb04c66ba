import Midwimble.Storage.Pages

namespace Midwimble
open Fallible OrderedMap
set_option autoImplicit true

theorem mapM_range'_eq_ok {f : Nat → Result α} {ys : List α}
    (hf : ∀ i (hi : i < ys.length), f (start + i) = .ok ys[i]) :
    (List.range' start ys.length).mapM f = .ok ys := by
  induction ys generalizing start with
  | nil => rfl
  | cons y ys ih =>
    rw [List.length_cons, List.range'_succ, mapM_cons_eq_ok]
    refine ⟨y, ys, hf 0 (Nat.succ_pos _), ?_, rfl⟩
    apply ih
    intro i hi
    rw [Nat.add_right_comm, Nat.add_assoc]
    exact hf (i + 1) (Nat.succ_lt_succ hi)

section
variable [Primitives]

namespace BondSet

variable {b : BondSet} {ps : List (Bytes32 × BondEntry)}

theorem Committed.insert_new (h : b.Committed) {id : Bytes32} (hnew : b.get id = none)
    (e : BondEntry) : (b.insert id e).2.Committed := by
  intro leaf
  have hremove : b.remove id = b := by
    rw [BondSet.remove, show b.entries[id]? = none from hnew]
  rw [leaves_insert, hremove, mem_insert_coins, h leaf]
  constructor
  · rintro (rfl | ⟨k, d, hd, rfl⟩)
    · exact ⟨id, e, by rw [get_insert, if_pos rfl], rfl⟩
    · refine ⟨k, d, ?_, rfl⟩
      rw [get_insert, if_neg, hd]
      rintro rfl
      rw [hnew] at hd
      cases hd
  · rintro ⟨k, d, hd, rfl⟩
    rw [get_insert] at hd
    by_cases hk : id = k
    · rw [if_pos hk] at hd
      cases hd
      subst hk
      exact .inl rfl
    · rw [if_neg hk] at hd
      exact .inr ⟨k, d, hd, rfl⟩

theorem Committed.inserts_new (h : b.Committed) (hnodup : (ps.map Prod.fst).Nodup)
    (hnew : ∀ k ∈ ps.map Prod.fst, b.get k = none) :
    (ps.foldl (fun b p => (b.insert p.1 p.2).2) b).Committed := by
  induction ps generalizing b with
  | nil => exact h
  | cons p ps ih =>
    obtain ⟨hout, hnodup⟩ := List.nodup_cons.mp hnodup
    apply ih (h.insert_new (hnew _ List.mem_cons_self) p.2) hnodup
    intro k hk
    rw [get_insert, if_neg]
    · exact hnew k (List.mem_cons_of_mem _ hk)
    · rintro rfl
      exact hout hk

theorem Committed.readBonds (h : b.Committed) : readBonds b.entries = b := by
  apply Committed.eq _ h (entries_readBonds _)
  apply committed_empty.inserts_new
  · exact List.pairwise_map.mpr (pairwise_toList b.entries)
  · intro k _
    simp [BondSet.empty, BondSet.get]

end BondSet

namespace Snapshot

variable {p : Snapshot} {s : State}

/-- The step of `utxo_state`: one record of a snapshot, which must be new. -/
def utxoStep (acc : Std.ExtTreeMap Point32 UtxoEntry × Std.ExtTreeSet Bytes32)
    (q : Point32 × UtxoEntry) :
    Result (Std.ExtTreeMap Point32 UtxoEntry × Std.ExtTreeSet Bytes32) := do
  bailIf (acc.1.contains q.1) "duplicate UTXO in snapshot"
  .ok (acc.1.insert q.1 q.2, acc.2.insert (utxoLeaf q.1 q.2))

theorem utxoStep_eq_ok {acc out : Std.ExtTreeMap Point32 UtxoEntry × Std.ExtTreeSet Bytes32}
    {q : Point32 × UtxoEntry} : utxoStep acc q = .ok out ↔
      q.1 ∉ acc.1 ∧ (acc.1.insert q.1 q.2, acc.2.insert (utxoLeaf q.1 q.2)) = out := by
  simp only [utxoStep, bind_eq_ok, bailIf_eq_ok, Except.ok.injEq, exists_and_left, exists_const,
    Std.ExtTreeMap.contains_iff_mem]

theorem utxo_fold {ps : List (Point32 × UtxoEntry)}
    {acc out : Std.ExtTreeMap Point32 UtxoEntry × Std.ExtTreeSet Bytes32}
    (h : ps.foldlM utxoStep acc = .ok out)
    (hleaves : LeavesOf (fun q => utxoLeaf q.1 q.2) acc.1 acc.2) :
    out.1 = insertAll acc.1 ps ∧ LeavesOf (fun q => utxoLeaf q.1 q.2) out.1 out.2 ∧
      (ps.map Prod.fst).Nodup ∧ ∀ k ∈ ps.map Prod.fst, k ∉ acc.1 := by
  induction ps generalizing acc with
  | nil =>
    cases h
    exact ⟨rfl, hleaves, List.nodup_nil, fun k hk => absurd hk List.not_mem_nil⟩
  | cons q ps ih =>
    obtain ⟨next, hone, hrest⟩ := foldlM_cons_eq_ok.mp h
    obtain ⟨hfresh, rfl⟩ := utxoStep_eq_ok.mp hone
    have hnone : acc.1[q.1]? = none := by
      rw [Std.ExtTreeMap.getElem?_eq_none hfresh]
    obtain ⟨hout, hleaves', hnodup, hapart⟩ := ih hrest (hleaves.insert hnone)
    have hsplit : ∀ k ∈ ps.map Prod.fst, k ≠ q.1 ∧ k ∉ acc.1 := by
      intro k hk
      have hgone := hapart k hk
      rw [Std.ExtTreeMap.mem_insert, Std.LawfulEqCmp.compare_eq_iff_eq, not_or] at hgone
      exact ⟨Ne.symm hgone.1, hgone.2⟩
    refine ⟨hout, hleaves', List.nodup_cons.mpr ⟨fun hk => (hsplit _ hk).1 rfl, hnodup⟩, ?_⟩
    intro k hk
    rcases List.mem_cons.mp hk with rfl | hk
    · exact hfresh
    · exact (hsplit k hk).2

theorem utxoState_eq_ok {records : Std.ExtTreeMap Point32 UtxoEntry} {set : UtxoAccumulator}
    (h : p.utxoState = .ok (records, set)) :
    records = insertAll ∅ p.utxos ∧ LeavesOf (fun q => utxoLeaf q.1 q.2) records set.coins ∧
      (p.utxos.map Prod.fst).Nodup ∧ set.root true = p.parts.utxoRoot := by
  simp only [utxoState, bind_eq_ok, bailIf_eq_ok, Except.ok.injEq, Prod.mk.injEq, Prod.exists,
    ne_eq, not_not] at h
  obtain ⟨records', leaves, hfold, _, hroot, rfl, rfl⟩ := h
  obtain ⟨hrecords, hleaves, hnodup, -⟩ := utxo_fold hfold (leavesOf_empty _)
  exact ⟨hrecords, hleaves, hnodup, hroot⟩

theorem kernelState_eq_ok {ids : UtxoAccumulator} (h : p.kernelState = .ok ids) :
    (∀ id, id ∈ ids.coins ↔ id ∈ p.kernels.map Kernel.id) ∧ ids.root true = p.parts.kernelRoot := by
  simp only [kernelState, bind_eq_ok, bailIf_eq_ok, Except.ok.injEq, ne_eq, not_not] at h
  obtain ⟨_, -, _, -, _, hroot, _, -, _, -, _, -, rfl⟩ := h
  refine ⟨fun id => ?_, hroot⟩
  rw [Std.ExtTreeSet.mem_ofList, List.contains_iff_mem]

theorem bondsAndRelay_eq_ok {set : BondSet} {relay : Relay}
    (h : p.bondsAndRelay = .ok (set, relay)) :
    set.Committed ∧ set.entries = insertAll ∅ p.bonds ∧ Relay.fromEntries p.relay = .ok relay := by
  simp only [bondsAndRelay, bind_eq_ok, bailIf_eq_ok, Except.ok.injEq, Prod.mk.injEq, ne_eq,
    not_not] at h
  obtain ⟨_, hsize, rebuilt, hrelay, _, -, rfl, rfl⟩ := h
  have hentries := BondSet.entries_inserts p.bonds .empty
  rw [hentries] at hsize
  have hgrown : (insertAll BondSet.empty.entries p.bonds).size =
      BondSet.empty.entries.size + p.bonds.length := by
    rw [hsize, show BondSet.empty.entries.size = 0 from rfl, Nat.zero_add]
  have hnodup := (nodup_of_size_insertAll hgrown).1
  refine ⟨BondSet.committed_empty.inserts_new hnodup ?_, hentries, hrelay⟩
  intro k _
  simp [BondSet.empty, BondSet.get]

omit [Primitives] in
theorem heights_of_links {hs : List BatchHeader} {h : BatchHeader}
    (hok : checkHeaderLinks (h :: hs) = .ok ()) :
    (h :: hs).map BatchHeader.height = List.range' h.height (hs.length + 1) := by
  induction hs generalizing h with
  | nil => rfl
  | cons next hs ih =>
    rw [checkHeaderLinks] at hok
    simp only [bind_eq_ok, bailIf_eq_ok] at hok
    obtain ⟨_, hlink, _, -, hrest⟩ := hok
    have hnext : next.height = h.height + 1 := (not_or.mp hlink).1 |> not_not.mp
    rw [List.map_cons, ih hrest, List.length_cons, List.range'_succ (s := h.height), hnext]

/-- What verifying a snapshot establishes of it and of its state. -/
structure Verified (p : Snapshot) (s : State) : Prop where
  records : s.utxos = insertAll ∅ p.utxos
  nodup : (p.utxos.map Prod.fst).Nodup
  leafed : s.Leafed
  kernels : ∀ id, id ∈ s.kernels.coins ↔ id ∈ p.kernels.map Kernel.id
  bonds : s.bonds.Committed
  relay : Relay.fromEntries p.relay = .ok s.relay
  groups : p.checkGroups = .ok ()
  height : s.height = p.checkpoint.mwHeight
  depth : s.depth = p.checkpoint.mwCumulativeWork
  tip : ∃ below tip, p.headers = below ++ [tip] ∧ tip.height + 1 = s.height ∧
    tip.extension.finalHash = s.headerHash ∧ tip.stateRoot = p.parts.root
  heights : p.headers.map BatchHeader.height =
    List.range' (s.height - p.headers.length) p.headers.length
  length : p.headers.length = min s.height snapshotHeaders
  chainMmr : ∃ mmr, mmrFromPeaks (s.height - 1) p.mmrPeaks = .ok mmr ∧
    mmr.root true = p.parts.chainMmrRoot ∧ s.chainMmr = mmr.append s.headerHash true
  parts : s.checkpointParts = p.parts
  effects : s.effects = .empty
  signers : s.signers = rebuildSignerWindow s.bonds
    ((p.headers.drop (p.headers.length - capWindow)).map BatchHeader.signer)
  workFloor : s.workFloor = rebuildWorkFloor
    ((p.headers.drop (p.headers.length - workCapWindow)).map fun h =>
      (h.height, calculateWork h.target))

theorem heights_of_checkHeaders {hs : List BatchHeader} {cp : Checkpoint}
    (hok : checkHeaders cp hs = .ok ()) :
    ∃ below tip, hs = below ++ [tip] ∧ tip.height + 1 = cp.mwHeight ∧
      tip.extension.finalHash = cp.mwHeaderHash ∧ tip.stateRoot = cp.mwStateRoot ∧
        hs.map BatchHeader.height = List.range' (cp.mwHeight - hs.length) hs.length ∧
          hs.length = min cp.mwHeight snapshotHeaders := by
  simp only [checkHeaders, bind_eq_ok, bailIf_eq_ok, orBail_eq_ok, ne_eq, not_not, not_or] at hok
  obtain ⟨tip, hlast, _, ⟨hheight, hhash, hroot⟩, _, hlength, _, hlinks, -⟩ := hok
  obtain ⟨below, rfl⟩ := List.getLast?_eq_some_iff.mp hlast
  refine ⟨below, tip, rfl, hheight, hhash, hroot, ?_, hlength⟩
  cases hhs : below ++ [tip] with
  | nil => simp at hhs
  | cons first rest =>
    rw [hhs] at hlinks hlast hlength
    have hheights := heights_of_links hlinks
    have htop := congrArg List.getLast? hheights
    rw [List.getLast?_map, hlast, List.getLast?_range', Option.map_some,
      if_neg (Nat.succ_ne_zero _), Option.some.injEq] at htop
    have hfirst : cp.mwHeight - (rest.length + 1) = first.height := by
      rw [← hheight]
      omega
    rw [hheights, List.length_cons, hfirst]

theorem verify_eq_ok (h : p.verify trustedId = .ok s) : p.Verified s := by
  simp only [verify, bind_eq_ok, Prod.exists, bailIf_eq_ok, orBail_eq_ok, ne_eq, not_not] at h
  obtain ⟨_, -, tip, htip, _, -, _, hheaders, _, hparts, records, set, hrecords, ids, hids, _,
    hgroups, mmr, hmmr, _, -, bonds, relay, hbonds, _, -, _, -, _, hsame, hstate⟩ := h
  obtain ⟨below, last, hsplit, hheight, hhash, hroot, hheights, hlength⟩ :=
    heights_of_checkHeaders hheaders
  obtain ⟨hrecords, hleaves, hnodup, -⟩ := utxoState_eq_ok hrecords
  obtain ⟨hkernels, -⟩ := kernelState_eq_ok hids
  obtain ⟨hcommitted, -, hrelay⟩ := bondsAndRelay_eq_ok hbonds
  simp only [Snapshot.chainMmr, bind_eq_ok, bailIf_eq_ok, ne_eq, not_not] at hmmr
  obtain ⟨peaks, hpeaks, _, hpeaksRoot, happend⟩ := hmmr
  cases hstate
  constructor
  · exact hrecords
  · exact hnodup
  · exact hleaves
  · exact hkernels
  · exact hcommitted
  · exact hrelay
  · exact hgroups
  · rfl
  · rfl
  · exact ⟨below, last, hsplit, hheight, hhash, hroot.trans hparts.symm⟩
  · exact hheights
  · exact hlength
  · exact ⟨peaks, hpeaks, hpeaksRoot, (Except.ok.inj happend).symm⟩
  · exact hsame
  · rfl
  · dsimp only
  · dsimp only

namespace Verified

variable (h : p.Verified s)
include h

theorem consecutive {α : Type} (f : BatchHeader → α) :
    (p.headers.map fun x => (x.height, f x)).map Prod.fst =
      List.range' (s.height - p.headers.length) (p.headers.map fun x => (x.height, f x)).length := by
  rw [List.map_map, List.length_map]
  exact h.heights

theorem length_le : p.headers.length ≤ s.height := by
  rw [h.length]
  exact Nat.min_le_left _ _

theorem start_le {window : Nat} (hwindow : window ≤ snapshotHeaders) :
    s.height - p.headers.length ≤ s.height - window ∧
      s.height - window - (s.height - p.headers.length) = p.headers.length - window := by
  have hlength := h.length
  omega

theorem headerWorks {headers : Std.ExtTreeMap Nat BatchHeader}
    (hheaders : headers = insertAll ∅ (p.headers.map fun x => (x.height, x))) {window : Nat}
    (hwindow : window ≤ snapshotHeaders) :
    Midwimble.headerWorks headers (s.height - window) s.height =
      .ok ((p.headers.drop (p.headers.length - window)).map fun x =>
        (x.height, calculateWork x.target)) := by
  obtain ⟨hstart, hskip⟩ := h.start_le hwindow
  have hle := h.length_le
  have hrange : (s.height - p.headers.length) +
      (p.headers.map fun x => (x.height, x)).length = s.height := by
    rw [List.length_map]
    omega
  have hread := filter_consecutive (h.consecutive fun x => x) hstart hrange
  have hlength : (p.headers.drop (p.headers.length - window)).length =
      s.height - (s.height - window) := by
    rw [List.length_drop]
    have hlen := h.length
    omega
  rw [Midwimble.headerWorks, hheaders, toList_consecutive (h.consecutive fun x => x), hread, hskip,
    ← List.map_drop, List.map_map, bailIf_neg, bind_ok]
  · rfl
  · rw [List.length_map]
    exact not_not_intro hlength

theorem loggedSigners {signers : Std.ExtTreeMap Nat (Option Bytes32)}
    (batches : Std.ExtTreeMap Nat Batch)
    (hsigners : signers = insertAll ∅ (p.headers.map fun x => (x.height, x.signer))) :
    (List.range' (s.height - capWindow) (s.height - (s.height - capWindow))).mapM
        (loggedSigner signers batches) =
      .ok ((p.headers.drop (p.headers.length - capWindow)).map BatchHeader.signer) := by
  obtain ⟨hstart, hskip⟩ := h.start_le (show capWindow ≤ snapshotHeaders by decide)
  have hle := h.length_le
  have hlen := h.length
  have hlength : ((p.headers.drop (p.headers.length - capWindow)).map BatchHeader.signer).length =
      s.height - (s.height - capWindow) := by
    rw [List.length_map, List.length_drop]
    omega
  rw [← hlength]
  apply mapM_range'_eq_ok
  intro i hi
  rw [List.length_map, List.length_drop] at hi
  have hat : p.headers.length - capWindow + i < p.headers.length := by omega
  have hheight := congrArg (fun l => l[p.headers.length - capWindow + i]?) h.heights
  simp only [List.getElem?_map, List.getElem?_eq_getElem hat, Option.map_some,
    List.getElem?_range' hat, Option.some.injEq] at hheight
  have hrow := getElem?_insertAll_of_nodup (t := ∅) (nodup_consecutive (h.consecutive
    BatchHeader.signer)) (List.mem_map_of_mem (List.getElem_mem hat))
  rw [← hsigners, hheight] at hrow
  have hplace : s.height - capWindow + i = s.height - p.headers.length +
      1 * (p.headers.length - capWindow + i) := by omega
  rw [loggedSigner, hplace, hrow]
  simp only [List.getElem_map, List.getElem_drop]

end Verified

end Snapshot

theorem StoredGroup.mem_places {g : StoredGroup} {c : Point32} {gid : Bytes32} {i : Nat} :
    (c, gid, i) ∈ g.places ↔
      g.id = gid ∧ ∃ o, g.members[i]? = some (.unspent o) ∧ o.commitment = c := by
  rw [places, List.mem_filterMap]
  constructor
  · rintro ⟨⟨m, j⟩, hm, hrow⟩
    rw [List.mem_zipIdx_iff_getElem?] at hm
    cases m with
    | unspent o =>
      obtain ⟨rfl, rfl, rfl⟩ : o.commitment = c ∧ g.id = gid ∧ j = i := by
        simpa using hrow
      exact ⟨rfl, o, hm, rfl⟩
    | spent c' m' => cases hrow
  · rintro ⟨rfl, o, ho, rfl⟩
    exact ⟨(.unspent o, i), List.mem_zipIdx_iff_getElem?.mpr ho, rfl⟩

theorem StoredGroup.keys_places (g : StoredGroup) :
    g.places.map Prod.fst = g.unspent.map Output.commitment := by
  unfold StoredGroup.places StoredGroup.unspent
  generalize 0 = start
  generalize g.members = ms
  induction ms generalizing start with
  | nil => rfl
  | cons m ms ih =>
    cases m with
    | unspent o => exact congrArg (o.commitment :: ·) (ih (start + 1))
    | spent c m => exact ih (start + 1)

theorem importSnapshot_empty (p : Snapshot) (s : State) :
    ∃ db, Database.empty.importSnapshot p s = .ok db ∧
      db.ledger.utxos = insertAll ∅ p.utxos ∧
      db.ledger.kernels = insertAll ∅ (p.kernels.map fun k => (k.id, k)) ∧
      db.ledger.groups = insertAll ∅ (p.groups.map fun g => (g.id, g)) ∧
      db.ledger.members = insertAll ∅ (p.groups.flatMap StoredGroup.places) ∧
      db.ledger.bonds = insertAll ∅ s.bonds.entries.toList ∧
      db.ledger.relay = insertAll ∅ (s.relay.values.map fun e => (e.height, e)) ∧
      db.headers = insertAll ∅ (p.headers.map fun x => (x.height, x)) ∧
      db.signers = insertAll ∅ (p.headers.map fun x => (x.height, x.signer)) ∧
      db.capped[p.checkpoint.mwHeight - 1]? = some s.capped ∧
      db.stateMeta = some (.of s) ∧
      db.base = some ⟨p.checkpoint.mwHeight, p.mmrPeaks, p.checkpoint⟩ ∧
      db.finality.map FinalityInfo.floor = some p.checkpoint.mwHeight :=
  ⟨_, rfl, rfl, rfl, rfl, rfl, rfl, rfl, rfl, rfl,
    Std.ExtTreeMap.getElem?_insert_self, rfl, rfl, rfl⟩

namespace Snapshot.Verified

variable {p : Snapshot} {s : State}

/-- Each record of a verified snapshot is its own output's. -/
theorem covered (h : p.Verified s) :
    ((p.groups.flatMap StoredGroup.unspent).map Output.commitment).Nodup ∧
      (∀ c, c ∈ (p.groups.flatMap StoredGroup.unspent).map Output.commitment ↔
        c ∈ p.utxos.map Prod.fst) ∧
      ∀ q ∈ p.utxos, ∀ o ∈ p.groups.flatMap StoredGroup.unspent, o.commitment = q.1 →
        q.2.outputHash = o.metadataHash ∧ q.2.ownerKey = o.ownerKey ∧
          q.2.recoveryCommitment = o.recoveryCommitment := by
  have hall := h.groups
  simp only [checkGroups, bind_eq_ok, bailIf_eq_ok, checkAll_eq_ok, orBail_eq_ok, not_or, not_not,
    ne_eq] at hall
  obtain ⟨_, -, _, -, _, hapart, _, hcount, hrecords⟩ := hall
  refine ⟨hapart, ?_, ?_⟩
  · have hsub : p.utxos.map Prod.fst ⊆
        (p.groups.flatMap StoredGroup.unspent).map Output.commitment := by
      intro c hc
      obtain ⟨q, hq, rfl⟩ := List.mem_map.mp hc
      obtain ⟨o, hfind, -⟩ := hrecords q hq
      have hkey := List.find?_some hfind
      rw [decide_eq_true_eq] at hkey
      rw [← hkey]
      exact List.mem_map_of_mem (List.mem_of_find?_eq_some hfind)
    have hperm := (h.nodup.subperm hsub).perm_of_length_le (by
      rw [List.length_map, List.length_map]
      exact Nat.le_of_eq hcount)
    exact fun c => hperm.mem_iff.symm
  · intro q hq o ho hkey
    obtain ⟨o', hfind, hsame⟩ := hrecords q hq
    have hkey' := List.find?_some hfind
    rw [decide_eq_true_eq] at hkey'
    rwa [List.inj_on_of_nodup_map hapart ho (List.mem_of_find?_eq_some hfind)
      (hkey.trans hkey'.symm)]

/-- The groups of a verified snapshot hold exactly its records' outputs. -/
theorem grouped (h : p.Verified s) {l : Ledger}
    (hutxos : l.utxos = insertAll ∅ p.utxos)
    (hgroups : l.groups = insertAll ∅ (p.groups.map fun g => (g.id, g)))
    (hmembers : l.members = insertAll ∅ (p.groups.flatMap StoredGroup.places)) : l.Grouped := by
  have hall := h.groups
  simp only [checkGroups, bind_eq_ok, bailIf_eq_ok, not_or, not_not, Bool.not_eq_true,
    ne_eq] at hall
  obtain ⟨_, -, _, ⟨hids, hlive⟩, -⟩ := hall
  obtain ⟨hapart, hsame, hrecords⟩ := h.covered
  have hkeys : (p.groups.flatMap StoredGroup.places).map Prod.fst =
      (p.groups.flatMap StoredGroup.unspent).map Output.commitment := by
    rw [List.map_flatMap, List.map_flatMap]
    congr 1
    funext g
    exact g.keys_places
  have hgroup : ∀ (gid : Bytes32) g, l.groups[gid]? = some g ↔ g ∈ p.groups ∧ g.id = gid := by
    intro gid g
    have hnodup : ((p.groups.map fun g => (g.id, g)).map Prod.fst).Nodup := by
      rw [List.map_map]
      exact hids
    rw [hgroups, getElem?_insertAll_eq_some hnodup fun _ _ => Std.ExtTreeMap.getElem?_empty,
      Std.ExtTreeMap.getElem?_empty, or_iff_left (Option.some_ne_none _).symm, List.mem_map]
    simp
  have hmember : ∀ (c : Point32) (gid : Bytes32) (i : Nat), l.members[c]? = some (gid, i) ↔
      ∃ g ∈ p.groups, g.id = gid ∧ ∃ o, g.members[i]? = some (.unspent o) ∧ o.commitment = c := by
    intro c gid i
    rw [hmembers, getElem?_insertAll_eq_some (hkeys ▸ hapart)
      fun _ _ => Std.ExtTreeMap.getElem?_empty, Std.ExtTreeMap.getElem?_empty,
      or_iff_left (Option.some_ne_none _).symm, List.mem_flatMap]
    simp only [StoredGroup.mem_places]
  have hunspent : ∀ g ∈ p.groups, ∀ (i : Nat) o, g.members[i]? = some (.unspent o) →
      o ∈ p.groups.flatMap StoredGroup.unspent := by
    intro g hg i o ho
    apply List.mem_flatMap_of_mem hg
    rw [StoredGroup.unspent, List.mem_filterMap]
    exact ⟨_, List.mem_of_getElem? ho, rfl⟩
  constructor
  · intro c gid i hc
    obtain ⟨g, hg, hid, o, ho, hkey⟩ := (hmember c gid i).mp hc
    exact ⟨g, o, (hgroup gid g).mpr ⟨hg, hid⟩, ho, hkey⟩
  · intro gid g i o hg ho
    obtain ⟨hg, hid⟩ := (hgroup gid g).mp hg
    exact (hmember _ gid i).mpr ⟨g, hg, hid, o, ho, rfl⟩
  · intro gid g hg
    have hnone := List.any_eq_false.mp hlive g ((hgroup gid g).mp hg).1
    rwa [Bool.not_eq_true] at hnone
  · intro c
    rw [hmembers, hutxos, mem_insertAll, mem_insertAll, hkeys, hsame]
    simp
  · intro gid g i o e hg ho he
    have hmem := hunspent g ((hgroup gid g).mp hg).1 i o ho
    rw [hutxos, getElem?_insertAll_eq_some h.nodup fun _ _ => Std.ExtTreeMap.getElem?_empty,
      Std.ExtTreeMap.getElem?_empty, or_iff_left (Option.some_ne_none _).symm] at he
    exact hrecords _ he o hmem rfl

theorem stateRoot_eq (h : p.Verified s) {mmr : MerkleMountainRange}
    (hroot : mmr.root true = p.parts.chainMmrRoot) :
    { s with chainMmr := mmr }.stateRoot = p.parts.root := by
  have hparts : { s with chainMmr := mmr }.rootParts = p.parts := by
    rw [← h.parts] at hroot ⊢
    rw [State.checkpointParts, State.rootParts, hroot]
    rfl
  rw [State.stateRoot, hparts]

theorem relay_read (h : p.Verified s) :
    readRelay (insertAll ∅ (s.relay.values.map fun e => (e.height, e))) =
      .ok s.relay := by
  obtain ⟨hne, -, hlinks, -, hrelay⟩ := fromEntries_eq_ok.mp h.relay
  have hvalues : s.relay.values = p.relay :=
    (fromEntries_holds h.relay).1.values (links_rises hlinks)
  have hentries : s.relay.entries = insertAll ∅ (p.relay.map fun e => (e.height, e)) := by
    rw [hrelay, Relay.entries_insertAll]
    rfl
  have hlist : (insertAll ∅ (s.relay.values.map fun e => (e.height, e))).toList.map Prod.snd =
      p.relay := by
    rw [hvalues, ← hentries]
    exact hvalues
  rw [readRelay, hlist]
  cases hes : p.relay with
  | nil => exact absurd hes hne
  | cons e es =>
    show Except.mapError _ (Relay.fromEntries (e :: es)) = _
    rw [← hes, h.relay]
    rfl

end Snapshot.Verified

/-- A node that starts from a verified snapshot restarts with exactly the state verified. -/
theorem Snapshot.Verified.loadState {p : Snapshot} {s : State} (h : p.Verified s) :
    ∃ db, Database.empty.importSnapshot p s = .ok db ∧ db.loadState = .ok (some s) ∧
      db.ledger.Grouped ∧ db.ledger.utxos = s.utxos := by
  obtain ⟨db, himport, hutxos, hkernels, hgroups, hmembers, hbonds, hrelay, hheaders, hsigners,
    hcapped, hmeta, hbase, hfloor⟩ := importSnapshot_empty p s
  refine ⟨db, himport, ?_, h.grouped hutxos hgroups hmembers, hutxos.trans h.records.symm⟩
  obtain ⟨below, tip, hsplit, htip, hhash, hroot⟩ := h.tip
  obtain ⟨mmr, hpeaks, hmmrRoot, hmmr⟩ := h.chainMmr
  have hleaves : db.ledger.utxos.toList.foldl (fun leaves q => leaves.insert (utxoLeaf q.1 q.2))
      (∅ : Std.ExtTreeSet Bytes32) = s.utxoSet.coins := by
    rw [hutxos, ← h.records]
    exact (leavesOf_foldl (fun q => utxoLeaf q.1 q.2) s.utxos).unique h.leafed
  have hids : db.ledger.kernels.toList.foldl (fun ids q => ids.insert q.1)
      (∅ : Std.ExtTreeSet Bytes32) = s.kernels.coins := by
    apply Std.ExtTreeSet.ext_mem
    intro id
    rw [leavesOf_foldl (fun q => q.1) db.ledger.kernels id, h.kernels]
    have hkeys : id ∈ db.ledger.kernels ↔ id ∈ p.kernels.map Kernel.id := by
      rw [hkernels, mem_insertAll, List.map_map]
      simp
    rw [← hkeys, mem_iff_exists]
    constructor
    · rintro ⟨k, v, hk, rfl⟩
      exact ⟨v, hk⟩
    · rintro ⟨v, hv⟩
      exact ⟨id, v, hv, rfl⟩
  have hreadBonds : readBonds db.ledger.bonds = s.bonds := by
    rw [hbonds, insertAll_toList]
    exact h.bonds.readBonds
  have hreadRelay : readRelay db.ledger.relay = .ok s.relay := by
    rw [hrelay]
    exact h.relay_read
  have hheight : s.height = tip.height + 1 := htip.symm
  have hstart : db.mmrStart = .ok (mmr, tip.height) := by
    rw [Database.mmrStart, hbase]
    show (do let mmr ← mmrFromPeaks (p.checkpoint.mwHeight - 1) p.mmrPeaks; _) = _
    rw [← h.height, hpeaks, bind_ok, hheight]
    rfl
  have hrows : db.headers.toList.filter (fun q => tip.height ≤ q.1 ∧ q.1 < tip.height + 1) =
      [(tip.height, tip)] := by
    have hcount : p.headers.length = below.length + 1 := by
      rw [hsplit, List.length_append, List.length_singleton]
    have hle := h.length_le
    have hread := filter_consecutive (h.consecutive fun x => x)
      (show s.height - p.headers.length ≤ tip.height by omega)
      (show _ = tip.height + 1 by rw [List.length_map]; omega)
    rw [hheaders, toList_consecutive (h.consecutive fun x => x), hread, hsplit, List.map_append,
      List.drop_left' (by rw [List.length_map, List.length_append, List.length_singleton]; omega)]
    rfl
  have hscan : [(tip.height, tip)].foldlM (HeaderScan.step tip.height) ⟨tip.height, mmr, none⟩ =
      .ok ⟨tip.height + 1, mmr, some tip⟩ := by
    rw [foldlM_cons_eq_ok]
    refine ⟨_, ?_, rfl⟩
    simp only [HeaderScan.step, bailIf_neg (not_not_intro rfl), bind_ok, if_pos]
  have hwindows : ∀ t : State, t.height = tip.height + 1 → t.bonds = s.bonds →
      db.rebuildForkChoiceWindows t =
        .ok { t with signers := s.signers, workFloor := s.workFloor } := by
    intro t ht hb
    have hworks := h.headerWorks hheaders (show workCapWindow ≤ snapshotHeaders by decide)
    have hsigned := h.loggedSigners db.batches hsigners
    rw [hheight] at hworks hsigned
    simp only [Database.rebuildForkChoiceWindows, ht, hb, hsigned, hworks, bind_ok, h.signers,
      h.workFloor]
  have hcappedBefore : db.cappedBefore (tip.height + 1) = s.capped := by
    rw [← h.height, hheight, Nat.add_sub_cancel] at hcapped
    rw [Database.cappedBefore, hcapped]
    rfl
  rw [Database.loadState, hmeta]
  simp only [StateMeta.of, hheight, Nat.add_one_ne_zero, bailIf_neg not_false, bind_ok, hleaves,
    hids, hreadRelay, hstart, Nat.add_sub_cancel, hrows, hscan, orBail_some, hreadBonds]
  rw [bailIf_neg, bind_ok, hwindows _ (by rfl) (by rfl), bind_ok, hcappedBefore, hhash, ← hmmr, hutxos,
    ← h.records, ← h.effects, ← hheight]
  refine not_or.mpr ⟨not_not_intro ?_, not_not_intro hhash⟩
  rw [hroot, ← h.stateRoot_eq hmmrRoot, hutxos, ← h.records, ← hheight]
  rfl

section Base

variable {db db' : Database} {batches : List Batch} {effects : List BlockEffects} {s : State}

omit [Primitives] in
theorem Database.revertBlocks_base {n : Nat} {acc acc' : StateMeta × Database}
    (h : revertBlocks first n acc = .ok acc') : acc'.2.base = acc.2.base := by
  induction n generalizing acc with
  | zero =>
    cases h
    rfl
  | succ n ih =>
    simp only [revertBlocks, bind_eq_ok] at h
    obtain ⟨next, hone, hrest⟩ := h
    simp only [revertBlock, bind_eq_ok, orBail_eq_ok, Except.ok.injEq] at hone
    obtain ⟨_, -, rfl⟩ := hone
    have hbase := ih hrest
    exact hbase

theorem Replay.run_base {r r' : Replay} {height : Nat} {blocks : List (Batch × BlockEffects)}
    (h : r.run height blocks = .ok r') : r'.db.base = r.db.base := by
  induction blocks generalizing r height with
  | nil =>
    cases h
    rfl
  | cons p blocks ih =>
    simp only [Replay.run, bind_eq_ok] at h
    obtain ⟨next, hblock, hrest⟩ := h
    simp only [Replay.block, bind_eq_ok, Except.ok.injEq] at hblock
    obtain ⟨_, -, _, -, _, -, _, -, rfl⟩ := hblock
    have hbase := ih hrest
    exact hbase

theorem Database.commitChain_base (h : db.commitChain first batches effects s = .ok db') :
    db'.base = db.base ∧ ∀ b, db.base = some b → b.height ≤ first := by
  simp only [commitChain, bind_eq_ok, bailIf_eq_ok, Except.ok.injEq] at h
  obtain ⟨_, -, _, -, _, -, _, hbase, _, -, ⟨m, reverted⟩, hrevert, r, hstart, done, hrun, _, -, rfl⟩ := h
  simp only [Replay.start, bind_eq_ok, Except.ok.injEq] at hstart
  obtain ⟨_, -, _, -, rfl⟩ := hstart
  constructor
  · have hreplayed := Replay.run_base hrun
    have hreverted := revertBlocks_base hrevert
    exact hreplayed.trans (hreverted.trans (rootRelay_base db))
  · intro b hb
    rw [hb] at hbase
    simpa using hbase

/-- What a node makes of a database from then on. -/
inductive Database.RunsOn (start : Database) : Database → Prop where
  | start : RunsOn start start
  | commit {db db' : Database} {batches : List Batch} {effects : List BlockEffects} {s : State} :
      RunsOn start db → db.commitChain first batches effects s = .ok db' → RunsOn start db'
  | setFinality {db : Database} (info : FinalityInfo) :
      RunsOn start db → RunsOn start (db.setFinality info)
  | prune {db : Database} (height : Nat) :
      RunsOn start db → RunsOn start (db.pruneBodiesBelow height)

theorem Database.RunsOn.base (h : RunsOn db db') : db'.base = db.base := by
  induction h with
  | start => rfl
  | commit _ hok ih => exact (commitChain_base hok).1.trans ih
  | setFinality info _ ih => exact ih
  | prune height _ ih => exact ih

end Base

/-- A wallet that pages through a node started from a snapshot gets each unspent output once, in
commitment order, with its own record. -/
theorem snapshot_pages_complete {p : Snapshot} {s : State} (h : p.verify trustedId = .ok s)
    (hpage : 0 < page) :
    ∃ db, Database.empty.importSnapshot p s = .ok db ∧
      ∀ fuel, s.utxos.size < fuel * page → ∃ outputs,
        db.ledger.collectUnspent page fuel none = .ok outputs ∧
          outputs.map (fun p => (p.1.commitment, p.2)) = s.utxos.toList ∧
            ∀ p ∈ outputs, db.ledger.Serves p := by
  obtain ⟨db, himport, -, hgrouped, hutxos⟩ := (Snapshot.verify_eq_ok h).loadState
  refine ⟨db, himport, ?_⟩
  rw [← hutxos]
  exact hgrouped.collect_all hpage

end

section Raced

local instance importedWords : Primitives := racedPrimitives

/-- A snapshot of the first branch, whose two coinbases are unspent. -/
def racedSnapshot : Snapshot where
  checkpoint := ⟨checkpointVersion, networkAnchor, 3, oldTop.extension.finalHash,
    oldTop.stateRoot, oldTopState.depth, 0⟩
  headers :=
    [{ Batch.genesis.headerAt 0 with extension := ⟨0, 0⟩ }, oldBlock.headerAt 1, oldTop.headerAt 2]
  parts := oldTopState.checkpointParts
  mmrPeaks := (mmrPeakValues oldState.chainMmr).toOption.getD []
  utxos := oldTopState.utxos.toList
  groups := [1, 2].map fun n =>
    StoredGroup.fromGroup (rushedCoinbase n (blockReward n)).outputs
  kernels := [1, 2].map fun n => (rushedCoinbase n (blockReward n)).kernel
  bonds := []
  relay := oldTopState.relay.values

theorem raced_links : checkHeaderLinks racedSnapshot.headers = .ok () := by
  decide +kernel

theorem raced_headers : checkHeaders racedSnapshot.checkpoint racedSnapshot.headers = .ok () := by
  simp only [checkHeaders, bind_eq_ok, bailIf_eq_ok, orBail_eq_ok, checkAll_eq_ok]
  refine ⟨oldTop.headerAt 2, rfl, (), by decide +kernel, (), by decide +kernel, (), raced_links, ?_⟩
  intro h hh
  rcases List.mem_cons.mp hh with rfl | hh
  · exact fun hbad => absurd hbad.1 (Nat.lt_irrefl 0)
  · rcases List.mem_cons.mp hh with rfl | hh
    · intro hbad
      exact hbad.2 (verifyPow_raced (by decide +kernel) (by decide +kernel))
    · obtain rfl := List.mem_singleton.mp hh
      intro hbad
      exact hbad.2 (verifyPow_raced (by decide +kernel) (by decide +kernel))

theorem raced_verify : ∃ s, racedSnapshot.verify racedSnapshot.checkpoint.id = .ok s ∧
    s.utxos.size = 2 := by
  have hisOk : ((racedSnapshot.verify racedSnapshot.checkpoint.id).toOption.map
      fun s => s.utxos.size) = some 2 := by
    simp only [Snapshot.verify, raced_headers, bind_ok]
    decide +kernel
  cases hok : racedSnapshot.verify racedSnapshot.checkpoint.id with
  | ok s =>
    rw [hok] at hisOk
    exact ⟨s, rfl, Option.some.inj hisOk⟩
  | error e =>
    rw [hok] at hisOk
    cases hisOk

theorem snapshot_pages_raced : ∃ (db : Database) (s : State), s.utxos.size = 2 ∧
    Database.empty.importSnapshot racedSnapshot s = .ok db ∧
      ∃ outputs, db.ledger.collectUnspent 1 3 none = .ok outputs ∧
        outputs.map (fun p => (p.1.commitment, p.2)) = s.utxos.toList := by
  obtain ⟨s, hok, hsize⟩ := raced_verify
  obtain ⟨db, himport, hall⟩ := snapshot_pages_complete hok (show 0 < 1 by decide)
  obtain ⟨outputs, hread, hkeys, -⟩ := hall 3 (by omega)
  exact ⟨db, s, hsize, himport, outputs, hread, hkeys⟩

end Raced

end Midwimble
