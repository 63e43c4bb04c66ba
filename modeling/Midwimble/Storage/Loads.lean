import Midwimble.Storage.Records

namespace Midwimble
open Fallible OrderedMap SlidingWindow
set_option autoImplicit true

variable [Primitives]

section Headers

/-- The stored headers of some blocks from a height on. -/
def rowsFrom (start : Nat) (blocks : List Batch) : List (Nat × BatchHeader) :=
  (blocks.zipIdx start).map fun p => (p.2, p.1.headerAt p.2)

theorem scan_below (below : List Batch) (hle : below.length ≤ tip) :
    (rowsFrom 0 below).foldlM (HeaderScan.step tip) ⟨0, .new, none⟩ =
      .ok ⟨below.length, mmrOf below, none⟩ := by
  induction below using List.reverseRecOn with
  | nil => rfl
  | append_singleton below batch ih =>
    rw [List.length_append, List.length_singleton] at hle
    have hrows : rowsFrom 0 (below ++ [batch]) =
        rowsFrom 0 below ++ [(below.length, batch.headerAt below.length)] := by
      simp [rowsFrom, List.zipIdx_append]
    have hne : below.length ≠ tip := by omega
    rw [hrows, foldlM_append_eq_ok]
    refine ⟨_, ih (by omega), ?_⟩
    rw [foldlM_cons_eq_ok]
    refine ⟨_, ?_, rfl⟩
    simp only [HeaderScan.step, bailIf_neg (not_not_intro rfl), bind_ok, if_neg hne]
    rw [mmrOf_append, List.length_append]
    rfl

theorem scan_headers (below : List Batch) (batch : Batch) :
    (rowsFrom 0 (below ++ [batch])).foldlM (HeaderScan.step below.length) ⟨0, .new, none⟩ =
      .ok ⟨below.length + 1, mmrOf below, some (batch.headerAt below.length)⟩ := by
  have hrows : rowsFrom 0 (below ++ [batch]) =
      rowsFrom 0 below ++ [(below.length, batch.headerAt below.length)] := by
    simp [rowsFrom, List.zipIdx_append]
  rw [hrows, foldlM_append_eq_ok]
  refine ⟨_, scan_below below (Nat.le_refl _), ?_⟩
  rw [foldlM_cons_eq_ok]
  refine ⟨_, ?_, rfl⟩
  simp only [HeaderScan.step, bailIf_neg (not_not_intro rfl), bind_ok, if_pos]

end Headers

theorem Built.stateRoot {s : State} {below : List Batch} {batch : Batch}
    (h : Built (below ++ [batch]) s) :
    batch.stateRoot = { s with chainMmr := mmrOf below }.stateRoot := by
  obtain ⟨t, ht, now, pre, skip, hok⟩ := h.last
  obtain ⟨-, -, b, hroot, rfl⟩ := applyBatchInternal_eq_ok.mp hok
  have hmmr : b.rooted.chainMmr = mmrOf below := by
    rw [← ht.chainMmr]
    exact b.base_chainMmr
  rw [hroot, ← hmmr]
  rfl

namespace Database

variable {S : Set Batch} {db : Database} {chain : List Batch} {s : State} {kept : Nat}

theorem Holds.rebuildForkChoiceWindows (h : db.Holds chain kept) (ht : Built (chain.take n) t)
    (hn : n ≤ chain.length) (state : State) (hheight : state.height = n) :
    db.rebuildForkChoiceWindows state =
      .ok { state with signers := t.signers, workFloor := t.workFloor } := by
  obtain ⟨hsigners, hwindow, ws, hworks, hfloor⟩ := h.windows ht hn
  simp only [Database.rebuildForkChoiceWindows, hheight, hsigners, hworks, bind_ok, hwindow,
    hfloor]

/-- A node that restarts has the state it stopped with, its last block's diff apart. -/
theorem Keeps.loadState (h : db.Keeps chain s kept) (ha : StoredApart S)
    (hr : RecordsApart (chainRecords S)) (hsub : ∀ c ∈ chain, c ∈ S) (hne : chain ≠ []) :
    db.loadState = .ok (some { s with effects := .empty }) := by
  rcases h.scalars with ⟨-, hnil⟩ | ⟨hmeta, hrooted⟩
  · exact absurd hnil hne
  have hholds := h.holds
  rw [hrooted] at hholds
  obtain ⟨below, batch, rfl⟩ : ∃ below batch, chain = below ++ [batch] :=
    (List.eq_nil_or_concat chain).resolve_left hne |>.imp fun _ => fun ⟨b, hb⟩ =>
      ⟨b, by rw [hb, List.concat_eq_append]⟩
  have hstands := hholds.ledger.stands ha h.built hsub
  have hheight : s.height = below.length + 1 := by
    rw [h.built.height, List.length_append, List.length_singleton]
  have hleaves : db.ledger.utxos.toList.foldl (fun leaves p => leaves.insert (utxoLeaf p.1 p.2))
      (∅ : Std.ExtTreeSet Bytes32) = s.utxoSet.coins := by
    rw [hstands.tells.utxos]
    exact (leavesOf_foldl (fun p => utxoLeaf p.1 p.2) s.utxos).unique (h.built.leafed hr hsub)
  have hkernels : db.ledger.kernels.toList.foldl (fun ids p => ids.insert p.1)
      (∅ : Std.ExtTreeSet Bytes32) = s.kernels.coins := by
    apply Std.ExtTreeSet.ext_mem
    intro id
    rw [leavesOf_foldl (fun p => p.1) db.ledger.kernels id, ← hstands.tells.kernels,
      mem_iff_exists]
    constructor
    · rintro ⟨k, v, hk, rfl⟩
      exact ⟨v, hk⟩
    · rintro ⟨v, hv⟩
      exact ⟨id, v, hv, rfl⟩
  have hrelay := readRelay_eq hstands.relayed
  rw [← hstands.tells.relay] at hrelay
  have hbonds : readBonds db.ledger.bonds = s.bonds := by
    rw [hstands.tells.bonds]
    exact readBonds_eq h.built ha hsub
  have hrows : db.headers.toList.filter (fun p => 0 ≤ p.1 ∧ p.1 < below.length + 1) =
      rowsFrom 0 (below ++ [batch]) := by
    rw [hholds.headers.range, List.drop_zero, List.take_of_length_le (by simp)]
    rfl
  have hscan := scan_headers below batch
  have hwindows := hholds.rebuildForkChoiceWindows (n := (below ++ [batch]).length) (t := s)
    (by rw [List.take_length]; exact h.built) (Nat.le_refl _)
  have hcapped := hholds.cappedBefore_eq (n := (below ++ [batch]).length) (t := s)
    (by rw [List.take_length]; exact h.built) (Nat.le_refl _)
  rw [List.length_append, List.length_singleton] at hcapped hwindows
  have hmmr : (mmrOf below).append batch.extension.finalHash true = s.chainMmr := by
    rw [h.built.chainMmr, mmrOf_append]
  have hhash : batch.extension.finalHash = s.headerHash := h.built.headerHash.symm
  have hroot := h.built.stateRoot
  have hstart : db.mmrStart = .ok (.new, 0) := by
    rw [mmrStart, hholds.base]
  rw [Database.loadState, hmeta]
  simp only [StateMeta.of, hheight, Nat.add_one_ne_zero, bailIf_neg not_false, bind_ok, hleaves,
    hkernels, hrelay, hstart, Nat.add_sub_cancel, hrows, hscan, orBail_some, hbonds]
  rw [bailIf_neg, bind_ok, hwindows _ rfl, bind_ok, hcapped, hstands.tells.utxos, ← hmmr]
  · rfl
  · refine not_or.mpr ⟨not_not_intro ?_, not_not_intro hhash⟩
    exact hroot.symm

end Database

end Midwimble
