import Midwimble.Chain.Supply
import Midwimble.Template.Selection

namespace Midwimble
open Fallible KeySort
set_option autoImplicit true

/-- What a transaction's kernels pay in all. -/
def Transaction.feeSum (t : Transaction) : Nat := (t.body.kernels.map Kernel.fee).sum

theorem fee_eq (t : Transaction) :
    t.fee = if t.feeSum ≤ u64Max then .ok t.feeSum else .error "fee overflow" := by
  have hfold : ∀ (ks : List Kernel) (acc : Nat), acc ≤ u64Max →
      ks.foldlM (fun acc k =>
        if acc + k.fee > 2 ^ 64 - 1 then (.error (Err.message "fee overflow") : Result Nat)
        else .ok (acc + k.fee)) acc =
          if acc + (ks.map Kernel.fee).sum ≤ u64Max then .ok (acc + (ks.map Kernel.fee).sum)
          else .error "fee overflow" := by
    intro ks
    induction ks with
    | nil =>
      intro acc hacc
      simp only [List.foldlM_nil, List.map_nil, List.sum_nil, Nat.add_zero, if_pos hacc]
      rfl
    | cons k ks ih =>
      intro acc hacc
      rw [List.foldlM_cons, List.map_cons, List.sum_cons, ← Nat.add_assoc]
      by_cases hk : acc + k.fee > 2 ^ 64 - 1
      · have hover : ¬ acc + k.fee + (ks.map Kernel.fee).sum ≤ u64Max := by
          unfold u64Max
          omega
        rw [if_pos hk, if_neg hover, bind_error]
      · rw [if_neg hk, bind_ok, ih _ (by unfold u64Max; omega)]
  have h := hfold t.body.kernels 0 (Nat.zero_le _)
  rw [Nat.zero_add] at h
  exact h

theorem fee_eq_ok {t : Transaction} :
    t.fee = .ok fee ↔ t.feeSum = fee ∧ fee ≤ u64Max := by
  rw [fee_eq]
  split
  · rename_i h
    rw [Except.ok.injEq]
    exact ⟨fun he => ⟨he, he ▸ h⟩, fun he => he.1⟩
  · rename_i h
    exact ⟨fun he => by simp at he, fun he => absurd (he.1 ▸ he.2) h⟩

theorem mapM_fee_eq_ok {txs : List Transaction} (h : txs.mapM Transaction.fee = .ok fees) :
    fees = txs.map Transaction.feeSum := by
  induction txs generalizing fees with
  | nil =>
    rw [List.mapM_nil, pure_eq_ok] at h
    rw [← h, List.map_nil]
  | cons t txs ih =>
    obtain ⟨fee, rest, hf, hr, rfl⟩ := mapM_cons_eq_ok.mp h
    rw [List.map_cons, ih hr, (fee_eq_ok.mp hf).1]

variable [Primitives]

/-- The scalar an encoding stands for. -/
def scalar (b : Scalar32) : Primitives.Scalar := (scalarFromBytes b).getD 0

theorem scalar_eq (h : scalarFromBytes b = some s) : scalar b = s := by
  rw [scalar, h, Option.getD_some]

@[simp] theorem scalar_toBytes (s : Primitives.Scalar) : scalar (scalarToBytes s) = s :=
  scalar_eq (Primitives.scalarFromBytes_toBytes s)

def kernelOffsetSum (txs : List Transaction) : Primitives.Scalar :=
  (txs.map fun t => scalar t.kernelOffset).sum

def ownerOffsetSum (txs : List Transaction) : Primitives.Scalar :=
  (txs.map fun t => scalar t.ownerOffset).sum

theorem sumOffsets_eq (h : ∀ t ∈ txs, t.Sound) :
    Transaction.sumOffsets txs = .ok (kernelOffsetSum txs, ownerOffsetSum txs) := by
  have hfold : ∀ acc : Primitives.Scalar × Primitives.Scalar, txs.foldlM (fun acc t => do
      let o ← orBail (scalarFromBytes t.kernelOffset) (Err.message "bad kernel offset")
      let x ← orBail (scalarFromBytes t.ownerOffset) (Err.message "bad owner offset")
      .ok (acc.1 + o, acc.2 + x)) acc =
        .ok (acc.1 + kernelOffsetSum txs, acc.2 + ownerOffsetSum txs) := by
    induction txs with
    | nil => intro acc; simp [kernelOffsetSum, ownerOffsetSum, pure, Except.pure]
    | cons t txs ih =>
      intro acc
      obtain ⟨ht, hts⟩ := List.forall_mem_cons.mp h
      obtain ⟨o, ho⟩ := Option.isSome_iff_exists.mp ht.kernelOffset
      obtain ⟨x, hx⟩ := Option.isSome_iff_exists.mp ht.ownerOffset
      rw [List.foldlM_cons]
      simp only [ho, hx, orBail_some, bind_ok, ih hts, kernelOffsetSum, ownerOffsetSum,
        List.map_cons, List.sum_cons, scalar_eq ho, scalar_eq hx, add_assoc]
  rw [Transaction.sumOffsets, hfold (0, 0), zero_add, zero_add]

/-- The transaction that valid ones merge into. -/
def mergedOf (txs : List Transaction) : Transaction :=
  merged txs (kernelOffsetSum txs) (ownerOffsetSum txs)

theorem aggregate_eq (h : ∀ t ∈ txs, t.Sound) :
    Transaction.aggregate txs =
      (bailIf (¬ (txs.flatMap Transaction.inputCommitments).Nodup)
        (Err.message "aggregate would double-spend an input") >>= fun _ =>
      bailIf (¬ (txs.flatMap Transaction.kernelIds).Nodup)
        (Err.message "aggregate would duplicate a kernel") >>= fun _ =>
      (mergedOf txs).validateStructure .block >>= fun _ => .ok (mergedOf txs)) := by
  have hi : (txs.flatMap fun t => t.body.inputs).map Input.commitment =
      txs.flatMap Transaction.inputCommitments := List.map_flatMap
  have hk : (txs.flatMap fun t => t.body.kernels).map Kernel.id =
      txs.flatMap Transaction.kernelIds := List.map_flatMap
  simp only [Transaction.aggregate, sumOffsets_eq h, bind_ok, sortBy_isChain_ne, hi, hk]
  rfl

theorem aggregate_mergedOf (h : ∀ t ∈ txs, t.Sound) :
    Transaction.aggregate txs = .ok agg ↔
      (txs.flatMap Transaction.inputCommitments).Nodup ∧
        (txs.flatMap Transaction.kernelIds).Nodup ∧
        (mergedOf txs).validateStructure .block = .ok () ∧ agg = mergedOf txs := by
  rw [aggregate_eq h]
  simp only [check_bind_eq_ok, bailIf_eq_ok, not_not, Except.ok.injEq]
  constructor
  · rintro ⟨hinputs, hkernels, hok, heq⟩
    exact ⟨hinputs, hkernels, hok, heq.symm⟩
  · rintro ⟨hinputs, hkernels, hok, heq⟩
    exact ⟨hinputs, hkernels, hok, heq.symm⟩

section Order

variable {txs txs' : List Transaction}

theorem kernelOffsetSum_perm (h : txs.Perm txs') : kernelOffsetSum txs = kernelOffsetSum txs' :=
  (h.map _).sum_eq

theorem ownerOffsetSum_perm (h : txs.Perm txs') : ownerOffsetSum txs = ownerOffsetSum txs' :=
  (h.map _).sum_eq

theorem mergedOf_perm (h : txs.Perm txs') (hi : (txs.flatMap Transaction.inputCommitments).Nodup)
    (hk : (txs.flatMap Transaction.kernelIds).Nodup)
    (hg : ((txs.flatMap fun t => t.body.outputs).map OutputGroup.sortKey).Nodup) :
    mergedOf txs = mergedOf txs' := by
  have hi' : ((txs.flatMap fun t => t.body.inputs).map Input.commitment).Nodup := by
    rw [List.map_flatMap]
    exact hi
  have hk' : ((txs.flatMap fun t => t.body.kernels).map Kernel.id).Nodup := by
    rw [List.map_flatMap]
    exact hk
  rw [mergedOf, mergedOf, merged, merged, kernelOffsetSum_perm h, ownerOffsetSum_perm h,
    sortBy_eq_of_perm _ (h.flatMap_right _) hi', sortBy_eq_of_perm _ (h.flatMap_right _) hk',
    sortBy_eq_of_perm _ (h.flatMap_right _) hg]

theorem mergedOf_repeats (hi : (txs.flatMap Transaction.inputCommitments).Nodup)
    (hg : ¬ ((txs.flatMap fun t => t.body.outputs).map OutputGroup.sortKey).Nodup) :
    (mergedOf txs).validateStructure .block =
      (bailIf ((txs.map Transaction.weight).sum > maxBlockWeight) (Err.message
        s!"block body weight {(txs.map Transaction.weight).sum} exceeds {maxBlockWeight}") >>=
        fun _ => bailIf ((mergedOf txs).body.kernels.isEmpty ∧
          ¬ ((mergedOf txs).body.inputs.isEmpty ∧ (mergedOf txs).body.outputs.isEmpty))
          (Err.message "inputs or outputs without any kernel") >>= fun _ =>
        .error (Err.message "output groups must be strictly ascending by first commitment")) := by
  have hchain : (mergedOf txs).inputCommitments.IsChain (· < ·) := by
    refine (sortBy_isChain_lt _ _).mpr ?_
    rw [List.map_flatMap]
    exact hi
  have hgroups : ¬ ((mergedOf txs).body.outputs.map OutputGroup.sortKey).IsChain (· < ·) :=
    fun h => hg ((sortBy_isChain_lt _ _).mp h)
  have hko : scalarFromBytes (mergedOf txs).kernelOffset = some (kernelOffsetSum txs) :=
    Primitives.scalarFromBytes_toBytes _
  have hoo : scalarFromBytes (mergedOf txs).ownerOffset = some (ownerOffsetSum txs) :=
    Primitives.scalarFromBytes_toBytes _
  have hw : (mergedOf txs).weight = (txs.map Transaction.weight).sum := merged_weight
  simp only [Transaction.validateStructure, Transaction.checkSize, hw, hchain, hgroups, hko, hoo,
    not_true_eq_false, not_false_eq_true, Option.isNone_some, Bool.false_eq_true, or_self,
    bailIf_pos trivial, bailIf_neg not_false, bind_ok, bind_error]

omit [Primitives] in
theorem isEmpty_sortBy_perm {α κ : Type} [LE κ] [DecidableLE κ] (key : α → κ) {l l' : List α}
    (h : l.Perm l') : (sortBy key l).isEmpty = (sortBy key l').isEmpty := by
  have hlen : (sortBy key l).length = (sortBy key l').length := by
    rw [(sortBy_perm key l).length_eq, (sortBy_perm key l').length_eq, h.length_eq]
  rw [Bool.eq_iff_iff, List.isEmpty_iff_length_eq_zero, List.isEmpty_iff_length_eq_zero, hlen]

/-- Aggregation does not depend on the order of valid transactions, not even in how it fails. -/
theorem aggregate_perm (hv : ∀ t ∈ txs, t.Sound) (h : txs.Perm txs') :
    Transaction.aggregate txs = Transaction.aggregate txs' := by
  have hv' : ∀ t ∈ txs', t.Sound := fun t ht => hv t (h.mem_iff.mpr ht)
  have hin := (h.flatMap_right Transaction.inputCommitments).nodup_iff
  have hker := (h.flatMap_right Transaction.kernelIds).nodup_iff
  have hgrp := ((h.flatMap_right fun t => t.body.outputs).map OutputGroup.sortKey).nodup_iff
  rw [aggregate_eq hv, aggregate_eq hv']
  by_cases hi : (txs.flatMap Transaction.inputCommitments).Nodup
  · have hi' := hin.mp hi
    rw [bailIf_neg (not_not.mpr hi), bailIf_neg (not_not.mpr hi'), bind_ok, bind_ok]
    by_cases hk : (txs.flatMap Transaction.kernelIds).Nodup
    · have hk' := hker.mp hk
      rw [bailIf_neg (not_not.mpr hk), bailIf_neg (not_not.mpr hk'), bind_ok, bind_ok]
      by_cases hg : ((txs.flatMap fun t => t.body.outputs).map OutputGroup.sortKey).Nodup
      · rw [mergedOf_perm h hi hk hg]
      · have hsum : (txs.map Transaction.weight).sum = (txs'.map Transaction.weight).sum :=
          (h.map _).sum_eq
        have hinputs : (mergedOf txs).body.inputs.isEmpty = (mergedOf txs').body.inputs.isEmpty :=
          isEmpty_sortBy_perm _ (h.flatMap_right _)
        have houtputs : (mergedOf txs).body.outputs.isEmpty =
            (mergedOf txs').body.outputs.isEmpty := isEmpty_sortBy_perm _ (h.flatMap_right _)
        have hkernels : (mergedOf txs).body.kernels.isEmpty =
            (mergedOf txs').body.kernels.isEmpty := isEmpty_sortBy_perm _ (h.flatMap_right _)
        rw [mergedOf_repeats hi hg, mergedOf_repeats hi' (fun hg' => hg (hgrp.mpr hg')), hsum]
        simp only [hinputs, houtputs, hkernels]
        generalize (txs'.map Transaction.weight).sum = total
        cases bailIf (total > maxBlockWeight) (Err.message
          s!"block body weight {total} exceeds {maxBlockWeight}") with
        | error e => rfl
        | ok u =>
          simp only [bind_ok]
          cases bailIf ((mergedOf txs').body.kernels.isEmpty ∧
              ¬ ((mergedOf txs').body.inputs.isEmpty ∧ (mergedOf txs').body.outputs.isEmpty))
              (Err.message "inputs or outputs without any kernel") with
          | error e => rfl
          | ok u => rfl
    · have hk' : ¬ (txs'.flatMap Transaction.kernelIds).Nodup := mt hker.mpr hk
      rw [bailIf_pos hk, bailIf_pos hk', bind_error, bind_error]
  · have hi' : ¬ (txs'.flatMap Transaction.inputCommitments).Nodup := mt hin.mpr hi
    rw [bailIf_pos hi, bailIf_pos hi', bind_error, bind_error]

end Order

theorem aggregate_eq_ok_iff (hv : ∀ t ∈ txs, t.Sound) :
    Transaction.aggregate txs = .ok agg ↔
      Disjoint txs ∧ (txs.map Transaction.weight).sum ≤ maxBlockWeight ∧ agg = mergedOf txs := by
  have hw : (mergedOf txs).weight = (txs.map Transaction.weight).sum := merged_weight
  have hs : (mergedOf txs).Sound ↔ Disjoint txs := merged_sound_iff hv
  rw [aggregate_mergedOf hv, validateStructure_eq_ok, Transaction.Fits, hw, hs]
  constructor
  · rintro ⟨-, -, ⟨hw, hd⟩, he⟩
    exact ⟨hd, hw, he⟩
  · rintro ⟨hd, hw, he⟩
    exact ⟨hd.inputs, hd.kernels, ⟨hw, hd⟩, he⟩

theorem Disjoint.sublist {txs txs' : List Transaction} (h : Disjoint txs')
    (hs : txs.Sublist txs') : Disjoint txs where
  inputs := h.inputs.sublist (hs.flatMap _)
  outputs := h.outputs.sublist (hs.flatMap _)
  ownerKeys := h.ownerKeys.sublist (hs.flatMap _)
  kernels := h.kernels.sublist (hs.flatMap _)
  apart := fun c hc hout => h.apart c ((hs.flatMap _).subset hc) ((hs.flatMap _).subset hout)

section Parts

variable {parts : List (List Transaction)}

theorem flatMap_mergedOf {f : Transaction → List α}
    (hf : ∀ txs, (f (mergedOf txs)).Perm (txs.flatMap f)) :
    ((parts.map mergedOf).flatMap f).Perm (parts.flatten.flatMap f) := by
  induction parts with
  | nil => exact .nil
  | cons part parts ih =>
    rw [List.map_cons, List.flatMap_cons, List.flatten_cons, List.flatMap_append]
    exact (hf part).append ih

theorem sum_mergedOf {M : Type} [AddCommMonoid M] {f : Transaction → M}
    (hf : ∀ txs, f (mergedOf txs) = (txs.map f).sum) :
    ((parts.map mergedOf).map f).sum = (parts.flatten.map f).sum := by
  induction parts with
  | nil => rfl
  | cons part parts ih =>
    rw [List.map_cons, List.map_cons, List.sum_cons, List.flatten_cons, List.map_append,
      List.sum_append, hf, ih]

theorem Disjoint.mergedOf_parts (h : Disjoint parts.flatten) :
    Disjoint (parts.map mergedOf) where
  inputs := (flatMap_mergedOf fun _ => merged_inputCommitments).nodup_iff.mpr h.inputs
  outputs := (flatMap_mergedOf fun _ => merged_outputCommitments).nodup_iff.mpr h.outputs
  ownerKeys := (flatMap_mergedOf fun _ => merged_ownerKeys).nodup_iff.mpr h.ownerKeys
  kernels := (flatMap_mergedOf fun _ => merged_kernelIds).nodup_iff.mpr h.kernels
  apart := fun c hc hout =>
    h.apart c ((flatMap_mergedOf fun _ => merged_inputCommitments).mem_iff.mp hc)
      ((flatMap_mergedOf fun _ => merged_outputCommitments).mem_iff.mp hout)

theorem mergedOf_mergedOf (hv : ∀ t ∈ parts.flatten, t.Sound) (h : Disjoint parts.flatten) :
    mergedOf (parts.map mergedOf) = mergedOf parts.flatten := by
  have hd := h.mergedOf_parts
  have hi : ((parts.map mergedOf).flatMap fun t => t.body.inputs).Perm
      (parts.flatten.flatMap fun t => t.body.inputs) :=
    flatMap_mergedOf fun _ => sortBy_perm _ _
  have ho : ((parts.map mergedOf).flatMap fun t => t.body.outputs).Perm
      (parts.flatten.flatMap fun t => t.body.outputs) :=
    flatMap_mergedOf fun _ => sortBy_perm _ _
  have hk : ((parts.map mergedOf).flatMap fun t => t.body.kernels).Perm
      (parts.flatten.flatMap fun t => t.body.kernels) :=
    flatMap_mergedOf fun _ => sortBy_perm _ _
  have hkernelOffset : kernelOffsetSum (parts.map mergedOf) = kernelOffsetSum parts.flatten :=
    sum_mergedOf fun _ => scalar_toBytes _
  have hownerOffset : ownerOffsetSum (parts.map mergedOf) = ownerOffsetSum parts.flatten :=
    sum_mergedOf fun _ => scalar_toBytes _
  have hin : (((parts.map mergedOf).flatMap fun t => t.body.inputs).map
      Input.commitment).Nodup := by
    rw [List.map_flatMap]
    exact hd.inputs
  have hker : (((parts.map mergedOf).flatMap fun t => t.body.kernels).map Kernel.id).Nodup := by
    rw [List.map_flatMap]
    exact hd.kernels
  have hgrp : (((parts.map mergedOf).flatMap fun t => t.body.outputs).map
      OutputGroup.sortKey).Nodup :=
    (ho.map OutputGroup.sortKey).nodup_iff.mpr
      ((sortBy_isChain_lt _ _).mp ((@merged_sound_iff _ _ 0 0 hv).mpr h).groups)
  rw [mergedOf, mergedOf, merged, merged, hkernelOffset, hownerOffset,
    sortBy_eq_of_perm _ hi hin, sortBy_eq_of_perm _ hk hker, sortBy_eq_of_perm _ ho hgrp]

theorem mapM_aggregate (hv : ∀ t ∈ parts.flatten, t.Sound) (h : Disjoint parts.flatten)
    (hw : (parts.flatten.map Transaction.weight).sum ≤ maxBlockWeight) :
    parts.mapM Transaction.aggregate = .ok (parts.map mergedOf) := by
  induction parts with
  | nil => rfl
  | cons part parts ih =>
    rw [List.flatten_cons] at hv h hw
    rw [List.map_append, List.sum_append] at hw
    have hpart : Transaction.aggregate part = .ok (mergedOf part) :=
      (aggregate_eq_ok_iff fun t ht => hv t (List.mem_append_left _ ht)).mpr
        ⟨h.sublist (List.sublist_append_left _ _), by omega, rfl⟩
    exact mapM_cons_eq_ok.mpr ⟨_, _, hpart,
      ih (fun t ht => hv t (List.mem_append_right _ ht))
        (h.sublist (List.sublist_append_right _ _)) (by omega), rfl⟩

theorem aggregate_parts (hv : ∀ t ∈ parts.flatten, t.Sound)
    (h : Transaction.aggregate parts.flatten = .ok agg) :
    parts.mapM Transaction.aggregate = .ok (parts.map mergedOf) ∧
      Transaction.aggregate (parts.map mergedOf) = .ok agg := by
  obtain ⟨hd, hw, rfl⟩ := (aggregate_eq_ok_iff hv).mp h
  have hsound : ∀ t ∈ parts.map mergedOf, t.Sound := by
    intro t ht
    obtain ⟨part, hp, rfl⟩ := List.mem_map.mp ht
    have hsub : part.Sublist parts.flatten := List.sublist_flatten_of_mem hp
    exact (merged_sound_iff fun t ht => hv t (hsub.subset ht)).mpr (hd.sublist hsub)
  refine ⟨mapM_aggregate hv hd hw, (aggregate_eq_ok_iff hsound).mpr ⟨hd.mergedOf_parts, ?_, ?_⟩⟩
  · rw [sum_mergedOf fun _ => merged_weight]
    exact hw
  · exact (mergedOf_mergedOf hv hd).symm

end Parts

theorem mergedOf_feeSum (txs : List Transaction) :
    (mergedOf txs).feeSum = (txs.map Transaction.feeSum).sum := by
  have hk : ((mergedOf txs).body.kernels.map Kernel.fee).Perm
      (txs.flatMap fun t => t.body.kernels.map Kernel.fee) := by
    have h := (sortBy_perm Kernel.id (txs.flatMap fun t => t.body.kernels)).map Kernel.fee
    rwa [List.map_flatMap] at h
  rw [Transaction.feeSum, hk.sum_eq]
  induction txs with
  | nil => rfl
  | cons t txs ih =>
    rw [List.flatMap_cons, List.sum_append, List.map_cons, List.sum_cons, Transaction.feeSum, ih]
    have h := (sortBy_perm Kernel.id (txs.flatMap fun t => t.body.kernels)).map Kernel.fee
    rwa [List.map_flatMap] at h

/-- Commitments, excesses and keys all of which decode. -/
def Decodes (bs : List Point32) : Prop := ∀ b ∈ bs, (decompress b).isSome

theorem decodes_flatMap {txs : List Transaction} {f : Transaction → List Point32} :
    Decodes (txs.flatMap f) ↔ ∀ t ∈ txs, Decodes (f t) := by
  simp only [Decodes, List.mem_flatMap, forall_exists_index, and_imp]
  exact ⟨fun h t ht b hb => h b t ht hb, fun h b t ht hb => h t ht b hb⟩

theorem decodes_perm (h : bs.Perm cs) : Decodes bs ↔ Decodes cs := by
  simp only [Decodes, h.mem_iff]

theorem pointSum_perm (h : bs.Perm cs) : pointSum bs = pointSum cs := (h.map point).sum_eq

def Transaction.inputKeys (t : Transaction) : List Point32 := t.body.inputs.map Input.ownerKey

def Transaction.excesses (t : Transaction) : List Point32 := t.body.kernels.map Kernel.excess

def Transaction.ownerExcesses (t : Transaction) : List Point32 :=
  t.body.kernels.map Kernel.ownerExcess

/-- Both balance equations of a list of transactions taken together. -/
structure SumsHold (txs : List Transaction) : Prop where
  outputs : Decodes (txs.flatMap Transaction.outputCommitments)
  inputs : Decodes (txs.flatMap Transaction.inputCommitments)
  excesses : Decodes (txs.flatMap Transaction.excesses)
  inputKeys : Decodes (txs.flatMap Transaction.inputKeys)
  ownerExcesses : Decodes (txs.flatMap Transaction.ownerExcesses)
  balance : pointSum (txs.flatMap Transaction.outputCommitments) -
      pointSum (txs.flatMap Transaction.inputCommitments) +
        ((txs.map Transaction.feeSum).sum : Primitives.Scalar) • genG =
    pointSum (txs.flatMap Transaction.excesses) + kernelOffsetSum txs • genH
  owners : pointSum (txs.flatMap Transaction.inputKeys) =
    pointSum (txs.flatMap Transaction.ownerExcesses) + ownerOffsetSum txs • genG

theorem verifySums_eq_ok {t : Transaction} (hs : t.Sound) :
    t.verifySums = .ok () ↔ t.feeSum ≤ u64Max ∧ SumsHold [t] := by
  obtain ⟨o, ho⟩ := Option.isSome_iff_exists.mp hs.kernelOffset
  obtain ⟨x, hx⟩ := Option.isSome_iff_exists.mp hs.ownerOffset
  have hflat : ∀ f : Transaction → List Point32, [t].flatMap f = f t := fun f =>
    List.flatMap_singleton f t
  simp only [Transaction.verifySums, ho, hx, orBail_some, bind_ok, bind_eq_ok, fee_eq_ok,
    sumPoints_eq_ok, bailIf_eq_ok, not_not, ne_eq]
  constructor
  · rintro ⟨_, ⟨rfl, hle⟩, _, ⟨hout, rfl⟩, _, ⟨hin, rfl⟩, _, ⟨hex, rfl⟩, _, hb, _, ⟨hik, rfl⟩, _,
      ⟨hoe, rfl⟩, hw⟩
    refine ⟨hle, ⟨?_, ?_, ?_, ?_, ?_, ?_, ?_⟩⟩
    · rwa [hflat]
    · rwa [hflat]
    · rwa [hflat]
    · rwa [hflat]
    · rwa [hflat]
    · simpa [hflat, kernelOffsetSum, scalar_eq ho, Transaction.excesses] using hb
    · simpa [hflat, ownerOffsetSum, scalar_eq hx, Transaction.inputKeys,
        Transaction.ownerExcesses] using hw
  · rintro ⟨hle, ⟨hout, hin, hex, hik, hoe, hb, hw⟩⟩
    rw [hflat] at hout hin hex hik hoe
    refine ⟨_, ⟨rfl, hle⟩, _, ⟨hout, rfl⟩, _, ⟨hin, rfl⟩, _, ⟨hex, rfl⟩, (), ?_, _, ⟨hik, rfl⟩, _,
      ⟨hoe, rfl⟩, ?_⟩
    · simpa [hflat, kernelOffsetSum, scalar_eq ho, Transaction.excesses] using hb
    · simpa [hflat, ownerOffsetSum, scalar_eq hx, Transaction.inputKeys,
        Transaction.ownerExcesses] using hw

theorem sumsHold_append (h : SumsHold txs) (h' : SumsHold txs') : SumsHold (txs ++ txs') where
  outputs := by
    rw [decodes_flatMap]
    exact fun t ht => (List.mem_append.mp ht).elim (decodes_flatMap.mp h.outputs t)
      (decodes_flatMap.mp h'.outputs t)
  inputs := by
    rw [decodes_flatMap]
    exact fun t ht => (List.mem_append.mp ht).elim (decodes_flatMap.mp h.inputs t)
      (decodes_flatMap.mp h'.inputs t)
  excesses := by
    rw [decodes_flatMap]
    exact fun t ht => (List.mem_append.mp ht).elim (decodes_flatMap.mp h.excesses t)
      (decodes_flatMap.mp h'.excesses t)
  inputKeys := by
    rw [decodes_flatMap]
    exact fun t ht => (List.mem_append.mp ht).elim (decodes_flatMap.mp h.inputKeys t)
      (decodes_flatMap.mp h'.inputKeys t)
  ownerExcesses := by
    rw [decodes_flatMap]
    exact fun t ht => (List.mem_append.mp ht).elim (decodes_flatMap.mp h.ownerExcesses t)
      (decodes_flatMap.mp h'.ownerExcesses t)
  balance := by
    have hb := congrArg₂ (· + ·) h.balance h'.balance
    simp only [List.flatMap_append, pointSum_append, List.map_append, List.sum_append,
      kernelOffsetSum, Nat.cast_add, add_smul] at hb ⊢
    calc _ = _ := by abel
      _ = _ := hb
      _ = _ := by abel
  owners := by
    have hb := congrArg₂ (· + ·) h.owners h'.owners
    simp only [List.flatMap_append, pointSum_append, List.map_append, List.sum_append,
      ownerOffsetSum, add_smul] at hb ⊢
    calc _ = _ := hb
      _ = _ := by abel

theorem sumsHold_all (h : ∀ t ∈ txs, SumsHold [t]) : SumsHold txs := by
  induction txs with
  | nil =>
    constructor <;> simp [Decodes, kernelOffsetSum, ownerOffsetSum]
  | cons t txs ih =>
    obtain ⟨ht, hts⟩ := List.forall_mem_cons.mp h
    exact sumsHold_append ht (ih hts)

theorem mergedOf_sums (h : SumsHold txs) : SumsHold [mergedOf txs] := by
  have hflat : ∀ f : Transaction → List Point32, [mergedOf txs].flatMap f = f (mergedOf txs) :=
    fun f => List.flatMap_singleton f _
  have hout : (mergedOf txs).outputCommitments.Perm (txs.flatMap Transaction.outputCommitments) :=
    merged_outputCommitments
  have hin : (mergedOf txs).inputCommitments.Perm (txs.flatMap Transaction.inputCommitments) :=
    merged_inputCommitments
  have hik : (mergedOf txs).inputKeys.Perm (txs.flatMap Transaction.inputKeys) := by
    have h := (sortBy_perm Input.commitment (txs.flatMap fun t => t.body.inputs)).map
      Input.ownerKey
    rwa [List.map_flatMap] at h
  have hex : (mergedOf txs).excesses.Perm (txs.flatMap Transaction.excesses) := by
    have h := (sortBy_perm Kernel.id (txs.flatMap fun t => t.body.kernels)).map Kernel.excess
    rwa [List.map_flatMap] at h
  have hoe : (mergedOf txs).ownerExcesses.Perm (txs.flatMap Transaction.ownerExcesses) := by
    have h := (sortBy_perm Kernel.id (txs.flatMap fun t => t.body.kernels)).map
      Kernel.ownerExcess
    rwa [List.map_flatMap] at h
  have hko : kernelOffsetSum [mergedOf txs] = kernelOffsetSum txs := by
    rw [kernelOffsetSum, List.map_singleton, List.sum_singleton]
    exact scalar_toBytes _
  have hoo : ownerOffsetSum [mergedOf txs] = ownerOffsetSum txs := by
    rw [ownerOffsetSum, List.map_singleton, List.sum_singleton]
    exact scalar_toBytes _
  refine ⟨?_, ?_, ?_, ?_, ?_, ?_, ?_⟩
  · rw [hflat, decodes_perm hout]
    exact h.outputs
  · rw [hflat, decodes_perm hin]
    exact h.inputs
  · rw [hflat, decodes_perm hex]
    exact h.excesses
  · rw [hflat, decodes_perm hik]
    exact h.inputKeys
  · rw [hflat, decodes_perm hoe]
    exact h.ownerExcesses
  · rw [hflat, hflat, hflat, pointSum_perm hout, pointSum_perm hin, pointSum_perm hex, hko,
      List.map_singleton, List.sum_singleton, mergedOf_feeSum]
    exact h.balance
  · rw [hflat, hflat, pointSum_perm hik, pointSum_perm hoe, hoo]
    exact h.owners

/-- Aggregation is a well-behaved merge of valid transactions: in any order, in any parts,
fees adding up and balances kept. -/
theorem aggregation_merges {txs : List Transaction}
    (hv : ∀ t ∈ txs, ∃ ctx, t.validateStructure ctx = .ok ()) :
    (∀ txs', txs.Perm txs' → Transaction.aggregate txs' = Transaction.aggregate txs) ∧
    ∀ agg, Transaction.aggregate txs = .ok agg →
      (∀ parts : List (List Transaction), parts.flatten.Perm txs →
        ∃ aggs, parts.mapM Transaction.aggregate = .ok aggs ∧
          Transaction.aggregate aggs = .ok agg) ∧
      ∀ fees, txs.mapM Transaction.fee = .ok fees → fees.sum ≤ u64Max →
        agg.fee = .ok fees.sum ∧
          ((∀ t ∈ txs, t.verifySums = .ok ()) → agg.verifySums = .ok ()) := by
  have hs : ∀ t ∈ txs, t.Sound := fun t ht =>
    let ⟨_, h⟩ := hv t ht
    (validateStructure_eq_ok.mp h).2
  refine ⟨fun txs' hp => (aggregate_perm hs hp).symm, fun agg ha => ⟨fun parts hp => ?_, ?_⟩⟩
  · have hparts : ∀ t ∈ parts.flatten, t.Sound := fun t ht => hs t (hp.mem_iff.mp ht)
    have hflat : Transaction.aggregate parts.flatten = .ok agg := by
      rw [aggregate_perm hparts hp, ha]
    exact ⟨_, aggregate_parts hparts hflat⟩
  · intro fees hf hle
    obtain ⟨hd, -, rfl⟩ := (aggregate_eq_ok_iff hs).mp ha
    rw [mapM_fee_eq_ok hf] at hle ⊢
    rw [← mergedOf_feeSum] at hle ⊢
    refine ⟨fee_eq_ok.mpr ⟨rfl, hle⟩, fun hsums => ?_⟩
    have hagg : (mergedOf txs).Sound := (merged_sound_iff hs).mpr hd
    exact (verifySums_eq_ok hagg).mpr ⟨hle, mergedOf_sums (sumsHold_all fun t ht =>
      ((verifySums_eq_ok (hs t ht)).mp (hsums t ht)).2)⟩

omit [Primitives] in
theorem aggregation_merges_pair :
    letI := Primitives.words
    Transaction.aggregate [payment 3 4 6 2, payment 1 2 5 1] =
      Transaction.aggregate [payment 1 2 5 1, payment 3 4 6 2] :=
  letI := Primitives.words
  (aggregation_merges (fun t ht => ⟨.relay, by revert t; decide +kernel⟩)).1 _ (.swap _ _ _)

end Midwimble
