import Midwimble.Core.Template
import Midwimble.Lib.KeySort

namespace Midwimble
open Fallible KeySort
set_option autoImplicit true

theorem checkUnique_eq_ok {os : List Output} :
    checkUnique cs ks os = .ok () ↔
      (∀ o ∈ os, o.commitment ∉ cs ∧ o.ownerKey ∉ ks) ∧
        (os.map Output.commitment).Nodup ∧ (os.map Output.ownerKey).Nodup := by
  induction os generalizing cs ks with
  | nil => simp [checkUnique]
  | cons o os ih =>
    simp only [checkUnique, check_bind_eq_ok, bailIf_eq_ok, ih, List.map_cons, List.nodup_cons,
      List.mem_cons, not_or]
    simp only [List.mem_map, not_exists, not_and]
    constructor
    · rintro ⟨hc, hk, hos, hcn, hkn⟩
      refine ⟨?_, ⟨fun x hx => (hos x hx).1.1, hcn⟩, fun x hx => (hos x hx).2.1, hkn⟩
      rintro x (rfl | hx)
      · exact ⟨hc, hk⟩
      · exact ⟨(hos x hx).1.2, (hos x hx).2.2⟩
    · rintro ⟨hos, ⟨hco, hcn⟩, hko, hkn⟩
      obtain ⟨hc, hk⟩ := hos o (.inl rfl)
      exact ⟨hc, hk, fun x hx => ⟨⟨hco x hx, (hos x (.inr hx)).1⟩, hko x hx, (hos x (.inr hx)).2⟩,
        hcn, hkn⟩

/-- What a group of outputs adds to the keys seen. -/
def Transaction.ownerKeys (t : Transaction) : List Point32 := t.outputs.map Output.ownerKey

/-- What a context asks of a transaction's size. -/
def Transaction.Fits (t : Transaction) : Context → Prop
  | .relay => t.body.inputs ≠ [] ∧ t.body.outputs ≠ [] ∧ t.body.kernels ≠ [] ∧
      t.weight ≤ maxTxWeight
  | .block => t.weight ≤ maxBlockWeight

theorem checkSize_eq_ok {t : Transaction} : t.checkSize ctx = .ok () ↔ t.Fits ctx := by
  cases ctx <;> simp [Transaction.checkSize, Transaction.Fits, check_bind_eq_ok, bailIf_eq_ok,
    and_assoc]

variable [Primitives]

/-- The structural rules of a transaction that do not depend on where it is. -/
structure Transaction.Sound (t : Transaction) : Prop where
  kernelless : t.body.kernels = [] → t.body.inputs = [] ∧ t.body.outputs = []
  kernelOffset : (scalarFromBytes t.kernelOffset).isSome
  ownerOffset : (scalarFromBytes t.ownerOffset).isSome
  inputs : t.inputCommitments.IsChain (· < ·)
  groups : (t.body.outputs.map OutputGroup.sortKey).IsChain (· < ·)
  structures : ∀ g ∈ t.body.outputs, g.checkStructure = .ok ()
  commitments : t.outputCommitments.Nodup
  ownerKeys : t.ownerKeys.Nodup
  apart : ∀ c ∈ t.inputCommitments, c ∉ t.outputCommitments
  kernels : t.kernelIds.IsChain (· < ·)
  plain : ∀ k ∈ t.body.kernels, k.features = .plain ∧ k.checkRules = .ok ()

theorem validateStructure_eq_ok {t : Transaction} :
    t.validateStructure ctx = .ok () ↔ t.Fits ctx ∧ t.Sound := by
  simp only [Transaction.validateStructure, check_bind_eq_ok, bailIf_eq_ok, checkAll_eq_ok,
    checkUnique_eq_ok, checkSize_eq_ok, not_not, ne_eq, not_and, not_or]
  refine and_congr_right fun _ => ⟨?_, ?_⟩
  · rintro ⟨hk, ho, hi, hg, hs, ⟨-, hc, hw⟩, ha, hn, hp⟩
    refine ⟨?_, ?_, ?_, hi, hg, hs, hc, hw, ?_, hn, hp⟩
    · simpa using hk
    · simpa [Option.isSome_iff_ne_none] using ho.1
    · simpa [Option.isSome_iff_ne_none] using ho.2
    · simpa [Transaction.inputCommitments] using ha
  · rintro ⟨hk, ho, how, hi, hg, hs, hc, hw, ha, hn, hp⟩
    refine ⟨?_, ?_, hi, hg, hs, ⟨by simp, hc, hw⟩, ?_, hn, hp⟩
    · simpa using hk
    · simpa [← Option.isSome_iff_ne_none] using ⟨ho, how⟩
    · simpa [Transaction.inputCommitments] using ha

/-- The merged transaction `aggregate` validates. -/
def merged (txs : List Transaction) (offset ownerOffset : Primitives.Scalar) : Transaction where
  body :=
    { inputs := sortBy Input.commitment (txs.flatMap fun t => t.body.inputs)
      outputs := sortBy OutputGroup.sortKey (txs.flatMap fun t => t.body.outputs)
      kernels := sortBy Kernel.id (txs.flatMap fun t => t.body.kernels) }
  kernelOffset := scalarToBytes offset
  ownerOffset := scalarToBytes ownerOffset

theorem aggregate_eq_ok :
    Transaction.aggregate txs = .ok agg ↔ ∃ offset ownerOffset,
      Transaction.sumOffsets txs = .ok (offset, ownerOffset) ∧
        (txs.flatMap Transaction.inputCommitments).Nodup ∧
        (txs.flatMap Transaction.kernelIds).Nodup ∧
        (merged txs offset ownerOffset).validateStructure .block = .ok () ∧
        agg = merged txs offset ownerOffset := by
  have hi : (txs.flatMap fun t => t.body.inputs).map Input.commitment =
      txs.flatMap Transaction.inputCommitments := List.map_flatMap
  have hk : (txs.flatMap fun t => t.body.kernels).map Kernel.id =
      txs.flatMap Transaction.kernelIds := List.map_flatMap
  simp only [Transaction.aggregate, bind_eq_ok, Prod.exists, bailIf_eq_ok, not_not,
    sortBy_isChain_ne, hi, hk]
  constructor
  · rintro ⟨offset, ownerOffset, hs, _, hin, _, hkn, _, hv, ha⟩
    exact ⟨offset, ownerOffset, hs, hin, hkn, hv, (Except.ok.inj ha).symm⟩
  · rintro ⟨offset, ownerOffset, hs, hin, hkn, hv, rfl⟩
    exact ⟨offset, ownerOffset, hs, (), hin, (), hkn, (), hv, rfl⟩

section Merged

variable {txs : List Transaction} {offset ownerOffset : Primitives.Scalar}

theorem merged_inputCommitments :
    (merged txs offset ownerOffset).inputCommitments.Perm
      (txs.flatMap Transaction.inputCommitments) := by
  have h := (sortBy_perm Input.commitment (txs.flatMap fun t => t.body.inputs)).map
    Input.commitment
  rwa [List.map_flatMap] at h

theorem merged_kernelIds :
    (merged txs offset ownerOffset).kernelIds.Perm (txs.flatMap Transaction.kernelIds) := by
  have h := (sortBy_perm Kernel.id (txs.flatMap fun t => t.body.kernels)).map Kernel.id
  rwa [List.map_flatMap] at h

theorem merged_outputs :
    (merged txs offset ownerOffset).outputs.Perm (txs.flatMap Transaction.outputs) := by
  have h := (sortBy_perm OutputGroup.sortKey (txs.flatMap fun t => t.body.outputs)).flatMap_right
    OutputGroup.outputs
  rwa [List.flatMap_assoc] at h

theorem merged_outputCommitments :
    (merged txs offset ownerOffset).outputCommitments.Perm
      (txs.flatMap Transaction.outputCommitments) := by
  have h := (@merged_outputs _ txs offset ownerOffset).map
    Output.commitment
  rwa [List.map_flatMap] at h

theorem merged_ownerKeys :
    (merged txs offset ownerOffset).ownerKeys.Perm (txs.flatMap Transaction.ownerKeys) := by
  have h := (@merged_outputs _ txs offset ownerOffset).map
    Output.ownerKey
  rwa [List.map_flatMap] at h

theorem weight_eq (t : Transaction) : t.weight = t.inputCommitments.length * inputWeight +
    t.outputs.length * outputWeight + t.kernelIds.length * kernelWeight := by
  simp only [Transaction.weight, Transaction.inputCommitments, Transaction.outputs,
    Transaction.outputCount, Transaction.kernelIds, List.length_map, List.length_flatMap]

theorem merged_weight :
    (merged txs offset ownerOffset).weight = (txs.map Transaction.weight).sum := by
  rw [weight_eq, merged_inputCommitments.length_eq, merged_outputs.length_eq,
    merged_kernelIds.length_eq]
  induction txs with
  | nil => rfl
  | cons t txs ih =>
    rw [List.map_cons, List.sum_cons, ← ih, weight_eq]
    simp only [List.flatMap_cons, List.length_append]
    ring

end Merged

theorem sumOffsets_ok (h : ∀ t ∈ txs, t.Sound) :
    ∃ offset ownerOffset, Transaction.sumOffsets txs = .ok (offset, ownerOffset) := by
  have hstep : ∀ acc : Primitives.Scalar × Primitives.Scalar, ∀ t ∈ txs, ∃ acc', (do
      let o ← orBail (scalarFromBytes t.kernelOffset) (Err.message "bad kernel offset")
      let x ← orBail (scalarFromBytes t.ownerOffset) (Err.message "bad owner offset")
      .ok (acc.1 + o, acc.2 + x)) = .ok acc' := by
    intro acc t ht
    obtain ⟨o, ho⟩ := Option.isSome_iff_exists.mp (h t ht).kernelOffset
    obtain ⟨x, hx⟩ := Option.isSome_iff_exists.mp (h t ht).ownerOffset
    exact ⟨_, by rw [ho, hx]; rfl⟩
  obtain ⟨⟨offset, ownerOffset⟩, hs⟩ := foldlM_total hstep (0, 0)
  exact ⟨offset, ownerOffset, hs⟩

theorem sortKey_mem {g : OutputGroup} (h : g.checkStructure = .ok ()) :
    g.sortKey ∈ g.commitments := by
  simp only [OutputGroup.checkStructure, check_bind_eq_ok, bailIf_eq_ok] at h
  obtain ⟨hn, -⟩ := h
  cases hg : g.outputs with
  | nil => simp [hg] at hn
  | cons o os => simp [OutputGroup.sortKey, OutputGroup.commitments, hg]

theorem sortKeys_nodup {groups : List OutputGroup}
    (hs : ∀ g ∈ groups, g.checkStructure = .ok ())
    (hc : (groups.flatMap OutputGroup.commitments).Nodup) :
    (groups.map OutputGroup.sortKey).Nodup := by
  induction groups with
  | nil => exact .nil
  | cons g groups ih =>
    obtain ⟨hg, hgs⟩ := List.forall_mem_cons.mp hs
    rw [List.flatMap_cons, List.nodup_append] at hc
    obtain ⟨-, hrest, hapart⟩ := hc
    rw [List.map_cons, List.nodup_cons]
    refine ⟨fun hmem => ?_, ih hgs hrest⟩
    obtain ⟨g', hg', he⟩ := List.mem_map.mp hmem
    refine hapart g.sortKey (sortKey_mem hg) g.sortKey ?_ rfl
    rw [← he]
    exact List.mem_flatMap.mpr ⟨g', hg', sortKey_mem (hgs g' hg')⟩

/-- Transactions in which no input, output, owner key or kernel repeats, and none spends what
one of them creates. -/
structure Disjoint (txs : List Transaction) : Prop where
  inputs : (txs.flatMap Transaction.inputCommitments).Nodup
  outputs : (txs.flatMap Transaction.outputCommitments).Nodup
  ownerKeys : (txs.flatMap Transaction.ownerKeys).Nodup
  kernels : (txs.flatMap Transaction.kernelIds).Nodup
  apart : ∀ c ∈ txs.flatMap Transaction.inputCommitments,
    c ∉ txs.flatMap Transaction.outputCommitments

/-- Sound transactions merge into a sound one exactly when nothing in them repeats. -/
theorem merged_sound_iff {txs : List Transaction} {offset ownerOffset : Primitives.Scalar}
    (hv : ∀ t ∈ txs, t.Sound) :
    (merged txs offset ownerOffset).Sound ↔ Disjoint txs := by
  have hgroups : ∀ g ∈ txs.flatMap (fun t => t.body.outputs), g.checkStructure = .ok () := by
    intro g hg
    obtain ⟨t, ht, hgt⟩ := List.mem_flatMap.mp hg
    exact (hv t ht).structures g hgt
  have hflat : (txs.flatMap fun t => t.body.outputs).flatMap OutputGroup.commitments =
      txs.flatMap Transaction.outputCommitments := by
    have he : (fun t : Transaction => t.body.outputs.flatMap OutputGroup.commitments) =
        Transaction.outputCommitments := funext fun t => List.map_flatMap.symm
    rw [List.flatMap_assoc, he]
  constructor
  · intro hs
    refine ⟨merged_inputCommitments.nodup_iff.mp (nodup_of_isChain_lt hs.inputs),
      merged_outputCommitments.nodup_iff.mp hs.commitments,
      merged_ownerKeys.nodup_iff.mp hs.ownerKeys,
      merged_kernelIds.nodup_iff.mp (nodup_of_isChain_lt hs.kernels), fun c hc hout => ?_⟩
    exact hs.apart c (merged_inputCommitments.mem_iff.mpr hc)
      (merged_outputCommitments.mem_iff.mpr hout)
  · intro hd
    refine ⟨?_, ?_, ?_, ?_, ?_, ?_, ?_, ?_, ?_, ?_, ?_⟩
    · intro hempty
      have hnone : ∀ t ∈ txs, t.body.inputs = [] ∧ t.body.outputs = [] := by
        intro t ht
        refine (hv t ht).kernelless (List.eq_nil_iff_forall_not_mem.mpr fun k hk => ?_)
        have hm : k ∈ (merged txs offset ownerOffset).body.kernels :=
          (sortBy_perm _ _).mem_iff.mpr (List.mem_flatMap.mpr ⟨t, ht, hk⟩)
        rw [hempty] at hm
        exact List.not_mem_nil hm
      have hi : (txs.flatMap fun t => t.body.inputs) = [] :=
        List.flatMap_eq_nil_iff.mpr fun t ht => (hnone t ht).1
      have ho : (txs.flatMap fun t => t.body.outputs) = [] :=
        List.flatMap_eq_nil_iff.mpr fun t ht => (hnone t ht).2
      simp only [merged, hi, ho]
      exact ⟨rfl, rfl⟩
    · exact Option.isSome_iff_exists.mpr ⟨_, Primitives.scalarFromBytes_toBytes _⟩
    · exact Option.isSome_iff_exists.mpr ⟨_, Primitives.scalarFromBytes_toBytes _⟩
    · refine (sortBy_isChain_lt _ _).mpr ?_
      rw [List.map_flatMap]
      exact hd.inputs
    · exact (sortBy_isChain_lt _ _).mpr (sortKeys_nodup hgroups (hflat ▸ hd.outputs))
    · exact fun g hg => hgroups g ((sortBy_perm _ _).mem_iff.mp hg)
    · exact merged_outputCommitments.nodup_iff.mpr hd.outputs
    · exact merged_ownerKeys.nodup_iff.mpr hd.ownerKeys
    · intro c hc hout
      exact hd.apart c (merged_inputCommitments.mem_iff.mp hc)
        (merged_outputCommitments.mem_iff.mp hout)
    · refine (sortBy_isChain_lt _ _).mpr ?_
      rw [List.map_flatMap]
      exact hd.kernels
    · intro k hk
      obtain ⟨t, ht, hkt⟩ := List.mem_flatMap.mp ((sortBy_perm _ _).mem_iff.mp hk)
      exact (hv t ht).plain k hkt

/-- Transactions that do not conflict and fit a block together. -/
structure Compatible (txs : List Transaction) : Prop where
  valid : ∀ t ∈ txs, t.validateStructure .relay = .ok ()
  inputs : (txs.flatMap Transaction.inputCommitments).Nodup
  outputs : (txs.flatMap Transaction.outputCommitments).Nodup
  kernels : (txs.flatMap Transaction.kernelIds).Nodup
  apart : ∀ c ∈ txs.flatMap Transaction.inputCommitments,
    c ∉ txs.flatMap Transaction.outputCommitments
  weight : (txs.map Transaction.weight).sum ≤ maxBlockWeight

section Aggregate

variable {txs : List Transaction} {offset ownerOffset : Primitives.Scalar}

theorem Compatible.sound (h : Compatible txs) : ∀ t ∈ txs, t.Sound :=
  fun t ht => (validateStructure_eq_ok.mp (h.valid t ht)).2

theorem Compatible.merged_sound (h : Compatible txs) :
    (merged txs offset ownerOffset).Sound ↔ (txs.flatMap Transaction.ownerKeys).Nodup :=
  (merged_sound_iff h.sound).trans
    ⟨fun hm => hm.ownerKeys, fun hk => ⟨h.inputs, h.outputs, hk, h.kernels, h.apart⟩⟩

theorem Compatible.aggregate_iff (h : Compatible txs) :
    (∃ agg, Transaction.aggregate txs = .ok agg) ↔
      (txs.flatMap Transaction.ownerKeys).Nodup := by
  simp only [aggregate_eq_ok, validateStructure_eq_ok]
  constructor
  · rintro ⟨agg, offset, ownerOffset, -, -, -, ⟨-, hs⟩, -⟩
    exact h.merged_sound.mp hs
  · intro hk
    obtain ⟨offset, ownerOffset, ho⟩ := sumOffsets_ok h.sound
    refine ⟨_, offset, ownerOffset, ho, h.inputs, h.kernels, ⟨?_, h.merged_sound.mpr hk⟩, rfl⟩
    rw [Transaction.Fits, merged_weight]
    exact h.weight

end Aggregate

/-- A selection that remembers exactly what its compatible transactions spend and create. -/
structure Selection.Tracks (s : Selection) : Prop where
  compatible : Compatible s.chosen
  used : s.used = (s.chosen.map Transaction.weight).sum
  spent : s.spent = s.chosen.flatMap Transaction.inputCommitments
  created : s.created = s.chosen.flatMap Transaction.outputCommitments
  kernels : s.kernels = s.chosen.flatMap Transaction.kernelIds

theorem Selection.tracks_empty : Selection.empty.Tracks := by
  refine ⟨⟨?_, ?_, ?_, ?_, ?_, ?_⟩, rfl, rfl, rfl, rfl⟩ <;> simp [Selection.empty]

theorem Selection.conflicts_eq_false {s : Selection} :
    s.conflicts tx = false ↔ (∀ c ∈ tx.inputCommitments, c ∉ s.spent ∧ c ∉ s.created) ∧
      (∀ c ∈ tx.outputCommitments, c ∉ s.created ∧ c ∉ s.spent) ∧
      ∀ k ∈ tx.kernelIds, k ∉ s.kernels := by
  simp [Selection.conflicts, and_assoc]

theorem Selection.Tracks.add {s : Selection} (h : s.Tracks)
    (hv : tx.validateStructure .relay = .ok ()) (hf : s.unfit height budget tx = false)
    (hb : budget ≤ maxBlockWeight) (hc : s.conflicts tx = false) : (s.add tx).Tracks := by
  have hs := (validateStructure_eq_ok.mp hv).2
  obtain ⟨hin, hout, hker⟩ := Selection.conflicts_eq_false.mp hc
  rw [h.spent, h.created] at hin hout
  rw [h.kernels] at hker
  have hw := h.used
  refine ⟨⟨?_, ?_, ?_, ?_, ?_, ?_⟩, ?_, ?_, ?_, ?_⟩
  · intro t ht
    rcases List.mem_append.mp ht with ht | ht
    · exact h.compatible.valid t ht
    · rwa [List.mem_singleton.mp ht]
  · simp only [Selection.add, List.flatMap_append, List.flatMap_singleton]
    refine List.nodup_append.mpr ⟨h.compatible.inputs, nodup_of_isChain_lt hs.inputs, ?_⟩
    rintro a ha b hb' rfl
    exact (hin a hb').1 ha
  · simp only [Selection.add, List.flatMap_append, List.flatMap_singleton]
    refine List.nodup_append.mpr ⟨h.compatible.outputs, hs.commitments, ?_⟩
    rintro a ha b hb' rfl
    exact (hout a hb').1 ha
  · simp only [Selection.add, List.flatMap_append, List.flatMap_singleton]
    refine List.nodup_append.mpr ⟨h.compatible.kernels, nodup_of_isChain_lt hs.kernels, ?_⟩
    rintro a ha b hb' rfl
    exact hker a hb' ha
  · simp only [Selection.add, List.flatMap_append, List.flatMap_singleton, List.mem_append,
      not_or]
    rintro c (hc | hc)
    · exact ⟨h.compatible.apart c hc, fun ho => (hout c ho).2 hc⟩
    · exact ⟨(hin c hc).2, hs.apart c hc⟩
  · simp only [Selection.unfit, decide_eq_false_iff_not, not_or, not_lt, gt_iff_lt] at hf
    simp only [Selection.add, List.map_append, List.sum_append, List.map_singleton,
      List.sum_singleton]
    omega
  · simp [Selection.add, h.used]
  · simp [Selection.add, h.spent]
  · simp [Selection.add, h.created]
  · simp [Selection.add, h.kernels]

/-- The scan never reaches a candidate that it would take although a taken one pays one of
its owner keys. -/
def KeysApart (height budget : Nat) : Selection → List Transaction → Prop
  | _, [] => True
  | s, tx :: rest =>
    if s.unfit height budget tx ∨ s.conflicts tx then KeysApart height budget s rest
    else (∀ k ∈ tx.ownerKeys, k ∉ s.chosen.flatMap Transaction.ownerKeys) ∧
      KeysApart height budget (s.add tx) rest

def decidableKeysApart (height budget : Nat) :
    (s : Selection) → (candidates : List Transaction) →
      Decidable (KeysApart height budget s candidates)
  | _, [] => .isTrue trivial
  | s, tx :: rest =>
    have := decidableKeysApart height budget s rest
    have := decidableKeysApart height budget (s.add tx) rest
    -- Over the transaction's keys, not over all words.
    have : Decidable (∀ k ∈ tx.ownerKeys, k ∉ s.chosen.flatMap Transaction.ownerKeys) :=
      List.decidableBAll _ _
    inferInstanceAs (Decidable (if s.unfit height budget tx ∨ s.conflicts tx then
      KeysApart height budget s rest
    else (∀ k ∈ tx.ownerKeys, k ∉ s.chosen.flatMap Transaction.ownerKeys) ∧
      KeysApart height budget (s.add tx) rest))

instance : Decidable (KeysApart height budget s candidates) :=
  decidableKeysApart height budget s candidates

theorem Selection.consider_chosen (height budget : Nat) (s : Selection)
    (candidates : List Transaction) :
    ∃ more, (candidates.foldl (Selection.consider height budget) s).chosen =
      s.chosen ++ more := by
  induction candidates generalizing s with
  | nil => exact ⟨[], (List.append_nil _).symm⟩
  | cons tx rest ih =>
    obtain ⟨more, hm⟩ := ih (Selection.consider height budget s tx)
    rw [List.foldl_cons, hm]
    unfold Selection.consider
    split
    · exact ⟨more, rfl⟩
    · split
      · exact ⟨more, rfl⟩
      · exact ⟨tx :: more, by simp [Selection.add]⟩

theorem Selection.Tracks.scan_tracks {s : Selection} {candidates : List Transaction} (h : s.Tracks)
    (hb : budget ≤ maxBlockWeight)
    (hv : ∀ t ∈ candidates, t.validateStructure .relay = .ok ()) :
    (candidates.foldl (Selection.consider height budget) s).Tracks := by
  induction candidates generalizing s with
  | nil => exact h
  | cons tx rest ih =>
    obtain ⟨htx, hrest⟩ := List.forall_mem_cons.mp hv
    rw [List.foldl_cons, Selection.consider]
    by_cases hf : s.unfit height budget tx
    · rw [if_pos hf]
      exact ih h hrest
    · by_cases hc : s.conflicts tx
      · rw [if_neg hf, if_pos hc]
        exact ih h hrest
      · rw [if_neg hf, if_neg hc]
        exact ih (h.add htx (Bool.eq_false_iff.mpr hf) hb (Bool.eq_false_iff.mpr hc)) hrest

/-- What the scan leaves pays no owner key twice exactly when it never met one again. -/
theorem Selection.Tracks.scan_keys {s : Selection} {candidates : List Transaction}
    (h : s.Tracks) (hb : budget ≤ maxBlockWeight)
    (hv : ∀ t ∈ candidates, t.validateStructure .relay = .ok ())
    (hk : (s.chosen.flatMap Transaction.ownerKeys).Nodup) :
    ((candidates.foldl (Selection.consider height budget) s).chosen.flatMap
      Transaction.ownerKeys).Nodup ↔ KeysApart height budget s candidates := by
  induction candidates generalizing s with
  | nil => simpa [KeysApart] using hk
  | cons tx rest ih =>
    obtain ⟨htx, hrest⟩ := List.forall_mem_cons.mp hv
    rw [List.foldl_cons, Selection.consider, KeysApart]
    by_cases hf : s.unfit height budget tx
    · rw [if_pos hf, if_pos (.inl hf)]
      exact ih h hrest hk
    · by_cases hc : s.conflicts tx
      · rw [if_neg hf, if_pos hc, if_pos (.inr hc)]
        exact ih h hrest hk
      · rw [if_neg hf, if_neg hc, if_neg (not_or.mpr ⟨hf, hc⟩)]
        have ha := h.add htx (Bool.eq_false_iff.mpr hf) hb (Bool.eq_false_iff.mpr hc)
        have hkeys : ((s.add tx).chosen.flatMap Transaction.ownerKeys).Nodup ↔
            ∀ k ∈ tx.ownerKeys, k ∉ s.chosen.flatMap Transaction.ownerKeys := by
          have hown := (validateStructure_eq_ok.mp htx).2.ownerKeys
          simp only [Selection.add, List.flatMap_append, List.flatMap_singleton,
            List.nodup_append, hk, hown, true_and]
          exact ⟨fun hn k hk' hm => hn k hm k hk' rfl, fun hn a ha b hb he => hn b hb (he ▸ ha)⟩
        by_cases hnew : ∀ k ∈ tx.ownerKeys, k ∉ s.chosen.flatMap Transaction.ownerKeys
        · exact (ih ha hrest (hkeys.mpr hnew)).trans ⟨fun h => ⟨hnew, h⟩, fun h => h.2⟩
        · refine iff_of_false (fun hn => ?_) fun h => hnew h.1
          obtain ⟨more, hm⟩ := Selection.consider_chosen height budget (s.add tx) rest
          rw [hm, List.flatMap_append] at hn
          exact hnew (hkeys.mp (List.nodup_append.mp hn).1)

/-- No list of individually valid transactions makes the selection fail to aggregate, unless
two that it takes pay one owner key. -/
theorem selection_aggregates {candidates : List Transaction}
    (hv : ∀ t ∈ candidates, t.validateStructure .relay = .ok ())
    (hb : budget ≤ maxBlockWeight) :
    (∃ agg, Transaction.aggregate (selectTransactions candidates height budget) = .ok agg) ↔
      KeysApart height budget .empty (candidates.insertionSort paysAtLeast) := by
  have hs : ∀ t ∈ candidates.insertionSort paysAtLeast, t.validateStructure .relay = .ok () :=
    fun t ht => hv t ((List.mem_insertionSort _).mp ht)
  have htracks : ((candidates.insertionSort paysAtLeast).foldl
      (Selection.consider height budget) .empty).Tracks :=
    Selection.tracks_empty.scan_tracks hb hs
  exact htracks.compatible.aggregate_iff.trans (Selection.tracks_empty.scan_keys hb hs .nil)

/-- A transaction of one input, one output to `ownerKey` and one kernel. -/
def payment (spent created ownerKey excess : Bytes32) : Transaction where
  body :=
    { inputs := [⟨spent, 1, ⟨0, 0⟩⟩]
      outputs := [⟨[⟨created, ownerKey, 1, 0, List.replicate 80 0, 0⟩], List.replicate 672 0⟩]
      kernels := [⟨.plain, 0, 0, excess, 1, ⟨0, 0, 0⟩⟩] }
  kernelOffset := 0
  ownerOffset := 0

omit [Primitives] in
theorem selection_aggregates_pair :
    letI := Primitives.words
    ∃ agg, Transaction.aggregate
      (selectTransactions [payment 1 2 5 1, payment 3 4 6 2] 0 maxBlockWeight) = .ok agg :=
  letI := Primitives.words
  (selection_aggregates (by decide +kernel) (Nat.le_refl _)).mpr (by decide +kernel)

omit [Primitives] in
/-- Two valid payments to one owner key are both chosen, and do not aggregate. -/
theorem selection_repeats_owner_key :
    letI := Primitives.words
    ¬ ∀ candidates height budget, (∀ t ∈ candidates, t.validateStructure .relay = .ok ()) →
      budget ≤ maxBlockWeight →
      ∃ agg, Transaction.aggregate (selectTransactions candidates height budget) = .ok agg := by
  let := Primitives.words
  intro hall
  obtain ⟨agg, h⟩ := hall [payment 1 2 5 1, payment 3 4 5 2] 0 maxBlockWeight
    (by decide +kernel) (Nat.le_refl _)
  have hfails : (Transaction.aggregate
      (selectTransactions [payment 1 2 5 1, payment 3 4 5 2] 0 maxBlockWeight)).isOk = false := by
    decide +kernel
  rw [h] at hfails
  exact Bool.noConfusion hfails

end Midwimble
