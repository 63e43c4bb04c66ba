import Mathlib.Tactic.Module
import Midwimble.Template.Selection

namespace Midwimble
open Fallible KeySort
set_option autoImplicit true

variable [Primitives]

/-- What the range-proof library promises: a proof it makes verifies. -/
def RangeProofsComplete : Prop :=
  ∀ (n : Nat) (binding : Bytes32) (values : List Nat) (blindings : List Primitives.Scalar)
    (seed proof : Bytes), values.length = blindings.length →
    Primitives.rangeProve n binding values blindings seed = some proof →
    Primitives.rangeVerify n binding proof
      (List.zipWith (fun v r => compress (commit v r)) values blindings) = true

theorem response_opens (k c x : Primitives.Scalar) (g : Primitives.Point) :
    (k + c * x) • g - c • x • g = k • g := by
  module

theorem schnorrSign_verifies {secret : Primitives.Scalar} (h : secret • (genG : Primitives.Point) ≠ 0)
    (msg aux : Bytes32) :
    schnorrVerify (compress (secret • genG)) msg (schnorrSign secret msg aux) = true := by
  simp only [schnorrVerify, schnorrSign, Primitives.decompress_compress,
    Primitives.scalarFromBytes_toBytes, if_neg h, response_opens, decide_true]

theorem kernel_verifies (features : KernelFeatures) (fee minHeight : Nat)
    (excessSecret ownerSecret : Primitives.Scalar) (aux : Bytes32) :
    (Kernel.new features fee minHeight excessSecret ownerSecret aux).verifySignature = true := by
  simp only [Kernel.verifySignature, Kernel.new, kernelVerify, kernelSign,
    Primitives.decompress_compress, Primitives.scalarFromBytes_toBytes, response_opens,
    decide_true]

theorem verifyCrypto_eq_ok {t : Transaction} : t.verifyCrypto = .ok () ↔
    (∀ g ∈ t.body.outputs, g.verifyRangeProof) ∧ (∀ i ∈ t.body.inputs, i.verifySignature) ∧
      ∀ k ∈ t.body.kernels, k.verifySignature := by
  simp [Transaction.verifyCrypto, check_bind_eq_ok, bailIf_eq_ok]

theorem aggregate_verifies (h : Transaction.aggregate txs = .ok agg)
    (hv : ∀ t ∈ txs, t.verifyCrypto = .ok ()) : agg.verifyCrypto = .ok () := by
  obtain ⟨offset, ownerOffset, -, -, -, -, rfl⟩ := aggregate_eq_ok.mp h
  simp only [verifyCrypto_eq_ok] at hv ⊢
  refine ⟨fun g hg => ?_, fun i hi => ?_, fun k hk => ?_⟩
  · obtain ⟨t, ht, hgt⟩ := List.mem_flatMap.mp ((sortBy_perm _ _).mem_iff.mp hg)
    exact (hv t ht).1 g hgt
  · obtain ⟨t, ht, hit⟩ := List.mem_flatMap.mp ((sortBy_perm _ _).mem_iff.mp hi)
    exact (hv t ht).2.1 i hit
  · obtain ⟨t, ht, hkt⟩ := List.mem_flatMap.mp ((sortBy_perm _ _).mem_iff.mp hk)
    exact (hv t ht).2.2 k hkt

theorem newOutputs_commitments (h : newOutputs draw index payouts = .ok created) :
    (created.map NewOutput.output).map Output.commitment =
      List.zipWith (fun v r => compress (commit v r)) (created.map NewOutput.value)
        (created.map NewOutput.blinding) := by
  induction payouts generalizing index created with
  | nil =>
    simp only [newOutputs, Except.ok.injEq] at h
    subst h
    rfl
  | cons p rest ih =>
    simp only [newOutputs, bind_eq_ok, Except.ok.injEq] at h
    obtain ⟨_, -, c, hc, others, ho, rfl⟩ := h
    simp only [newOutput, bind_eq_ok, Except.ok.injEq] at hc
    obtain ⟨_, -, _, -, rfl⟩ := hc
    simpa using ih ho

theorem zipWith_commit_replicate (n : Nat) :
    List.zipWith (fun v r => compress (commit v r)) (List.replicate n 0)
      (List.replicate n (0 : Primitives.Scalar)) = List.replicate n identity := by
  rw [List.zipWith_replicate, Nat.min_self, commit, Nat.cast_zero, zero_smul, zero_smul, add_zero,
    Primitives.compress_zero]
  rfl

theorem prove_verifies (hr : RangeProofsComplete)
    (h : OutputGroup.prove outputs values blindings seed = .ok g)
    (hc : outputs.map Output.commitment =
      List.zipWith (fun v r => compress (commit v r)) values blindings)
    (hlen : g.rangeProof.length = rangeProofLen g.outputs.length) : g.verifyRangeProof = true := by
  simp only [OutputGroup.prove, proveRange, bind_eq_ok, bailIf_eq_ok, orBail_eq_ok,
    Except.ok.injEq, ne_eq, not_not] at h
  obtain ⟨_, ho, proof, ⟨_, hn, _, hb, hp⟩, rfl⟩ := h
  have hcl : (outputs.map Output.commitment).length = values.length := by
    rw [List.length_map, ho]
  have hverify := hr _ _ _ _ _ _ (by simp [hb]) hp
  rw [List.zipWith_append hb.symm, zipWith_commit_replicate, ← hc] at hverify
  have hlen' : proof.length = rangeProofLen values.length := by rw [hlen, ho]
  unfold OutputGroup.verifyRangeProof verifyRange OutputGroup.commitments
  simp only [hcl, hlen', ne_eq, not_true_eq_false, or_false, if_neg hn]
  exact hverify

theorem buildCoinbase_verifies (hr : RangeProofsComplete)
    (h : buildCoinbaseWith payouts extra draw = .ok (cb, receipts)) :
    cb.verifyCrypto = .ok () := by
  simp only [buildCoinbaseWith, bind_eq_ok, Except.ok.injEq, Prod.mk.injEq] at h
  obtain ⟨_, -, created, hc, group, hg, _, hv, rfl, -⟩ := h
  simp only [Coinbase.validateStructure, check_bind_eq_ok] at hv
  obtain ⟨hs, -⟩ := hv
  simp only [OutputGroup.checkStructure, check_bind_eq_ok, bailIf_eq_ok, not_not, ne_eq] at hs
  have hrange := prove_verifies hr hg (newOutputs_commitments hc) hs.2.1
  simp only [Coinbase.verifyCrypto, check_bind_eq_ok, bailIf_eq_ok, Bool.not_eq_true',
    Bool.not_eq_false]
  exact ⟨hrange, kernel_verifies _ _ _ _ _ _⟩

theorem payCoinbase_verifies (hr : RangeProofsComplete)
    (h : payCoinbase amount payouts extra draw = .ok (coinbase, receipts)) :
    ∀ cb ∈ coinbase, cb.verifyCrypto = .ok () := by
  simp only [payCoinbase] at h
  split at h
  · simp only [Except.ok.injEq, Prod.mk.injEq] at h
    simp [← h.1]
  · simp only [bind_eq_ok, Prod.exists, Except.ok.injEq, Prod.mk.injEq] at h
    obtain ⟨split, -, cb, receipts, hcb, rfl, -⟩ := h
    intro cb' hm
    rw [Option.mem_some_iff] at hm
    subst hm
    exact buildCoinbase_verifies hr hcb

end Midwimble
