import Mathlib.Tactic.Abel
import Mathlib.Tactic.Module
import Midwimble.Chain.Solved
import Midwimble.Lib.KeySum

namespace Midwimble
open Fallible KeySum
set_option autoImplicit true

variable [Primitives]

/-- The point an encoding stands for. -/
def point (b : Point32) : Primitives.Point := (decompress b).getD 0

theorem point_eq (h : decompress b = some p) : point b = p := by rw [point, h, Option.getD_some]

/-- The sum of the points these encodings stand for. -/
def pointSum (bs : List Point32) : Primitives.Point := (bs.map point).sum

@[simp] theorem pointSum_nil : pointSum [] = 0 := rfl

@[simp] theorem pointSum_cons (b : Point32) (bs : List Point32) :
    pointSum (b :: bs) = point b + pointSum bs := by
  rw [pointSum, List.map_cons, List.sum_cons, pointSum]

@[simp] theorem pointSum_append (bs cs : List Point32) :
    pointSum (bs ++ cs) = pointSum bs + pointSum cs := by
  rw [pointSum, List.map_append, List.sum_append, pointSum, pointSum]

theorem sumPoints_eq_ok :
    sumPoints bs = .ok p ↔ (∀ b ∈ bs, (decompress b).isSome) ∧ p = pointSum bs := by
  have hfold : ∀ (acc : Primitives.Point), bs.foldlM (fun acc b => do
      let pt ← orBail (decompress b) (Err.message s!"invalid point encoding {hexEncode b}")
      .ok (acc + pt)) acc = .ok p ↔
        (∀ b ∈ bs, (decompress b).isSome) ∧ p = acc + pointSum bs := by
    induction bs with
    | nil =>
      intro acc
      rw [List.foldlM_nil, pure_eq_ok, pointSum_nil, add_zero]
      exact ⟨fun h => ⟨fun b hb => absurd hb (by simp), h.symm⟩, fun h => h.2.symm⟩
    | cons b bs ih =>
      intro acc
      simp only [List.foldlM_cons, bind_eq_ok, orBail_eq_ok, Except.ok.injEq, ih,
        List.forall_mem_cons]
      constructor
      · rintro ⟨_, ⟨pt, hb, rfl⟩, hbs, rfl⟩
        refine ⟨⟨by rw [hb]; rfl, hbs⟩, ?_⟩
        rw [pointSum_cons, point_eq hb, add_assoc]
      · rintro ⟨⟨hb, hbs⟩, rfl⟩
        obtain ⟨pt, hb⟩ := Option.isSome_iff_exists.mp hb
        refine ⟨_, ⟨pt, hb, rfl⟩, hbs, ?_⟩
        rw [pointSum_cons, point_eq hb, add_assoc]
  rw [sumPoints, hfold 0, zero_add]

/-- What the whole-chain audit checks, over the state as points. -/
structure Audited (s : State) : Prop where
  decodes : ∀ c ∈ s.utxos, (decompress c).isSome
  balance : ∃ excess offset, decompress s.kernelExcessSum = some excess ∧
    scalarFromBytes s.totalKernelOffset = some offset ∧
    keySum point s.utxos - (s.supply : Primitives.Scalar) • genG = excess + offset • genH

theorem verifySupply_eq_ok : s.verifySupply = .ok () ↔ Audited s := by
  simp only [State.verifySupply, bind_eq_ok, orBail_eq_ok, bailIf_eq_ok, sumPoints_eq_ok,
    not_not, ne_eq, Std.ExtTreeMap.mem_keys]
  constructor
  · rintro ⟨_, ⟨hd, rfl⟩, excess, he, offset, ho, hb⟩
    exact ⟨hd, excess, offset, he, ho, hb⟩
  · rintro ⟨hd, excess, offset, he, ho, hb⟩
    exact ⟨_, ⟨hd, rfl⟩, excess, he, offset, ho, hb⟩

theorem audited_genesis : Audited .genesis := by
  refine ⟨by simp [State.genesis], 0, 0, ?_, ?_, ?_⟩
  · exact decompress_identity
  · exact scalarFromBytes_zero
  · simp [State.genesis]

theorem keySum_spends {inputs : List Input} (h : inputs.foldlM (spendInput height) s = .ok s') :
    keySum point s'.utxos + pointSum (inputs.map Input.commitment) = keySum point s.utxos ∧
      ∀ c ∈ s'.utxos, c ∈ s.utxos := by
  induction inputs generalizing s with
  | nil =>
    rw [List.foldlM_nil, pure_eq_ok] at h
    simp [h]
  | cons input inputs ih =>
    obtain ⟨t, ht, hr⟩ := foldlM_cons_eq_ok.mp h
    obtain ⟨entry, he, -, -, rfl⟩ := spendInput_eq_ok.mp ht
    obtain ⟨hsum, hmem⟩ := ih hr
    refine ⟨?_, fun c hc => ?_⟩
    · rw [← keySum_erase he, ← hsum, List.map_cons, pointSum_cons, add_comm (point _),
        ← add_assoc]
    · exact (Std.ExtTreeMap.mem_erase.mp (hmem c hc)).2

theorem keySum_adds {outputs : List Output}
    (h : outputs.foldlM (addOutput height isCoinbase) s = .ok s') :
    keySum point s'.utxos = keySum point s.utxos + pointSum (outputs.map Output.commitment) ∧
      ∀ c ∈ s'.utxos, c ∈ s.utxos ∨ c ∈ outputs.map Output.commitment := by
  induction outputs generalizing s with
  | nil =>
    rw [List.foldlM_nil, pure_eq_ok] at h
    simp [h]
  | cons output outputs ih =>
    obtain ⟨t, ht, hr⟩ := foldlM_cons_eq_ok.mp h
    obtain ⟨hnew, rfl⟩ := addOutput_eq_ok.mp ht
    obtain ⟨hsum, hmem⟩ := ih hr
    refine ⟨?_, fun c hc => ?_⟩
    · rw [hsum, keySum_insert hnew, List.map_cons, pointSum_cons, add_assoc]
    · rcases hmem c hc with hc | hc
      · rcases Std.ExtTreeMap.mem_insert.mp hc with hc | hc
        · exact .inr (by simp [Std.LawfulEqCmp.eq_of_compare hc])
        · exact .inl hc
      · exact .inr (List.mem_cons_of_mem _ hc)

theorem excess_adds {ks : List Kernel} (h : ks.foldlM addKernel acc = .ok acc') :
    acc'.2 = acc.2 + pointSum (ks.map Kernel.excess) := by
  induction ks generalizing acc with
  | nil =>
    rw [List.foldlM_nil, pure_eq_ok] at h
    simp [h]
  | cons k ks ih =>
    obtain ⟨t, ht, hr⟩ := foldlM_cons_eq_ok.mp h
    obtain ⟨-, excess, he, rfl⟩ := addKernel_eq_ok.mp ht
    rw [ih hr, List.map_cons, pointSum_cons, point_eq he, add_assoc]

/-- A balanced body: what its outputs and fees exceed its inputs by is its kernels' excess
and offset. -/
structure BodyBalance (t : Transaction) (fees : Nat) (offset : Primitives.Scalar) : Prop where
  outputs : ∀ c ∈ t.outputCommitments, (decompress c).isSome
  balance : pointSum t.outputCommitments - pointSum t.inputCommitments +
      (fees : Primitives.Scalar) • genG =
    pointSum (t.body.kernels.map Kernel.excess) + offset • genH

theorem verifySums_balance (h : Transaction.verifySums t = .ok ()) (hf : t.fee = .ok fees)
    (ho : scalarFromBytes t.kernelOffset = some offset) : BodyBalance t fees offset := by
  simp only [Transaction.verifySums, bind_eq_ok, orBail_eq_ok, bailIf_eq_ok, sumPoints_eq_ok,
    not_not, ne_eq, hf, ho, Except.ok.injEq, Option.some.injEq] at h
  obtain ⟨_, rfl, _, -, _, rfl, _, ⟨hout, rfl⟩, _, ⟨-, rfl⟩, _, ⟨-, rfl⟩, _, hb, -⟩ := h
  exact ⟨hout, hb⟩

theorem verifySum_balance (h : Coinbase.verifySum cb amount = .ok ()) :
    (∀ c ∈ cb.outputs.commitments, (decompress c).isSome) ∧
      pointSum cb.outputs.commitments - (amount : Primitives.Scalar) • genG =
        point cb.kernel.excess := by
  simp only [Coinbase.verifySum, bind_eq_ok, orBail_eq_ok, bailIf_eq_ok, sumPoints_eq_ok,
    not_not, ne_eq] at h
  obtain ⟨_, ⟨hout, rfl⟩, excess, he, hb⟩ := h
  exact ⟨hout, by rw [hb, point_eq he]⟩

theorem validateBlockContents_shape
    (h : validateBlockContents batch height skip subsidy relayFrom = .ok ()) :
    ∃ fees, batch.body.fee = .ok fees ∧
      ((height = 0 ∧ batch.coinbase = none) ∨
        (∃ cb, batch.coinbase = some cb ∧ batch.body.verifySums = .ok () ∧
          cb.verifySum (subsidy + fees) = .ok ()) ∨
        (batch.coinbase = none ∧ batch.body.verifySums = .ok () ∧ subsidy + fees = 0)) := by
  obtain ⟨-, -, -, fees, hf, -, hp⟩ := validateBlockContents_eq_ok.mp h
  refine ⟨fees, hf, ?_⟩
  cases hp with
  | genesis hh hcb _ => exact .inl ⟨hh, hcb⟩
  | coinbase cb _ hcb h =>
    simp only [validateWithCoinbase, bind_eq_ok] at h
    obtain ⟨_, -, _, -, _, -, _, -, _, hv, _, hs, -⟩ := h
    exact .inr (.inl ⟨cb, hcb, hv, hs⟩)
  | nothing _ hcb h =>
    simp only [validateWithoutCoinbase, bind_eq_ok, bailIf_eq_ok, not_not, ne_eq] at h
    obtain ⟨_, ha, _, -, _, hv, -⟩ := h
    exact .inr (.inr ⟨hcb, hv, ha⟩)

/-- What a block's shape says of its points: subsidy enters, fees stay, offsets add. -/
structure BlockBalance (batch : Batch) (subsidy : Nat) (offset : Primitives.Scalar) : Prop where
  decodes : ∀ c ∈ batch.body.outputCommitments ++
    (coinbaseOutputs batch.coinbase).map Output.commitment, (decompress c).isSome
  balance : pointSum batch.body.outputCommitments +
      pointSum ((coinbaseOutputs batch.coinbase).map Output.commitment) -
        pointSum batch.body.inputCommitments =
    pointSum ((blockKernels batch.body batch.coinbase).map Kernel.excess) + offset • genH +
      (subsidy : Primitives.Scalar) • genG

theorem blockBalance_some (h : BodyBalance batch.body fees offset) (hcb : batch.coinbase = some cb)
    (hs : cb.verifySum (subsidy + fees) = .ok ()) : BlockBalance batch subsidy offset := by
  obtain ⟨hout, hsum⟩ := verifySum_balance hs
  have hout' : (coinbaseOutputs batch.coinbase).map Output.commitment =
      cb.outputs.commitments := by
    rw [hcb]
    rfl
  have hks : blockKernels batch.body batch.coinbase = batch.body.body.kernels ++ [cb.kernel] := by
    rw [hcb]
    rfl
  refine ⟨?_, ?_⟩
  · rw [hout']
    intro c hc
    exact (List.mem_append.mp hc).elim (h.outputs c) (hout c)
  · have hexcess := eq_sub_of_add_eq h.balance.symm
    rw [hout', hks, List.map_append, pointSum_append, List.map_singleton, pointSum_cons,
      pointSum_nil, add_zero, ← hsum, hexcess, Nat.cast_add, add_smul]
    abel

theorem blockBalance_none (h : BodyBalance batch.body fees offset) (hcb : batch.coinbase = none)
    (hz : subsidy + fees = 0) : BlockBalance batch subsidy offset := by
  have hbal := h.balance
  obtain ⟨rfl, rfl⟩ := Nat.add_eq_zero_iff.mp hz
  refine ⟨?_, ?_⟩
  · simpa [hcb, coinbaseOutputs] using h.outputs
  · simpa [hcb, coinbaseOutputs, blockKernels] using hbal

theorem blockBalance_genesis (hs : subsidy = 0) (ho : offset = 0) :
    BlockBalance .genesis subsidy offset := by
  subst hs ho
  constructor <;> simp [Batch.genesis, Transaction.empty, Transaction.outputCommitments,
    Transaction.outputs, Transaction.inputCommitments, coinbaseOutputs, blockKernels]

section Step

variable {state : State} {batch : Batch} {ts : List Nat} {skip : Bool}

theorem BlockSteps.genesis_subsidy (b : BlockSteps state .genesis ts skip)
    (h0 : state.height = 0) : b.subsidy = 0 := by
  rw [b.minted, h0]
  rfl

theorem BlockSteps.genesis_offset (b : BlockSteps state .genesis ts skip) : b.body.offset = 0 := by
  have h : scalarFromBytes 0 = some b.body.offset := b.body.offset_of_body
  rw [scalarFromBytes_zero] at h
  exact (Option.some.inj h).symm

theorem BlockSteps.balance (b : BlockSteps state batch ts skip)
    (hh : checkHeader state batch ts now pre = .ok ()) :
    BlockBalance batch b.subsidy b.body.offset := by
  by_cases h0 : state.height = 0
  · rw [checkHeader, if_pos h0, bailIf_eq_ok, not_not] at hh
    subst hh
    exact blockBalance_genesis (b.genesis_subsidy h0) b.genesis_offset
  · obtain ⟨fees, hf, ⟨hz, -⟩ | ⟨cb, hcb, hv, hs⟩ | ⟨hcb, hv, hz⟩⟩ :=
      validateBlockContents_shape b.contents
    · exact absurd hz h0
    · exact blockBalance_some (verifySums_balance hv hf b.body.offset_of_body) hcb hs
    · exact blockBalance_none (verifySums_balance hv hf b.body.offset_of_body) hcb hz

/-- A balanced block keeps the chain auditable. -/
theorem BlockSteps.audited (b : BlockSteps state batch ts skip) (ha : Audited state)
    (hb : BlockBalance batch b.subsidy b.body.offset) : Audited b.next := by
  obtain ⟨excess, offset, he, ho, hbal⟩ := ha.balance
  obtain ⟨hspent, hkept⟩ := keySum_spends b.body.spends
  obtain ⟨hpaid, hadded⟩ := keySum_adds b.body.pays
  obtain ⟨hrew, hnew⟩ := keySum_adds b.body.rewards
  have hex : b.body.excessSum = b.body.excessBefore +
      pointSum ((blockKernels batch.body batch.coinbase).map Kernel.excess) :=
    excess_adds b.body.sums
  have hbe : b.body.excessBefore = excess := by
    have h := b.body.excess_before
    rw [b.base_kernelExcessSum, he] at h
    exact (Option.some.inj h).symm
  have hto : b.body.total = offset := by
    have h := b.body.total_before
    rw [b.base_totalKernelOffset, ho] at h
    exact (Option.some.inj h).symm
  rw [b.base_utxos] at hspent hkept
  rw [b.next_eq]
  refine ⟨fun c hc => ?_, b.body.excessSum, b.body.total + b.body.offset, ?_, ?_, ?_⟩
  · rcases hnew c hc with hc | hc
    · rcases hadded c hc with hc | hc
      · exact ha.decodes c (hkept c hc)
      · exact hb.decodes c (List.mem_append_left _ hc)
    · exact hb.decodes c (List.mem_append_right _ hc)
  · exact Primitives.decompress_compress _
  · exact Primitives.scalarFromBytes_toBytes _
  · have hs := eq_sub_of_add_eq hspent
    have hstate := eq_add_of_sub_eq hbal
    have hblock := eq_add_of_sub_eq hb.balance
    calc keySum point b.body.rewarded.utxos -
          ((state.supply + b.subsidy : Nat) : Primitives.Scalar) • genG
        = keySum point state.utxos - pointSum batch.body.inputCommitments +
          (pointSum batch.body.outputCommitments +
            pointSum ((coinbaseOutputs batch.coinbase).map Output.commitment)) -
          ((state.supply : Primitives.Scalar) • genG + (b.subsidy : Primitives.Scalar) • genG) := by
          rw [hrew, hpaid, hs, Nat.cast_add, add_smul]
          simp only [Transaction.inputCommitments, Transaction.outputCommitments, add_assoc]
      _ = b.body.excessSum + (b.body.total + b.body.offset) • genH := by
          rw [hblock, hstate, hex, hbe, hto, add_smul]
          abel

end Step

/-- The audit passes on every state that accepted blocks can reach from genesis. -/
theorem supply_audited (h : Reachable s) : s.verifySupply = .ok () := by
  obtain ⟨blocks, hrun⟩ := h
  rw [verifySupply_eq_ok]
  unfold Run at hrun
  induction hrun with
  | start => exact audited_genesis
  | block _ ha ih =>
    obtain ⟨ts, now, pre, skip, h⟩ := ha
    obtain ⟨-, hh, b, -, rfl⟩ := applyBatchInternal_eq_ok.mp h
    exact b.audited ih (b.balance hh)

omit [Primitives] in
/-- Three rewards on top of genesis, the last two minted under a bond's signature. -/
theorem supply_audited_raced :
    letI := racedPrimitives
    newTopState.supply = blockReward 1 + blockReward 2 + blockReward 3 ∧
      newTopState.utxos.size = 3 ∧ newTopState.verifySupply = .ok () := by
  let := racedPrimitives
  exact ⟨by decide +kernel, by decide +kernel, supply_audited ⟨_, newTopState_chain.run⟩⟩

end Midwimble
