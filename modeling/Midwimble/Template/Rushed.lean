import Midwimble.Chain.Issuance
import Midwimble.Chain.Solved
import Midwimble.Chain.Timestamps
import Midwimble.Template.Agreement

namespace Midwimble
open Fallible
set_option autoImplicit true

theorem buildCoinbaseWith_singleton [Primitives] {draw : CoinbaseDraw} {created : NewOutput}
    (hv : value ≠ 0) (hn : newOutput payee value (draw.output 0) = .ok created)
    (hp : OutputGroup.prove [created.output] [created.value] [created.blinding] draw.seed =
      .ok group)
    (hs : Coinbase.validateStructure
      ⟨group, Kernel.new .coinbase 0 0 created.blinding 0 draw.aux, extra⟩ = .ok ()) :
    buildCoinbaseWith [(payee, value)] extra draw =
      .ok (⟨group, Kernel.new .coinbase 0 0 created.blinding 0 draw.aux, extra⟩,
        [payoutReceipt 0 created]) := by
  simp only [buildCoinbaseWith, newOutputs, List.isEmpty_cons, Bool.false_eq_true,
    not_false_eq_true, bailIf_neg, bailIf_neg hv, bind_ok, hn, List.map_cons, List.map_nil, hp,
    List.sum_singleton, hs]
  rfl

attribute [local instance] rushedWords

theorem blake3_eq (data : Bytes) :
    blake3 data = if data.length = 110 then wordOf (data.drop 38) else 0 := rfl

theorem kernel_id (k : Kernel) : k.id = k.excess := by
  have hlen : (domainPreimage (Bytes.ascii "midwimble.kernel.id.v1")
      [k.excess.toBytes, k.ownerExcess.toBytes]).length = 110 := by
    simp [domainPreimage, Bytes.prefixedAll, Bytes.prefixed, Bytes.ascii, Bytes32.toBytes]
  have hsplit : domainPreimage (Bytes.ascii "midwimble.kernel.id.v1")
      [k.excess.toBytes, k.ownerExcess.toBytes] =
        (Bytes.prefixed (Bytes.ascii "midwimble.kernel.id.v1") ++
          Bytes.le 8 k.excess.toBytes.length) ++
            (k.excess.toBytes ++ Bytes.prefixed k.ownerExcess.toBytes) := by
    simp only [domainPreimage, Bytes.prefixedAll, Bytes.prefixed, List.flatMap_cons,
      List.flatMap_nil, List.append_assoc, List.append_nil]
  have hpre : (Bytes.prefixed (Bytes.ascii "midwimble.kernel.id.v1") ++
      Bytes.le 8 k.excess.toBytes.length).length = 38 := by
    simp [Bytes.prefixed, Bytes.ascii]
  have hdrop : (domainPreimage (Bytes.ascii "midwimble.kernel.id.v1")
      [k.excess.toBytes, k.ownerExcess.toBytes]).drop 38 =
        k.excess.toBytes ++ Bytes.prefixed k.ownerExcess.toBytes := by
    rw [hsplit, List.drop_left' hpre]
  rw [Kernel.id, hashDomain, blake3_eq, if_pos hlen, hdrop, wordOf_toBytes]

theorem hashTimes_zero (n : Nat) : hashTimes n 0 = 0 := by
  induction n with
  | zero => rfl
  | succ n ih => exact ih

theorem solves (height : Nat) (miningHash : Bytes32) {target : Bytes32} (ht : target ≠ 0) :
    verifyPow height miningHash ⟨0, 0⟩ target none = .ok () := by
  have hlt : (0 : Bytes32) < target := by
    rw [BitVec.lt_def]
    exact Nat.pos_of_ne_zero fun h => ht (BitVec.eq_of_toNat_eq h)
  have hx : (createExtensionWith (powAlgoAt height) miningHash 0).finalHash = 0 := by
    cases powAlgoAt height with
    | walk => rfl
    | blake3Chain =>
      have hh : hash (miningHash.toBytes ++ Bytes.le 8 0) = 0 := by
        rw [hash, blake3_eq, if_neg]
        simp [Bytes32.toBytes]
      simp only [createExtensionWith, createExtension, hh, hashTimes_zero]
  rw [verifyPow, verifyPowWith, verifyExtensionWith_eq_ok]
  exact ⟨hlt, by rw [PowJob.holds, hx]; rfl⟩

/-- An address whose keys are the word one. -/
def payee : StealthAddress := ⟨1, 1, 0⟩

/-- A coinbase's randomness: the height blinds its output. -/
def rushedDraw (height : Nat) : CoinbaseDraw :=
  ⟨fun _ => ⟨(1 : Bytes32), BitVec.ofNat 256 height, List.replicate 24 0⟩, [], 0⟩

theorem payee_points : payee.points = .ok ((1 : Bytes32), (1 : Bytes32)) := by decide

theorem sealPayload_rushed (t : Bytes32) (height amount : Nat) :
    sealPayload t amount (BitVec.ofNat 256 height) (List.replicate 24 0) =
      .ok (rushedPayload height amount) := rfl

theorem newOutput_rushed (height amount : Nat) :
    newOutput payee amount ((rushedDraw height).output 0) =
      .ok ⟨rushedOutput height amount, amount, BitVec.ofNat 256 height, (1 : Bytes32)⟩ := by
  simp only [newOutput, payee_points, bind_ok, rushedDraw, sealPayload_rushed]
  rfl

theorem rushed_ownerKey (height amount : Nat) : (rushedOutput height amount).ownerKey = 1 := by
  have h : ∀ t, ownerTweak t = (0 : Bytes32) := fun _ => rfl
  simp only [rushedOutput, h]
  decide

theorem rushed_commitment_eq (height amount : Nat) :
    (rushedOutput height amount).commitment =
      BitVec.ofNat 256 amount * (1#256 <<< 128) + BitVec.ofNat 256 height * 1#256 := rfl

theorem rushed_commitment (ha : amount < 2 ^ 64) (hh : height < 2 ^ 64) :
    (rushedOutput height amount).commitment.toNat = amount * 2 ^ 128 + height := by
  have h1 : (1#256 <<< 128).toNat = 2 ^ 128 := by decide
  have h2 : (1#256).toNat = 1 := by decide
  rw [rushed_commitment_eq, BitVec.toNat_add, BitVec.toNat_mul, BitVec.toNat_mul,
    BitVec.toNat_ofNat, BitVec.toNat_ofNat, h1, h2]
  omega

theorem rushed_excess (height amount : Nat) :
    (rushedCoinbase height amount).kernel.excess = BitVec.ofNat 256 height := by
  have h : (rushedCoinbase height amount).kernel.excess = BitVec.ofNat 256 height * 1#256 := rfl
  rw [h]
  exact mul_one _

theorem isNonIdentity_of_ne {b : Point32} (h : b ≠ 0) : isNonIdentity b = true := by
  have hd : decompress b = some b := rfl
  simp only [isNonIdentity, hd]
  exact decide_eq_true h

theorem ne_zero_of_toNat {b : Bytes32} (h : b.toNat ≠ 0) : b ≠ 0 := by
  rintro rfl
  exact h rfl

theorem ofNat_height_toNat (hh : height < 2 ^ 64) : (BitVec.ofNat 256 height).toNat = height := by
  rw [BitVec.toNat_ofNat, Nat.mod_eq_of_lt (by omega)]

theorem rushed_validateStructure (ha : amount < 2 ^ 64) (h0 : height ≠ 0)
    (hh : height < 2 ^ 64) : (rushedCoinbase height amount).validateStructure = .ok () := by
  have hc : (rushedOutput height amount).commitment ≠ 0 := by
    apply ne_zero_of_toNat
    rw [rushed_commitment ha hh]
    omega
  have he : (rushedCoinbase height amount).kernel.excess ≠ 0 := by
    apply ne_zero_of_toNat
    rw [rushed_excess, ofNat_height_toNat hh]
    exact h0
  have hd : ∀ b, decompress b = some b := fun _ => rfl
  have hl : (rushedOutput height amount).payload.length = 80 := by
    simp [rushedOutput, rushedPayload, Bytes32.toBytes]
  have ho : (rushedOutput height amount).checkEncoding = .ok () := by
    simp only [Output.checkEncoding, isNonIdentity_of_ne hc, rushed_ownerKey, hd, hl]
    rfl
  have hkernel : (rushedCoinbase height amount).kernel.checkRules = .ok () := by
    simp only [Kernel.checkRules, isNonIdentity_of_ne he]
    rfl
  have hgroup : (rushedCoinbase height amount).outputs.checkStructure = .ok () := by
    simp only [OutputGroup.checkStructure, rushedCoinbase, checkAll, ho, List.length_replicate,
      List.length_singleton]
    rfl
  simp only [Coinbase.validateStructure, hgroup, hkernel]
  rfl

theorem splitByWeight_singleton (ha : amount ≠ 0) (payee : κ) :
    splitByWeight amount [(payee, 1)] = .ok [(payee, amount)] := by
  have hp := Nat.pos_of_ne_zero ha
  simp [splitByWeight, bailIf, bind_ok, hp, Nat.mod_one]

theorem proveRange_rushed (value : Nat) (blinding binding : Bytes32) (seed : Bytes) :
    proveRange [value] [blinding] binding seed = .ok (List.replicate 672 0) := by
  rw [proveRange, bailIf_neg, bailIf_neg]
  · rfl
  · simp
  · simp [maxGroupOutputs]

theorem prove_rushed (height amount : Nat) (seed : Bytes) :
    OutputGroup.prove [rushedOutput height amount] [amount]
      [(BitVec.ofNat 256 height : Bytes32)] seed = .ok (rushedCoinbase height amount).outputs := by
  have hlen : [rushedOutput height amount].length = [amount].length := rfl
  rw [OutputGroup.prove, bailIf_neg (not_not.mpr hlen), bind_ok, proveRange_rushed, bind_ok]
  rfl

theorem payCoinbase_rushed (ha : amount ≠ 0) (ha' : amount < 2 ^ 64) (h0 : height ≠ 0)
    (hh : height < 2 ^ 64) : ∃ receipts, payCoinbase amount [(payee, 1)] 0 (rushedDraw height) =
      .ok (some (rushedCoinbase height amount), receipts) := by
  have hbuild : ∃ receipts, buildCoinbaseWith [(payee, amount)] 0 (rushedDraw height) =
      .ok (rushedCoinbase height amount, receipts) :=
    ⟨_, buildCoinbaseWith_singleton ha (newOutput_rushed height amount)
      (prove_rushed height amount _) (rushed_validateStructure ha' h0 hh)⟩
  obtain ⟨receipts, hbuild⟩ := hbuild
  refine ⟨[payee].zip receipts, ?_⟩
  simp only [payCoinbase, if_neg ha, splitByWeight_singleton ha, bind_ok, hbuild]
  rfl

/-- What the block at `height` pays, if anything. -/
def rushedPaid (height : Nat) : Option Coinbase :=
  if blockReward height = 0 then none else some (rushedCoinbase height (blockReward height))

theorem blockReward_lt (height : Nat) : blockReward height < 2 ^ 64 := by
  have h := Emission.issuedBefore_add_blockReward_le height
  have hmax := emission.issuedBefore_le (height + 1)
  have : emission.maxSupply < 2 ^ 64 := by decide
  unfold blockReward
  omega

theorem payCoinbase_rushedPaid (h0 : height ≠ 0) (hh : height < 2 ^ 64) :
    ∃ receipts, payCoinbase (blockReward height) [(payee, 1)] 0 (rushedDraw height) =
      .ok (rushedPaid height, receipts) := by
  unfold rushedPaid
  by_cases ha : blockReward height = 0
  · exact ⟨[], by rw [if_pos ha, payCoinbase, if_pos ha]⟩
  · rw [if_neg ha]
    exact payCoinbase_rushed ha (blockReward_lt height) h0 hh

theorem empty_verifySums : Transaction.empty.verifySums = .ok () := by
  decide

theorem rushed_verifySum (height amount : Nat) :
    (rushedCoinbase height amount).verifySum amount = .ok () := by
  have hs : sumPoints (rushedCoinbase height amount).outputs.commitments =
      .ok (0 + commit amount (BitVec.ofNat 256 height)) := rfl
  have he : decompress (rushedCoinbase height amount).kernel.excess =
      some ((BitVec.ofNat 256 height : Primitives.Scalar) • genH) := rfl
  rw [Coinbase.verifySum, hs, bind_ok, he, orBail_some, bind_ok, bailIf_neg]
  rw [commit, zero_add, add_sub_cancel_left, not_not]

theorem rushed_weight (height amount : Nat) :
    (rushedCoinbase height amount).weight = 1 * outputWeight + kernelWeight := rfl

theorem rushed_apart (height amount : Nat) :
    checkCoinbaseApart .empty (rushedCoinbase height amount) = .ok () := rfl

theorem rushed_contents {batch : Batch} (h0 : height ≠ 0) (hh : height < 2 ^ 64)
    (hb : batch.body = .empty) (hc : batch.coinbase = rushedPaid height)
    (hr : batch.registrations = []) (hl : batch.relay = none) :
    validateBlockContents batch height true (blockReward height) relayFrom = .ok () := by
  have hlt := blockReward_lt height
  rw [validateBlockContents_eq_ok, hb, hr, hl]
  refine ⟨empty_validateStructure, Nat.zero_le _, rfl, 0, rfl, by unfold u64Max; omega, ?_⟩
  by_cases ha : blockReward height = 0
  · rw [rushedPaid, if_pos ha] at hc
    refine .nothing h0 hc (validateWithoutCoinbase_eq_ok.mpr ⟨by omega, ?_, ?_, by simp⟩)
    · simp [Batch.weight, hb, hc, hr, hl, Transaction.weight, Transaction.empty,
        Transaction.outputCount]
    · rw [hb]
      exact empty_verifySums
  · rw [rushedPaid, if_neg ha] at hc
    refine .coinbase _ h0 hc (validateWithCoinbase_eq_ok.mpr ⟨by omega, ?_, ?_, ?_, ?_, ?_, by simp⟩)
    · exact rushed_validateStructure hlt h0 hh
    · simp [Batch.weight, hb, hc, hr, hl, Transaction.weight, Transaction.empty,
        Transaction.outputCount, rushed_weight]
      decide
    · rw [hb]
      exact rushed_apart height _
    · rw [hb]
      exact empty_verifySums
    · exact rushed_verifySum height _

/-- When the block at `height` of the rushed chain is stamped. -/
def rushedStamp (height : Nat) : Nat := genesisTimestamp + height

/-- A chain of unsigned blocks one second apart, each a template solved. -/
structure Rushed (latest : Nat) (blocks : List Batch) (s : State) : Prop where
  chain : Chain latest blocks s
  height : s.height = blocks.length
  height_pos : s.height ≠ 0
  bonds : s.bonds = .empty
  kernels : ∀ id ∈ s.kernels.coins, id.toNat < s.height
  utxos : ∀ c ∈ s.utxos, c.toNat % 2 ^ 128 < s.height
  target : s.target = calculateTarget s.height (rushedStamp (s.height - 1))
  stamps : blocks.map Batch.timestamp = (List.range s.height).map rushedStamp
  unsigned : ∀ b ∈ blocks, b.signer = none

theorem rushed_kernels (height : Nat) :
    (blockKernels .empty (rushedPaid height)).map Kernel.id =
      if blockReward height = 0 then [] else [BitVec.ofNat 256 height] := by
  unfold rushedPaid
  split
  · rfl
  · simp [blockKernels, Transaction.empty, kernel_id, rushed_excess]

theorem rushed_outputs (height : Nat) :
    coinbaseOutputs (rushedPaid height) =
      if blockReward height = 0 then [] else [rushedOutput height (blockReward height)] := by
  unfold rushedPaid
  split <;> rfl

/-- The block's body applies. -/
theorem Rushed.applyBody (h : Rushed latest blocks s) (hh : s.height < 2 ^ 64) :
    ∃ next, applyBody s .empty (rushedPaid s.height) (blockReward s.height) = .ok next := by
  have hsupply := supply_le_issuedBefore ⟨_, h.chain.run⟩
  have hstep := Emission.issuedBefore_add_blockReward_le s.height
  have hmax := emission.issuedBefore_le (s.height + 1)
  have hm : emission.maxSupply ≤ u64Max := by decide
  have hlt := blockReward_lt s.height
  obtain ⟨rewarded, hrewarded⟩ : ∃ rewarded,
      (coinbaseOutputs (rushedPaid s.height)).foldlM (addOutput s.height true) s =
        .ok rewarded := by
    rw [rushed_outputs]
    split
    · exact ⟨s, rfl⟩
    · refine ⟨_, foldlM_cons_eq_ok.mpr ⟨_, addOutput_eq_ok.mpr ⟨fun hmem => ?_, rfl⟩, rfl⟩⟩
      have hlow := h.utxos _ hmem
      rw [rushed_commitment hlt hh] at hlow
      omega
  obtain ⟨⟨kernels, sum⟩, hsums⟩ : ∃ acc,
      (blockKernels .empty (rushedPaid s.height)).foldlM addKernel
        (s.kernels, s.kernelExcessSum) = .ok acc := by
    unfold rushedPaid
    split
    · exact ⟨_, rfl⟩
    · refine ⟨_, foldlM_cons_eq_ok.mpr ⟨_, addKernel_eq_ok.mpr ⟨fun hmem => ?_, _, rfl, rfl⟩, rfl⟩⟩
      have hlow := h.kernels _ hmem
      rw [kernel_id, rushed_excess, ofNat_height_toNat hh] at hlow
      omega
  refine ⟨_, applyBody_eq_ok.mpr ⟨⟨by simp [Transaction.empty], s, rfl, s, rfl, rewarded,
    hrewarded, s.kernelExcessSum, rfl, kernels, sum, hsums, s.totalKernelOffset, rfl,
    (0 : Bytes32), rfl, ?_, ?_⟩, rfl⟩⟩
  · unfold issuedBefore blockReward at *
    omega
  · unfold issuedBefore blockReward at *
    omega

def rushedTemplateDraw (height : Nat) : TemplateDraw :=
  ⟨rushedDraw height, rushedDraw height, 0⟩

/-- The template for the next block builds. -/
theorem Rushed.builds (h : Rushed latest blocks s) (hh : s.height < 2 ^ 64) :
    ∃ t receipts, buildTemplateRelayed s (blocks.map Batch.timestamp) [] [(payee, 1)] 0
        (some (rushedStamp s.height)) none none 0 (rushedTemplateDraw s.height) =
          .ok (t, receipts) ∧
      t.batch.timestamp = rushedStamp s.height ∧ t.batch.miner = none ∧ t.batch.relay = none ∧
      t.batch.registrations = [] ∧ t.batch.body = .empty ∧
      t.batch.coinbase = rushedPaid s.height := by
  obtain ⟨next, hnext⟩ := h.applyBody hh
  obtain ⟨receipts, hpay⟩ := payCoinbase_rushedPaid h.height_pos hh
  have hlt := blockReward_lt s.height
  have hfee : Transaction.empty.fee = .ok 0 := rfl
  have hadd : checkedAdd64 (blockReward s.height) 0 = some (blockReward s.height) := by
    rw [checkedAdd64_eq_some]
    unfold u64Max
    omega
  have hpayees : ¬ ([(payee, 1)].isEmpty = true ∨ [(payee, 1)].length > maxGroupOutputs) := by
    decide
  have hdraw : (rushedTemplateDraw s.height).coinbase = rushedDraw s.height := rfl
  have hrelay : ∀ room, chooseRelay s none none room (rushedStamp s.height) = none := fun _ => rfl
  have hrelayed : relayChosen s none (rushedStamp s.height) = .ok s := rfl
  have hreg : chooseRegistrations s s.target (rushedStamp s.height) none
      (ownRegistration s s.target (rushedStamp s.height) none) = [] := rfl
  have hmap : ([] : List BondRegistration).mapM (verifyRegistration s.relay s.target) =
      .ok [] := rfl
  have hsub : ∀ counts bonds, subsidyFor none counts bonds s.height (rushedStamp s.height) =
      blockReward s.height := fun _ _ => rfl
  have hcan : anyCanSign .empty (rushedStamp s.height) = false := rfl
  unfold buildTemplateRelayed
  simp only [bailIf_neg h.height_pos, bailIf_neg hpayees, bind_ok, pruneBonds_empty h.bonds,
    aggregate_nil, hfee, hadd, orBail_some, Option.getD_some, hdraw, hpay, hrelay, hrelayed,
    hreg, hmap, List.foldl_nil, Option.bind_none, hsub, h.bonds, hcan, Bool.false_eq_true,
    and_false, not_false_eq_true, bailIf_neg, if_true, hnext, List.foldlM_nil]
  have hpure : (pure next.bonds : Result BondSet) = .ok next.bonds := rfl
  rw [hpure, bind_ok, rushed_contents h.height_pos hh rfl rfl rfl rfl, bind_ok]
  simp only [signBatch, bind_ok]
  exact ⟨_, _, rfl, rfl, rfl, rfl, rfl, rfl, rfl⟩

theorem rangeProofs_rushed : RangeProofsComplete := fun _ _ _ _ _ _ _ _ => rfl

theorem Rushed.validTimestamp (h : Rushed latest blocks s) (hh : rushedStamp s.height < 2 ^ 64) :
    validateTimestamp (rushedStamp s.height) (blocks.map Batch.timestamp)
      (rushedStamp s.height) = .ok () := by
  rw [validateTimestamp_eq_ok]
  refine ⟨?_, fun floor hf => ?_⟩
  · simp only [satAdd64]
    omega
  · have hmem := medianTimeFloor_mem hf
    rw [h.stamps] at hmem
    obtain ⟨i, hi, rfl⟩ := List.mem_map.mp hmem
    rw [List.mem_range] at hi
    unfold rushedStamp
    omega

section Step

variable {batch : Batch}

theorem Rushed.base (h : Rushed latest blocks s) (hrelay : batch.relay = none)
    (b : BlockSteps s batch ts skip) : b.base = s := by
  have hr := b.relayed
  simp only [pruneBonds_empty h.bonds, hrelay, applyRelay, Except.ok.injEq, Prod.mk.injEq] at hr
  exact hr.2.2.symm

theorem Rushed.next_bonds (h : Rushed latest blocks s) (hrelay : batch.relay = none)
    (hreg : batch.registrations = []) (b : BlockSteps s batch ts skip) :
    b.next.bonds = .empty := by
  have hr := b.registers
  rw [h.base hrelay, registerBonds, hreg] at hr
  have hp : precheckRegistrations s.bonds [] batch.target batch.timestamp = .ok () := rfl
  simp only [hp, bind_ok, List.mapM_nil, bind_eq_ok, pure_eq_ok, Except.ok.injEq,
    Prod.mk.injEq] at hr
  obtain ⟨registered, rfl, bonds, hbonds, -, he⟩ := hr
  rw [List.foldlM_nil, pure_eq_ok] at hbonds
  rw [b.next_eq, ← he, ← hbonds, h.bonds]

theorem Rushed.next_kernels (h : Rushed latest blocks s) (hh : s.height < 2 ^ 64)
    (hbody : batch.body = .empty) (hcb : batch.coinbase = rushedPaid s.height)
    (b : BlockSteps s batch ts skip) {id : Bytes32} (hid : id ∈ b.next.kernels.coins) :
    id.toNat < s.height + 1 := by
  rw [b.next_eq] at hid
  rcases mem_kernels_of_sums b.body.sums hid with hm | ⟨k, hk, rfl⟩
  · have hm : id ∈ s.kernels.coins := b.base_kernels ▸ hm
    exact Nat.lt_succ_of_lt (h.kernels id hm)
  · rw [hbody, hcb] at hk
    have hid : k.id ∈ (blockKernels .empty (rushedPaid s.height)).map Kernel.id :=
      List.mem_map_of_mem hk
    rw [rushed_kernels] at hid
    split at hid
    · exact absurd hid List.not_mem_nil
    · rw [List.mem_singleton.mp hid, ofNat_height_toNat hh]
      exact Nat.lt_succ_self _

theorem Rushed.next_utxos (h : Rushed latest blocks s) (hh : s.height < 2 ^ 64)
    (hbody : batch.body = .empty) (hcb : batch.coinbase = rushedPaid s.height)
    (b : BlockSteps s batch ts skip) {c : Point32} (hc : c ∈ b.next.utxos) :
    c.toNat % 2 ^ 128 < s.height + 1 := by
  have hinputs : batch.body.body.inputs = [] := by
    rw [hbody]
    rfl
  have houtputs : batch.body.outputs = [] := by
    rw [hbody]
    rfl
  have hspent : b.body.spent = b.base := foldlM_eq_of_nil hinputs b.body.spends
  have hpaid : b.body.paid = b.body.spent := foldlM_eq_of_nil houtputs b.body.pays
  rw [b.next_eq] at hc
  rcases mem_utxos_of_adds b.body.rewards hc with hm | ⟨o, ho, rfl⟩
  · rw [hpaid, hspent, b.base_utxos] at hm
    exact Nat.lt_succ_of_lt (h.utxos c hm)
  · rw [hcb, rushed_outputs] at ho
    split at ho
    · exact absurd ho List.not_mem_nil
    · rw [List.mem_singleton.mp ho, rushed_commitment (blockReward_lt _) hh]
      omega

theorem Rushed.block (h : Rushed latest blocks s) (hh : s.height < 2 ^ 64)
    (hl : rushedStamp s.height ≤ latest) (b : BlockSteps s batch ts skip)
    (hok : applyBatch s batch (blocks.map Batch.timestamp) (rushedStamp s.height) = .ok b.next)
    (hrelay : batch.relay = none) (hreg : batch.registrations = [])
    (hbody : batch.body = .empty) (hcb : batch.coinbase = rushedPaid s.height)
    (htime : batch.timestamp = rushedStamp s.height) (hminer : batch.miner = none) :
    Rushed latest (blocks ++ [batch]) b.next where
  chain := h.chain.block hl hok
  height := by rw [b.next_height, h.height, List.length_append, List.length_singleton]
  height_pos := by
    rw [b.next_height]
    exact Nat.succ_ne_zero _
  bonds := h.next_bonds hrelay hreg b
  kernels := by
    rw [b.next_height]
    exact fun _ hid => h.next_kernels hh hbody hcb b hid
  utxos := by
    rw [b.next_height]
    exact fun _ hc => h.next_utxos hh hbody hcb b hc
  target := by rw [b.next_target, b.next_height, Nat.add_sub_cancel, htime]
  stamps := by
    rw [b.next_height, List.map_append, h.stamps, List.range_succ, List.map_append,
      List.map_singleton, List.map_singleton, htime]
  unsigned := by
    intro x hx
    rcases List.mem_append.mp hx with hx | hx
    · exact h.unsigned x hx
    · rw [List.mem_singleton.mp hx, Batch.signer, hminer, Option.map_none]

end Step

/-- The template for the next block builds and its block, solved, extends the chain. -/
theorem Rushed.mines (h : Rushed latest blocks s) (hh : rushedStamp s.height < 2 ^ 64)
    (hl : rushedStamp s.height ≤ latest) :
    ∃ t receipts, buildTemplateRelayed s (blocks.map Batch.timestamp) [] [(payee, 1)] 0
        (some (rushedStamp s.height)) none none 0 (rushedTemplateDraw s.height) =
          .ok (t, receipts) ∧
      validateTimestamp t.batch.timestamp (blocks.map Batch.timestamp) (rushedStamp s.height) =
        .ok () ∧
      verifyPow s.height t.miningHash ⟨0, 0⟩ t.batch.target none = .ok () ∧
      t.batch.relay = none ∧ (t.solved ⟨0, 0⟩ none).target = s.target ∧
      (t.solved ⟨0, 0⟩ none).signer = none ∧
      ∃ b : BlockSteps s (t.solved ⟨0, 0⟩ none) (blocks.map Batch.timestamp) false,
        applyBatch s (t.solved ⟨0, 0⟩ none) (blocks.map Batch.timestamp)
            (rushedStamp s.height) = .ok b.next ∧
          Rushed latest (blocks ++ [t.solved ⟨0, 0⟩ none]) b.next := by
  have hheight : s.height < 2 ^ 64 := by
    unfold rushedStamp at hh
    omega
  obtain ⟨t, receipts, hbuild, htime, hminer, hrelay, hreg, hbody, hcb⟩ := h.builds hheight
  have hrelayed : ∀ r ∈ t.batch.relay, ∀ start, relayStart s t.batch = some start →
      r.verifyPow start = .ok () := by
    intro r hr
    rw [hrelay] at hr
    cases hr
  obtain ⟨T⟩ := templateOf_build rangeProofs_rushed hbuild
    (fun _ hm => absurd hm List.not_mem_nil) hrelayed
  have hpow : verifyPow s.height t.miningHash ⟨0, 0⟩ t.batch.target none = .ok () := by
    apply solves
    rw [T.target, h.target]
    exact calculateTarget_ne_zero
  have hvalid : validateTimestamp t.batch.timestamp (blocks.map Batch.timestamp)
      (rushedStamp s.height) = .ok () := by
    rw [htime]
    exact h.validTimestamp hh
  have hsigner : (t.solved ⟨0, 0⟩ none).signer = none := by
    show t.batch.miner.map MinerAuth.bondId = none
    rw [hminer, Option.map_none]
  obtain ⟨b, hok, -, -⟩ := T.accepted hvalid hpow
  exact ⟨t, receipts, hbuild, hvalid, hpow, hrelay, T.target, hsigner, b, hok,
    h.block hheight hl b hok hrelay hreg hbody hcb htime hminer⟩

theorem rushed_first (latest : Nat) : Rushed latest [.genesis] .first where
  chain := Chain.block .genesis (Nat.zero_le latest) (genesis_accepted 0)
  height := rfl
  height_pos := Nat.succ_ne_zero 0
  bonds := rfl
  kernels := fun _ hid => absurd hid Std.ExtTreeSet.not_mem_empty
  utxos := fun _ hc => absurd hc Std.ExtTreeMap.not_mem_empty
  target := rfl
  stamps := rfl
  unsigned := by
    intro b hb
    rw [List.mem_singleton.mp hb]
    rfl

theorem rushed_chain (hn : n ≠ 0) (hh : rushedStamp n < 2 ^ 64) (hl : rushedStamp n ≤ latest) :
    ∃ blocks s, Rushed latest blocks s ∧ s.height = n := by
  induction n with
  | zero => exact absurd rfl hn
  | succ n ih =>
    by_cases h0 : n = 0
    · subst h0
      exact ⟨_, _, rushed_first latest, rfl⟩
    · have hstamp : rushedStamp n ≤ rushedStamp (n + 1) := Nat.le_succ _
      obtain ⟨blocks, s, h, rfl⟩ := ih h0 (by omega) (by omega)
      obtain ⟨t, -, -, -, -, -, -, -, b, -, h'⟩ := h.mines (by omega) (by omega)
      exact ⟨_, _, h', by rw [h'.height, h.height, List.length_append, List.length_singleton]⟩

theorem rushed_saturates (hl : rushedStamp 30000 ≤ latest) :
    ∃ blocks s, Rushed latest blocks s ∧ s.height = 27001 ∧ s.depth = u128Max ∧ 0 < s.capped := by
  have hstamps : rushedStamp 27000 ≤ rushedStamp 30000 := by decide
  have hfits : rushedStamp 30000 < 2 ^ 64 := by decide
  have hwork : calculateWork (calculateTarget 27000 (rushedStamp 26999)) = u128Max := by
    decide +kernel
  obtain ⟨blocks, s, h, hs⟩ := @rushed_chain 27000 latest (by decide) (by omega) (by omega)
  rw [← hs] at hstamps
  obtain ⟨t, -, -, -, -, -, htarget, hsigner, b, -, h'⟩ := h.mines (by omega) (by omega)
  have hw : (t.solved ⟨0, 0⟩ none).work = u128Max := by
    rw [Batch.work, htarget, h.target, hs, ← hwork]
  have hlt : b.credit.credited < (t.solved ⟨0, 0⟩ none).work := by
    rw [b.credited_unsigned hsigner h.height_pos]
    refine sliver_lt_of_le capWork_le ?_
    rw [hw]
    decide
  refine ⟨_, b.next, h', ?_, ?_, ?_⟩
  · rw [b.next_height, hs]
  · rw [b.next_depth, hw, satAdd128]
    exact Nat.min_eq_right (Nat.le_add_left _ _)
  · rw [b.next_capped, satAdd128]
    exact lt_min (Nat.lt_of_lt_of_le (Nat.sub_pos_of_lt hlt) (Nat.le_add_left _ _)) (by decide)

end Midwimble
