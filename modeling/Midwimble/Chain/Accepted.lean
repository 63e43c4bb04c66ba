import Midwimble.Core.State
import Midwimble.ForkChoice.Windows

namespace Midwimble
open Fallible
set_option autoImplicit true

theorem checkedAdd64_eq_some : checkedAdd64 a b = some c ↔ a + b ≤ u64Max ∧ c = a + b := by
  simp only [checkedAdd64]
  split <;> simp_all [eq_comm]

/-- The work of a block's target. -/
def Batch.work (b : Batch) : Nat := calculateWork b.target

/-- A state that differs in its unspent outputs alone. -/
def CoinsOnly (s t : State) : Prop :=
  t = { s with utxos := t.utxos, utxoSet := t.utxoSet }

theorem CoinsOnly.refl (s : State) : CoinsOnly s s := rfl

theorem CoinsOnly.trans (h : CoinsOnly s t) (h' : CoinsOnly t u) : CoinsOnly s u := by
  unfold CoinsOnly at *
  rw [h', h]

/-- A state that differs in its bonds and its relay alone. -/
def BondsOnly (s t : State) : Prop := t = { s with bonds := t.bonds, relay := t.relay }

variable [Primitives]

/-- The outputs a block's coinbase creates. -/
def coinbaseOutputs (coinbase : Option Coinbase) : List Output :=
  (coinbase.map fun cb => cb.outputs.outputs).getD []

theorem spendInput_eq_ok :
    spendInput height s input = .ok s' ↔ ∃ entry, s.utxos[input.commitment]? = some entry ∧
      entry.ownerKey = input.ownerKey ∧
      ¬ (entry.coinbase = true ∧ height < satAdd64 entry.height coinbaseMaturity) ∧
      s' = { s with
        utxoSet := s.utxoSet.remove (utxoLeaf input.commitment entry)
        utxos := s.utxos.erase input.commitment } := by
  simp only [spendInput, bind_eq_ok, orBail_eq_ok, bailIf_eq_ok, not_not, ne_eq]
  constructor
  · rintro ⟨entry, he, _, ho, _, hm, hs⟩
    exact ⟨entry, he, ho, hm, (Except.ok.inj hs).symm⟩
  · rintro ⟨entry, he, ho, hm, rfl⟩
    exact ⟨entry, he, (), ho, (), hm, rfl⟩

theorem addOutput_eq_ok :
    addOutput height isCoinbase s output = .ok s' ↔ output.commitment ∉ s.utxos ∧
      s' = { s with
        utxoSet := (s.utxoSet.insert
          (utxoLeaf output.commitment (utxoEntry height isCoinbase output))).2
        utxos := s.utxos.insert output.commitment (utxoEntry height isCoinbase output) } := by
  simp only [addOutput, check_bind_eq_ok, bailIf_eq_ok, Except.ok.injEq,
    Std.ExtTreeMap.mem_iff_contains]
  exact and_congr_right fun _ => eq_comm

theorem addKernel_eq_ok :
    addKernel acc kernel = .ok acc' ↔ kernel.id ∉ acc.1.coins ∧
      ∃ excess, decompress kernel.excess = some excess ∧
        acc' = (⟨acc.1.coins.insert kernel.id⟩, acc.2 + excess) := by
  simp only [addKernel, UtxoAccumulator.insert]
  by_cases hc : acc.1.coins.contains kernel.id
  · simp [hc, bailIf, bind, Except.bind, Std.ExtTreeSet.mem_iff_contains]
  · simp only [hc, Bool.false_eq_true, if_false, Bool.not_true, bind_eq_ok, orBail_eq_ok,
      bailIf_eq_ok, not_false_eq_true, true_and, exists_const, Except.ok.injEq,
      Std.ExtTreeSet.mem_iff_contains]
    constructor
    · rintro ⟨e, h, ha⟩
      exact ⟨e, h, ha.symm⟩
    · rintro ⟨e, h, ha⟩
      exact ⟨e, h, ha.symm⟩

theorem coinsOnly_spends {inputs : List Input}
    (h : inputs.foldlM (spendInput height) s = .ok s') :
    CoinsOnly s s' :=
  foldlM_invariant (CoinsOnly s) (fun t i t' ht hi => by
    obtain ⟨entry, -, -, -, rfl⟩ := spendInput_eq_ok.mp hi
    exact ht.trans rfl) (.refl s) h

theorem coinsOnly_adds {outputs : List Output}
    (h : outputs.foldlM (addOutput height isCoinbase) s = .ok s') :
    CoinsOnly s s' :=
  foldlM_invariant (CoinsOnly s) (fun t o t' ht ho => by
    obtain ⟨-, rfl⟩ := addOutput_eq_ok.mp ho
    exact ht.trans rfl) (.refl s) h

theorem mem_kernels_of_sums {kernels : List Kernel}
    (h : kernels.foldlM addKernel acc = .ok acc') {id : Bytes32} (hid : id ∈ acc'.1.coins) :
    id ∈ acc.1.coins ∨ ∃ k ∈ kernels, k.id = id := by
  induction kernels generalizing acc with
  | nil =>
    rw [List.foldlM_nil, pure_eq_ok] at h
    exact .inl (h ▸ hid)
  | cons k kernels ih =>
    obtain ⟨mid, hk, hrest⟩ := foldlM_cons_eq_ok.mp h
    obtain ⟨-, e, -, rfl⟩ := addKernel_eq_ok.mp hk
    rcases ih hrest with hm | ⟨k', hk', he⟩
    · rcases Std.ExtTreeSet.mem_insert.mp hm with he | hm
      · exact .inr ⟨k, List.mem_cons_self, Std.LawfulEqOrd.compare_eq_iff_eq.mp he⟩
      · exact .inl hm
    · exact .inr ⟨k', List.mem_cons_of_mem _ hk', he⟩

theorem mem_utxos_of_adds {outputs : List Output}
    (h : outputs.foldlM (addOutput height isCoinbase) s = .ok s') {c : Point32}
    (hc : c ∈ s'.utxos) : c ∈ s.utxos ∨ ∃ o ∈ outputs, o.commitment = c := by
  induction outputs generalizing s with
  | nil =>
    rw [List.foldlM_nil, pure_eq_ok] at h
    exact .inl (h ▸ hc)
  | cons o outputs ih =>
    obtain ⟨mid, ho, hrest⟩ := foldlM_cons_eq_ok.mp h
    obtain ⟨-, rfl⟩ := addOutput_eq_ok.mp ho
    rcases ih hrest with hm | ⟨o', ho', he⟩
    · rcases Std.ExtTreeMap.mem_insert.mp hm with he | hm
      · exact .inr ⟨o, List.mem_cons_self, Std.LawfulEqOrd.compare_eq_iff_eq.mp he⟩
      · exact .inl hm
    · exact .inr ⟨o', List.mem_cons_of_mem _ ho', he⟩

/-- What the steps of `applyBody` made of its state. -/
structure BodySteps (state : State) (body : Transaction) (coinbase : Option Coinbase)
    (subsidy : Nat) where
  unlocked : ∀ kernel ∈ body.body.kernels, kernel.minHeight ≤ state.height
  spent : State
  spends : body.body.inputs.foldlM (spendInput state.height) state = .ok spent
  paid : State
  pays : body.outputs.foldlM (addOutput state.height false) spent = .ok paid
  rewarded : State
  rewards : (coinbaseOutputs coinbase).foldlM (addOutput state.height true) paid = .ok rewarded
  excessBefore : Primitives.Point
  excess_before : decompress state.kernelExcessSum = some excessBefore
  kernels : UtxoAccumulator
  excessSum : Primitives.Point
  sums : (blockKernels body coinbase).foldlM addKernel (state.kernels, excessBefore) =
    .ok (kernels, excessSum)
  total : Primitives.Scalar
  total_before : scalarFromBytes state.totalKernelOffset = some total
  offset : Primitives.Scalar
  offset_of_body : scalarFromBytes body.kernelOffset = some offset
  no_overflow : state.supply + subsidy ≤ u64Max
  scheduled : state.supply + subsidy ≤ issuedBefore (state.height + 1)

/-- The state after `applyBody`. -/
def BodySteps.next (b : BodySteps state body coinbase subsidy) : State :=
  { state with
    utxos := b.rewarded.utxos
    utxoSet := b.rewarded.utxoSet
    kernels := b.kernels
    kernelExcessSum := compress b.excessSum
    totalKernelOffset := scalarToBytes (b.total + b.offset)
    supply := state.supply + subsidy }

theorem applyBody_eq_ok :
    applyBody state body coinbase subsidy = .ok next ↔
      ∃ b : BodySteps state body coinbase subsidy, b.next = next := by
  simp only [applyBody, bind_eq_ok, orBail_eq_ok, bailIf_eq_ok, Prod.exists, not_lt, gt_iff_lt,
    checkedAdd64_eq_some]
  constructor
  · rintro ⟨_, hk, spent, hs, paid, hp, rewarded, hr, e, he, kernels, sum, hsum, total, ht,
      offset, ho, _, ⟨hov, rfl⟩, _, hsch, hn⟩
    have hc : CoinsOnly state rewarded :=
      ((coinsOnly_spends hs).trans (coinsOnly_adds hp)).trans (coinsOnly_adds hr)
    rw [hc] at he hsum ht hov hsch hn
    refine ⟨⟨?_, spent, hs, paid, hp, rewarded, hr, e, he, kernels, sum, hsum, total, ht,
      offset, ho, hov, hsch⟩, Except.ok.inj hn⟩
    intro k hm
    simpa [bailIf_eq_ok] using checkAll_eq_ok.mp hk k hm
  · rintro ⟨⟨hk, spent, hs, paid, hp, rewarded, hr, e, he, kernels, sum, hsum, total, ht,
      offset, ho, hov, hsch⟩, rfl⟩
    have hc : CoinsOnly state rewarded :=
      ((coinsOnly_spends hs).trans (coinsOnly_adds hp)).trans (coinsOnly_adds hr)
    refine ⟨(), checkAll_eq_ok.mpr fun k hm => ?_, spent, hs, paid, hp, rewarded, hr, e, ?_,
      kernels, sum, ?_, total, ?_, offset, ho, _, ⟨?_, rfl⟩, (), ?_, ?_⟩
    · simpa [bailIf_eq_ok] using hk k hm
    · rwa [hc]
    · rwa [hc]
    · rwa [hc]
    · rwa [hc]
    · rwa [hc]
    · simp only [BodySteps.next]
      rw [hc]

/-- What the steps of an accepted block made of its state, each with what made it. -/
structure BlockSteps (state : State) (batch : Batch) (previousTimestamps : List Nat)
    (skipCrypto : Bool) where
  change : RelayChange
  revoked : List (Bytes32 × BondEntry)
  base : State
  relayed : applyRelay (pruneBonds state previousTimestamps).2 batch.relay batch.timestamp =
    .ok (change, revoked, base)
  registered : List (Bytes32 × BondEntry)
  bonds : BondSet
  registers : registerBonds base batch = .ok (registered, bonds)
  signed : checkSigner state bonds batch = .ok ()
  credit : Credit
  weighed : credit = weighBlock base bonds batch.signer batch.target batch.timestamp
  claimed : batch.chainWeight = satAdd128 base.weight credit.credited
  subsidy : Nat
  minted : subsidy =
    subsidyFor batch.signer credit.signers.counts bonds state.height batch.timestamp
  contents : validateBlockContents batch state.height skipCrypto subsidy
    (relayStart (pruneBonds state previousTimestamps).2 batch) = .ok ()
  body : BodySteps base batch.body batch.coinbase subsidy

/-- The state whose root the block claims. -/
def BlockSteps.rooted (b : BlockSteps state batch previousTimestamps skipCrypto) : State :=
  { b.body.next with
    bonds := b.bonds
    effects := ⟨b.registered, (pruneBonds state previousTimestamps).1 ++ b.revoked,
      b.change.added, b.change.removed⟩ }

/-- The state after the block. -/
def BlockSteps.next (b : BlockSteps state batch previousTimestamps skipCrypto) : State :=
  finalize b.rooted batch (foldBlock state.mwMidstate batch) b.credit

theorem applyBatchInternal_eq_ok :
    applyBatchInternal state batch ts now preverifiedHash skipCrypto = .ok next ↔
      checkLinkage state batch = .ok () ∧
      checkHeader state batch ts now preverifiedHash = .ok () ∧
      ∃ b : BlockSteps state batch ts skipCrypto,
        batch.stateRoot = b.rooted.stateRoot ∧ b.next = next := by
  simp only [applyBatchInternal, bind_eq_ok, bailIf_eq_ok, Prod.exists, not_not, ne_eq,
    applyBody_eq_ok]
  constructor
  · rintro ⟨_, hl, _, hh, change, revoked, base, hr, registered, bonds, hb, _, hs, _, hw, _, hv,
      _, ⟨body, rfl⟩, _, hroot, hn⟩
    exact ⟨hl, hh, ⟨change, revoked, base, hr, registered, bonds, hb, hs, _, rfl, hw, _, rfl,
      hv, body⟩, hroot, Except.ok.inj hn⟩
  · rintro ⟨hl, hh, ⟨change, revoked, base, hr, registered, bonds, hb, hs, _, rfl, hw, _, rfl,
      hv, body⟩, hroot, rfl⟩
    exact ⟨(), hl, (), hh, change, revoked, base, hr, registered, bonds, hb, (), hs, (), hw, (),
      hv, _, ⟨body, rfl⟩, (), hroot, rfl⟩

/-- The three shapes a block's contents may have. -/
inductive Pays (batch : Batch) (height amount : Nat) (skip : Bool) : Prop where
  | genesis : height = 0 → batch.coinbase = none → batch.body.isEmpty →
      Pays batch height amount skip
  | coinbase (cb : Coinbase) : height ≠ 0 → batch.coinbase = some cb →
      validateWithCoinbase batch cb height amount skip = .ok () → Pays batch height amount skip
  | nothing : height ≠ 0 → batch.coinbase = none →
      validateWithoutCoinbase batch height amount skip = .ok () → Pays batch height amount skip

theorem validateWithCoinbase_eq_ok :
    validateWithCoinbase batch cb height amount skip = .ok () ↔
      amount ≠ 0 ∧ cb.validateStructure = .ok () ∧ batch.weight ≤ maxBlockWeight ∧
        checkCoinbaseApart batch.body cb = .ok () ∧ batch.body.verifySums = .ok () ∧
        cb.verifySum amount = .ok () ∧
        (skip = false → batch.body.verifyCrypto = .ok () ∧ cb.verifyCrypto = .ok ()) := by
  cases skip <;>
    simp [validateWithCoinbase, check_bind_eq_ok, bailIf_eq_ok, checkBlockWeight]

theorem validateWithoutCoinbase_eq_ok :
    validateWithoutCoinbase batch height amount skip = .ok () ↔
      amount = 0 ∧ batch.weight ≤ maxBlockWeight ∧ batch.body.verifySums = .ok () ∧
        (skip = false → batch.body.verifyCrypto = .ok ()) := by
  cases skip <;>
    simp [validateWithoutCoinbase, check_bind_eq_ok, bailIf_eq_ok, checkBlockWeight]

theorem validateBlockContents_eq_ok :
    validateBlockContents batch height skip subsidy relayFrom = .ok () ↔
      batch.body.validateStructure .block = .ok () ∧
        batch.registrations.length ≤ maxRegistrationsPerBlock ∧
        validateRelayed batch.relay skip relayFrom = .ok () ∧
        ∃ fees, batch.body.fee = .ok fees ∧ subsidy + fees ≤ u64Max ∧
          Pays batch height (subsidy + fees) skip := by
  simp only [validateBlockContents, bind_eq_ok, bailIf_eq_ok, orBail_eq_ok, checkedAdd64_eq_some,
    not_lt, gt_iff_lt]
  constructor
  · rintro ⟨_, hs, _, hr, _, hv, fees, hf, _, ⟨hle, rfl⟩, h⟩
    refine ⟨hs, hr, hv, fees, hf, hle, ?_⟩
    cases hcb : batch.coinbase with
    | none =>
      by_cases h0 : height = 0
      · simp only [hcb, h0, decide_true, bailIf_eq_ok, Bool.not_eq_true', Bool.not_eq_false] at h
        exact .genesis h0 hcb h
      · simp only [hcb, h0, decide_false] at h
        exact .nothing h0 hcb h
    | some cb =>
      by_cases h0 : height = 0
      · simp [hcb, h0] at h
      · simp only [hcb, h0, decide_false] at h
        exact .coinbase cb h0 hcb h
  · rintro ⟨hs, hr, hv, fees, hf, hle, hp⟩
    refine ⟨(), hs, (), hr, (), hv, fees, hf, _, ⟨hle, rfl⟩, ?_⟩
    cases hp with
    | genesis h0 hcb he => simp [hcb, h0, bailIf_eq_ok, he]
    | coinbase cb h0 hcb h => simp only [hcb, h0, decide_false, h]
    | nothing h0 hcb h => simp only [hcb, h0, decide_false, h]

theorem bondsOnly_applyRelay (h : applyRelay s relay timestamp = .ok (change, revoked, s')) :
    BondsOnly s s' := by
  cases relay with
  | none =>
    simp only [applyRelay, Except.ok.injEq, Prod.mk.injEq] at h
    obtain ⟨-, -, rfl⟩ := h
    rfl
  | some relayed =>
    simp only [applyRelay, bind_eq_ok] at h
    obtain ⟨c, -, h⟩ := h
    cases hf : c.forkFrom with
    | none =>
      simp only [hf, Except.ok.injEq, Prod.mk.injEq] at h
      obtain ⟨-, -, rfl⟩ := h
      rfl
    | some fork =>
      simp only [hf, Except.ok.injEq, Prod.mk.injEq] at h
      obtain ⟨-, -, rfl⟩ := h
      rfl

section Frame

variable {state : State} {batch : Batch} {ts : List Nat} {skip : Bool}

theorem BlockSteps.base_eq (b : BlockSteps state batch ts skip) :
    b.base = { state with bonds := b.base.bonds, relay := b.base.relay } := by
  have h := bondsOnly_applyRelay b.relayed
  unfold BondsOnly at *
  rw [h, pruneBonds]

@[simp] theorem BlockSteps.base_supply (b : BlockSteps state batch ts skip) :
    b.base.supply = state.supply := by rw [b.base_eq]

@[simp] theorem BlockSteps.base_utxos (b : BlockSteps state batch ts skip) :
    b.base.utxos = state.utxos := by rw [b.base_eq]

@[simp] theorem BlockSteps.base_kernels (b : BlockSteps state batch ts skip) :
    b.base.kernels = state.kernels := by rw [b.base_eq]

@[simp] theorem BlockSteps.base_kernelExcessSum (b : BlockSteps state batch ts skip) :
    b.base.kernelExcessSum = state.kernelExcessSum := by rw [b.base_eq]

@[simp] theorem BlockSteps.base_totalKernelOffset (b : BlockSteps state batch ts skip) :
    b.base.totalKernelOffset = state.totalKernelOffset := by rw [b.base_eq]

@[simp] theorem BlockSteps.base_depth (b : BlockSteps state batch ts skip) :
    b.base.depth = state.depth := by rw [b.base_eq]

@[simp] theorem BlockSteps.base_capped (b : BlockSteps state batch ts skip) :
    b.base.capped = state.capped := by rw [b.base_eq]

@[simp] theorem BlockSteps.base_height (b : BlockSteps state batch ts skip) :
    b.base.height = state.height := by rw [b.base_eq]

@[simp] theorem BlockSteps.base_chainMmr (b : BlockSteps state batch ts skip) :
    b.base.chainMmr = state.chainMmr := by rw [b.base_eq]

@[simp] theorem BlockSteps.base_signers (b : BlockSteps state batch ts skip) :
    b.base.signers = state.signers := by rw [b.base_eq]

@[simp] theorem BlockSteps.base_workFloor (b : BlockSteps state batch ts skip) :
    b.base.workFloor = state.workFloor := by rw [b.base_eq]

theorem BlockSteps.next_eq (b : BlockSteps state batch ts skip) :
    b.next =
      { mwMidstate := foldBlock state.mwMidstate batch
        utxos := b.body.rewarded.utxos
        utxoSet := b.body.rewarded.utxoSet
        kernels := b.body.kernels
        kernelExcessSum := compress b.body.excessSum
        totalKernelOffset := scalarToBytes (b.body.total + b.body.offset)
        supply := state.supply + b.subsidy
        depth := satAdd128 state.depth (calculateWork batch.target)
        capped := satAdd128 state.capped (calculateWork batch.target - b.credit.credited)
        target := calculateTarget (state.height + 1) batch.timestamp
        height := state.height + 1
        timestamp := batch.timestamp
        chainMmr := state.chainMmr.append batch.extension.finalHash true
        headerHash := batch.extension.finalHash
        bonds := b.bonds
        relay := b.base.relay
        signers := b.credit.signers
        workFloor := b.credit.workFloor
        effects := ⟨b.registered, (pruneBonds state ts).1 ++ b.revoked, b.change.added,
          b.change.removed⟩ } := by
  simp only [BlockSteps.next, finalize, BlockSteps.rooted, BodySteps.next, base_supply,
    base_depth, base_capped, base_height, base_chainMmr]

@[simp] theorem BlockSteps.next_height (b : BlockSteps state batch ts skip) :
    b.next.height = state.height + 1 := by rw [b.next_eq]

@[simp] theorem BlockSteps.next_target (b : BlockSteps state batch ts skip) :
    b.next.target = calculateTarget (state.height + 1) batch.timestamp := by rw [b.next_eq]

theorem BlockSteps.next_depth (b : BlockSteps state batch ts skip) :
    b.next.depth = satAdd128 state.depth batch.work := by rw [b.next_eq, Batch.work]

theorem BlockSteps.next_capped (b : BlockSteps state batch ts skip) :
    b.next.capped = satAdd128 state.capped (batch.work - b.credit.credited) := by
  rw [b.next_eq, Batch.work]

theorem BlockSteps.credited_eq (b : BlockSteps state batch ts skip) :
    b.credit.credited = (creditInWindow state.signers b.bonds state.height batch.signer
      (capWork state.workFloor state.height batch.work).1 batch.timestamp).1 := by
  rw [b.weighed]
  simp only [weighBlock, base_signers, base_height, base_workFloor, Batch.work]

theorem BlockSteps.next_signers (b : BlockSteps state batch ts skip) :
    b.next.signers = state.signers.push batch.signer := by
  rw [b.next_eq, b.weighed]
  simp only [weighBlock, base_signers, creditInWindow_window]

theorem BlockSteps.next_workFloor (b : BlockSteps state batch ts skip) :
    b.next.workFloor = (capWork state.workFloor state.height batch.work).2 := by
  rw [b.next_eq, b.weighed]
  simp only [weighBlock, base_height, base_workFloor, Batch.work]

theorem BlockSteps.chainWeight_eq (b : BlockSteps state batch ts skip) :
    batch.chainWeight = satAdd128 state.weight b.credit.credited := by
  rw [b.claimed, State.weight, b.base_depth, b.base_capped, State.weight]

end Frame

/-- One accepted block, with any timestamps, clock and checks skipped. -/
def Accepts (s : State) (batch : Batch) (s' : State) : Prop :=
  ∃ ts now preverifiedHash skipCrypto,
    applyBatchInternal s batch ts now preverifiedHash skipCrypto = .ok s'

/-- Accepted blocks applied one after another, oldest first. -/
inductive Applies (s : State) : List Batch → State → Prop where
  | start : Applies s [] s
  | block : Applies s blocks t → Accepts t batch u → Applies s (blocks ++ [batch]) u

/-- The state after some accepted blocks on genesis. -/
def Run (blocks : List Batch) (s : State) : Prop := Applies .genesis blocks s

def Reachable (s : State) : Prop := ∃ blocks, Run blocks s

theorem Applies.eq_of_nil (h : Applies s [] t) : t = s := by
  generalize hl : ([] : List Batch) = l at h
  cases h with
  | start => rfl
  | block _ _ => simp at hl

theorem Applies.trans (h : Applies s blocks t) (h' : Applies t more u) :
    Applies s (blocks ++ more) u := by
  induction h' with
  | start => simpa using h
  | block _ ha ih => simpa using ih.block ha

/-- A chain as a node syncs it: each block applied in full with the timestamps of all
blocks below it, at a time no later than `latest`. -/
inductive Chain (latest : Nat) : List Batch → State → Prop where
  | genesis : Chain latest [] .genesis
  | block : Chain latest blocks s → now ≤ latest →
      applyBatch s batch (blocks.map Batch.timestamp) now = .ok s' →
      Chain latest (blocks ++ [batch]) s'

theorem Chain.run (h : Chain latest blocks s) : Run blocks s := by
  unfold Run
  induction h with
  | genesis => exact .start
  | block _ _ ha ih => exact ih.block ⟨_, _, _, _, ha⟩

end Midwimble
