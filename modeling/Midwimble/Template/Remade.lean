import Midwimble.Chain.Accepted

namespace Midwimble
open Fallible
set_option autoImplicit true

/-- What a coinbase pays, whatever its miner data. -/
def Coinbase.paid (cb : Coinbase) : OutputGroup × Kernel := (cb.outputs, cb.kernel)

/-- Blocks with the same transactions, registrations and relayed headers, whose coinbases
pay the same outputs. -/
structure SameContents (batch batch' : Batch) : Prop where
  body : batch'.body = batch.body
  coinbase : batch'.coinbase.map Coinbase.paid = batch.coinbase.map Coinbase.paid
  registrations : batch'.registrations = batch.registrations
  relay : batch'.relay = batch.relay

/-- Blocks that differ in what only their header hash covers: extension, merged-mining proof,
miner data and signature. -/
structure Remade (batch batch' : Batch) : Prop extends SameContents batch batch' where
  prevMidstate : batch'.prevMidstate = batch.prevMidstate
  prevHeaderHash : batch'.prevHeaderHash = batch.prevHeaderHash
  timestamp : batch'.timestamp = batch.timestamp
  target : batch'.target = batch.target
  stateRoot : batch'.stateRoot = batch.stateRoot
  signer : batch'.signer = batch.signer
  chainWeight : batch'.chainWeight = batch.chainWeight

theorem SameContents.coinbaseOutputs (h : SameContents batch batch') :
    Midwimble.coinbaseOutputs batch'.coinbase = Midwimble.coinbaseOutputs batch.coinbase := by
  have hc := congrArg (Option.map fun p : OutputGroup × Kernel => p.1.outputs) h.coinbase
  rw [Option.map_map, Option.map_map] at hc
  exact congrArg (fun o => o.getD []) hc

theorem SameContents.blockKernels (h : SameContents batch batch') :
    Midwimble.blockKernels batch'.body batch'.coinbase =
      Midwimble.blockKernels batch.body batch.coinbase := by
  have hc := congrArg (Option.map Prod.snd) h.coinbase
  rw [Option.map_map, Option.map_map] at hc
  rw [h.body]
  exact congrArg (fun o : Option Kernel => batch.body.body.kernels ++ o.toList) hc

theorem SameContents.weight (h : SameContents batch batch') : batch'.weight = batch.weight := by
  have hc := congrArg (Option.map fun p : OutputGroup × Kernel =>
    p.1.outputs.length * outputWeight + kernelWeight) h.coinbase
  rw [Option.map_map, Option.map_map] at hc
  simp only [Batch.weight, h.body, h.registrations, h.relay]
  exact congrArg (fun o : Option Nat => batch.body.weight + o.getD 0 +
    (batch.registrations.map BondRegistration.weight).sum +
      (batch.relay.map RelayHeaders.weight).getD 0) hc

variable [Primitives]

section Paid

variable {cb cb' : Coinbase}

theorem validateStructure_paid (ho : cb'.outputs = cb.outputs) (hk : cb'.kernel = cb.kernel) :
    cb'.validateStructure = cb.validateStructure := by
  simp only [Coinbase.validateStructure, ho, hk]

theorem checkCoinbaseApart_paid (ho : cb'.outputs = cb.outputs) (hk : cb'.kernel = cb.kernel)
    (body : Transaction) : checkCoinbaseApart body cb' = checkCoinbaseApart body cb := by
  simp only [checkCoinbaseApart, ho, hk]

theorem verifySum_paid (ho : cb'.outputs = cb.outputs) (hk : cb'.kernel = cb.kernel)
    (amount : Nat) : cb'.verifySum amount = cb.verifySum amount := by
  simp only [Coinbase.verifySum, ho, hk]

theorem coinbase_verifyCrypto_paid (ho : cb'.outputs = cb.outputs)
    (hk : cb'.kernel = cb.kernel) : cb'.verifyCrypto = cb.verifyCrypto := by
  simp only [Coinbase.verifyCrypto, ho, hk]

end Paid

theorem SameContents.pays (h : SameContents batch batch') (hp : Pays batch height amount skip) :
    Pays batch' height amount skip := by
  have hc := h.coinbase
  cases hp with
  | genesis h0 hcb he =>
    rw [hcb, Option.map_none, Option.map_eq_none_iff] at hc
    exact .genesis h0 hc (h.body ▸ he)
  | coinbase cb h0 hcb hv =>
    rw [hcb, Option.map_some, Option.map_eq_some_iff] at hc
    obtain ⟨cb', hcb', hp⟩ := hc
    obtain ⟨ho, hk⟩ := Prod.mk.inj hp
    refine .coinbase cb' h0 hcb' ?_
    rw [validateWithCoinbase_eq_ok] at hv ⊢
    rw [h.weight, h.body, validateStructure_paid ho hk, checkCoinbaseApart_paid ho hk,
      verifySum_paid ho hk, coinbase_verifyCrypto_paid ho hk]
    exact hv
  | nothing h0 hcb hv =>
    rw [hcb, Option.map_none, Option.map_eq_none_iff] at hc
    refine .nothing h0 hc ?_
    rw [validateWithoutCoinbase_eq_ok] at hv ⊢
    rw [h.weight, h.body]
    exact hv

theorem SameContents.contents (h : SameContents batch batch')
    (hv : validateBlockContents batch height skip subsidy relayFrom = .ok ()) :
    validateBlockContents batch' height skip subsidy relayFrom = .ok () := by
  rw [validateBlockContents_eq_ok] at hv ⊢
  obtain ⟨hs, hr, hrel, fees, hf, hle, hp⟩ := hv
  rw [h.body, h.registrations, h.relay]
  exact ⟨hs, hr, hrel, fees, hf, hle, h.pays hp⟩

theorem SameContents.applyBody (h : SameContents batch batch') (s : State) (subsidy : Nat) :
    Midwimble.applyBody s batch'.body batch'.coinbase subsidy =
      Midwimble.applyBody s batch.body batch.coinbase subsidy := by
  have ho := h.coinbaseOutputs
  unfold Midwimble.coinbaseOutputs at ho
  rw [Midwimble.applyBody, Midwimble.applyBody, ho, h.blockKernels, h.body]

/-- A remade block goes through the steps its original did, to the same root. -/
theorem Remade.steps (h : Remade batch batch') (b : BlockSteps s batch ts skip)
    (hs : checkSigner s b.bonds batch' = .ok ()) :
    ∃ b' : BlockSteps s batch' ts skip, b'.rooted = b.rooted ∧ b'.subsidy = b.subsidy ∧
      b'.credit = b.credit := by
  have hrelayed : applyRelay (pruneBonds s ts).2 batch'.relay batch'.timestamp =
      .ok (b.change, b.revoked, b.base) := by
    rw [h.relay, h.timestamp]
    exact b.relayed
  have hregisters : registerBonds b.base batch' = .ok (b.registered, b.bonds) := by
    rw [registerBonds, h.registrations, h.target, h.timestamp]
    exact b.registers
  have hweighed : b.credit =
      weighBlock b.base b.bonds batch'.signer batch'.target batch'.timestamp := by
    rw [h.signer, h.target, h.timestamp]
    exact b.weighed
  have hclaimed : batch'.chainWeight = satAdd128 b.base.weight b.credit.credited := by
    rw [h.chainWeight]
    exact b.claimed
  have hminted : b.subsidy =
      subsidyFor batch'.signer b.credit.signers.counts b.bonds s.height batch'.timestamp := by
    rw [h.signer, h.timestamp]
    exact b.minted
  have hcontents : validateBlockContents batch' s.height skip b.subsidy
      (relayStart (pruneBonds s ts).2 batch') = .ok () := by
    rw [relayStart, h.relay]
    exact h.contents b.contents
  obtain ⟨body, hbody⟩ := applyBody_eq_ok.mp
    ((h.applyBody b.base b.subsidy).trans (applyBody_eq_ok.mpr ⟨b.body, rfl⟩))
  refine ⟨⟨b.change, b.revoked, b.base, hrelayed, b.registered, b.bonds, hregisters, hs,
    b.credit, hweighed, hclaimed, b.subsidy, hminted, hcontents, body⟩, ?_, rfl, rfl⟩
  simp only [BlockSteps.rooted, hbody]

end Midwimble
