import Midwimble.Chain.Bonds
import Midwimble.Chain.Mmr
import Midwimble.ForkChoice.Weight
import Midwimble.Relay.Shape
import Midwimble.Template.Proofs
import Midwimble.Template.Remade

namespace Midwimble
open Fallible
set_option autoImplicit true

variable [Primitives]

theorem relayChosen_eq_ok (h : relayChosen s relay timestamp = .ok relayed) :
    ∃ change revoked, applyRelay s relay timestamp = .ok (change, revoked, relayed) := by
  cases relay with
  | none =>
    simp only [relayChosen, Except.ok.injEq] at h
    exact ⟨⟨[], [], none⟩, [], by rw [applyRelay, h]⟩
  | some r =>
    simp only [relayChosen] at h
    cases ho : (s.relay.extend r timestamp).1 with
    | error e => simp [ho] at h
    | ok change =>
      simp only [ho] at h
      cases hf : change.forkFrom with
      | none =>
        simp only [hf, Except.ok.injEq] at h
        exact ⟨change, [], by simp only [applyRelay, ho, bind_ok, hf, h]⟩
      | some fork =>
        simp only [hf, Except.ok.injEq] at h
        exact ⟨change, (s.bonds.revokeAbove fork).1, by
          simp only [applyRelay, ho, bind_ok, hf, ← h]⟩

theorem relayStart_isSome (h : applyRelay s batch.relay timestamp = .ok r)
    (hr : batch.relay = some relayed) : ∃ start, relayStart s batch = some start := by
  simp only [hr, applyRelay, bind_eq_ok] at h
  obtain ⟨change, hc, -⟩ := h
  obtain ⟨base, added, hrun, -⟩ := extend_ok (Prod.ext hc rfl)
  refine ⟨base.height + 1, ?_⟩
  rw [relayStart, hr, Option.bind_some, (checkRun_ok hrun).2.2.1, Option.map_some]

theorem precheckRegistrations_eq_ok :
    precheckRegistrations bonds rs target timestamp = .ok () ↔
      ∀ r ∈ rs, precheckRegistrations bonds [r] target timestamp = .ok () := by
  simp only [precheckRegistrations, checkAll_eq_ok, List.mem_singleton, forall_eq]

theorem registrationReady_precheck (h : registrationReady relayed target timestamp r = .ok ()) :
    precheckRegistrations relayed.bonds [r] target timestamp = .ok () := by
  unfold registrationReady at h
  split at h
  · cases h
  · assumption

theorem ownRegistration_precheck
    (h : r ∈ (ownRegistration relayed target timestamp bond).registrations) :
    precheckRegistrations relayed.bonds [r] target timestamp = .ok () := by
  unfold ownRegistration at h
  split at h
  · simp at h
  · split at h
    · simp at h
    · split at h
      · simp at h
      · split at h
        · rename_i hready
          rw [List.mem_singleton] at h
          exact h ▸ registrationReady_precheck hready
        · simp at h

theorem coRegistration_precheck (h : coRegistration relayed target timestamp b = some r) :
    precheckRegistrations relayed.bonds [r] target timestamp = .ok () := by
  have hok := (Bool.and_eq_true _ _ ▸ List.find?_some h).1
  cases hp : precheckRegistrations relayed.bonds [r] target timestamp with
  | error e =>
    rw [hp] at hok
    exact absurd hok Bool.false_ne_true
  | ok _ => rfl

theorem chooseRegistrations_precheck :
    precheckRegistrations relayed.bonds
      (chooseRegistrations relayed target timestamp bond
        (ownRegistration relayed target timestamp bond)) target timestamp = .ok () := by
  rw [precheckRegistrations_eq_ok]
  intro r hr
  unfold chooseRegistrations at hr
  split at hr
  · obtain ⟨b, -, hb⟩ := Option.bind_eq_some_iff.mp (Option.mem_toList.mp hr)
    exact coRegistration_precheck hb
  · exact ownRegistration_precheck hr

theorem validateBlockContents_proven
    (h : validateBlockContents batch height true subsidy relayFrom = .ok ())
    (hbody : batch.body.verifyCrypto = .ok ())
    (hcb : ∀ cb ∈ batch.coinbase, cb.verifyCrypto = .ok ())
    (hrel : ∀ r ∈ batch.relay, ∃ start, relayFrom = some start ∧ r.verifyPow start = .ok ()) :
    validateBlockContents batch height false subsidy relayFrom = .ok () := by
  rw [validateBlockContents_eq_ok] at h ⊢
  obtain ⟨hs, hr, hv, fees, hf, hle, hp⟩ := h
  refine ⟨hs, hr, ?_, fees, hf, hle, ?_⟩
  · cases hb : batch.relay with
    | none => rfl
    | some r =>
      obtain ⟨start, rfl, hpow⟩ := hrel r hb
      simp only [hb, validateRelayed, check_bind_eq_ok] at hv
      simp only [validateRelayed, hv.1, bind_ok, orBail_some, Bool.false_eq_true, if_false]
      exact hpow
  · cases hp with
    | genesis h0 hc he => exact .genesis h0 hc he
    | coinbase cb h0 hc hv =>
      refine .coinbase cb h0 hc ?_
      rw [validateWithCoinbase_eq_ok] at hv ⊢
      obtain ⟨ha, hst, hw, hap, hsum, hcs, -⟩ := hv
      exact ⟨ha, hst, hw, hap, hsum, hcs, fun _ => ⟨hbody, hcb cb hc⟩⟩
    | nothing h0 hc hv =>
      refine .nothing h0 hc ?_
      rw [validateWithoutCoinbase_eq_ok] at hv ⊢
      exact ⟨hv.1, hv.2.1, hv.2.2.1, fun _ => hbody⟩

theorem signBatch_eq_ok {b : MinerBond → Option Bytes32}
    (h : signBatch bonds mid u bond (bond.bind b) aux = .ok batch) (hu : u.miner = none) :
    batch = { u with miner := batch.miner } ∧ batch.signer = bond.bind b ∧
      (batch.miner.isSome → checkMinerAuthorization bonds mid batch = .ok ()) := by
  cases bond with
  | none =>
    simp only [signBatch, Except.ok.injEq] at h
    subst h
    exact ⟨rfl, by simp [hu, Batch.signer], by simp [hu]⟩
  | some bond =>
    rw [Option.bind_some] at h ⊢
    cases hb : b bond with
    | none =>
      simp only [hb, signBatch, Except.ok.injEq] at h
      subst h
      exact ⟨rfl, by simp [hu, Batch.signer], by simp [hu]⟩
    | some signer =>
      simp only [hb, signBatch, check_bind_eq_ok, Except.ok.injEq] at h
      obtain ⟨hc, rfl⟩ := h
      exact ⟨rfl, rfl, fun _ => hc⟩

theorem checkSigner_signed (h0 : s.height ≠ 0) (hm : batch.miner.isSome) :
    checkSigner s bonds batch = checkMinerAuthorization bonds s.mwMidstate batch := by
  rw [checkSigner, if_neg h0, if_pos hm]

theorem checkSigner_unsigned (h0 : s.height ≠ 0) (hm : batch.miner = none) :
    checkSigner s bonds batch = .ok () ↔
      ¬ (s.height ≥ bondedMiningFrom ∧ anyCanSign bonds batch.timestamp = true) := by
  rw [checkSigner, if_neg h0, hm, if_neg (by simp), bailIf_eq_ok]

theorem checkSigner_of_signed (h0 : s.height ≠ 0)
    (hm : batch.miner.isSome → checkMinerAuthorization bonds s.mwMidstate batch = .ok ())
    (hu : batch.signer = none → s.height ≥ bondedMiningFrom →
      anyCanSign bonds batch.timestamp = false) :
    checkSigner s bonds batch = .ok () := by
  cases ha : batch.miner with
  | none =>
    rw [checkSigner_unsigned h0 ha]
    rintro ⟨hh, hany⟩
    rw [hu (by rw [Batch.signer, ha, Option.map_none]) hh] at hany
    exact Bool.false_ne_true hany
  | some auth =>
    have hs : batch.miner.isSome := by rw [ha, Option.isSome_some]
    rw [checkSigner_signed h0 hs]
    exact hm hs

/-- What a template is of the state it was built on. -/
structure TemplateOf (s : State) (ts : List Nat) (bond : Option MinerBond) (t : BlockTemplate)
    where
  height_pos : s.height ≠ 0
  height : t.height = s.height
  miningHash : t.miningHash = computeHeaderHash (t.batch.headerAt s.height)
  prevMidstate : t.batch.prevMidstate = s.mwMidstate
  prevHeaderHash : t.batch.prevHeaderHash = s.headerHash
  target : t.batch.target = s.target
  steps : BlockSteps s t.batch ts false
  stateRoot : t.batch.stateRoot = steps.rooted.stateRoot
  subsidy : t.subsidy = steps.subsidy
  signer : t.batch.signer =
    bond.bind fun b => b.signerFor steps.bonds s.signers.counts t.batch.timestamp

/-- What a producer settled on for a block on `s`, with each choice's own success. -/
structure Draft (s : State) (ts : List Nat) where
  body : Transaction
  coinbase : Option Coinbase
  time : Nat
  relay : Option RelayHeaders
  relayed : State
  relays : relayChosen (pruneBonds s ts).2 relay time = .ok relayed
  registrations : List BondRegistration
  prechecked : precheckRegistrations relayed.bonds registrations s.target time = .ok ()
  registered : List (Bytes32 × BondEntry)
  registers : registrations.mapM (verifyRegistration relayed.relay s.target) = .ok registered
  signer : Option Bytes32
  next : State
  bonds : BondSet
  credit : Credit
  weighed : credit = weighBlock (pruneBonds s ts).2 bonds signer s.target time
  subsidy : Nat
  minted : subsidy = subsidyFor signer credit.signers.counts bonds s.height time
  applies : applyBody relayed body coinbase subsidy = .ok next
  inserts : registered.foldlM insertBond relayed.bonds = .ok bonds

/-- The block drafted, before it is signed. -/
def Draft.unsigned (d : Draft s ts) : Batch where
  prevMidstate := s.mwMidstate
  prevHeaderHash := s.headerHash
  body := d.body
  coinbase := d.coinbase
  registrations := d.registrations
  miner := none
  relay := d.relay
  chainWeight := satAdd128 s.weight d.credit.credited
  extension := ⟨0, 0⟩
  timestamp := d.time
  target := s.target
  stateRoot := { d.next with bonds := d.bonds }.stateRoot
  auxPow := none

/-- A signed draft whose contents pass is a block's steps. -/
theorem Draft.steps (d : Draft s ts) (hsame : batch = { d.unsigned with miner := batch.miner })
    (hsigner : batch.signer = d.signer)
    (hcheck : checkSigner s d.bonds batch = .ok ())
    (hcontents : validateBlockContents d.unsigned s.height false d.subsidy
      (relayStart (pruneBonds s ts).2 d.unsigned) = .ok ()) :
    ∃ b : BlockSteps s batch ts false, batch.stateRoot = b.rooted.stateRoot ∧
      d.subsidy = b.subsidy ∧ b.bonds = d.bonds := by
  obtain ⟨change, revoked, hrelay⟩ := relayChosen_eq_ok d.relays
  have hbase : BondsOnly (pruneBonds s ts).2 d.relayed := bondsOnly_applyRelay hrelay
  unfold BondsOnly at hbase
  have hregisters : registerBonds d.relayed batch = .ok (d.registered, d.bonds) := by
    rw [hsame]
    simp only [registerBonds, Draft.unsigned, d.prechecked, bind_ok, d.registers, d.inserts]
  have hrelayed : applyRelay (pruneBonds s ts).2 batch.relay batch.timestamp =
      .ok (change, revoked, d.relayed) := by
    rw [hsame]
    exact hrelay
  have hweighed : d.credit =
      weighBlock d.relayed d.bonds batch.signer batch.target batch.timestamp := by
    rw [hsigner, d.weighed, hbase, hsame]
    rfl
  have hclaimed : batch.chainWeight = satAdd128 d.relayed.weight d.credit.credited := by
    rw [hbase, hsame]
    rfl
  have hminted : d.subsidy = subsidyFor batch.signer d.credit.signers.counts d.bonds s.height
      batch.timestamp := by
    rw [hsigner, d.minted, hsame]
    rfl
  have hcont : validateBlockContents batch s.height false d.subsidy
      (relayStart (pruneBonds s ts).2 batch) = .ok () := by
    have hs : SameContents d.unsigned batch := by
      rw [hsame]
      exact ⟨rfl, rfl, rfl, rfl⟩
    rw [relayStart, hs.relay]
    exact hs.contents hcontents
  have hb : batch.body = d.body := by
    rw [hsame]
    rfl
  have hc : batch.coinbase = d.coinbase := by
    rw [hsame]
    rfl
  have happ : applyBody d.relayed batch.body batch.coinbase d.subsidy = .ok d.next := by
    rw [hb, hc]
    exact d.applies
  obtain ⟨body, hbody⟩ := applyBody_eq_ok.mp happ
  refine ⟨⟨change, revoked, d.relayed, hrelayed, d.registered, d.bonds, hregisters, hcheck,
    d.credit, hweighed, hclaimed, d.subsidy, hminted, hcont, body⟩, ?_, rfl, rfl⟩
  have hroot : batch.stateRoot = { d.next with bonds := d.bonds }.stateRoot := by
    rw [hsame]
    rfl
  rw [hroot, ← hbody]
  rfl

theorem applyBody_bonds (h : applyBody s body coinbase subsidy = .ok next) :
    next.bonds = s.bonds := by
  obtain ⟨b, rfl⟩ := applyBody_eq_ok.mp h
  rfl

/-- What a producer returning `t` had drafted. -/
structure Drafts (d : Draft s ts) (txs : List Transaction)
    (payouts : List (StealthAddress × Nat)) (bond : Option MinerBond) (t : BlockTemplate) :
    Prop where
  height_pos : s.height ≠ 0
  aggregates : Transaction.aggregate txs = .ok d.body
  pays : ∃ amount extra draw receipts,
    payCoinbase amount payouts extra draw = .ok (d.coinbase, receipts)
  signer : d.signer = bond.bind fun b => b.signerFor d.bonds s.signers.counts d.time
  unsigned : d.signer = none → s.height ≥ bondedMiningFrom → anyCanSign d.bonds d.time = false
  contents : validateBlockContents d.unsigned s.height true d.subsidy
    (relayStart (pruneBonds s ts).2 d.unsigned) = .ok ()
  signs : ∃ aux, signBatch d.bonds s.mwMidstate d.unsigned bond d.signer aux = .ok t.batch
  height : t.height = s.height
  miningHash : t.miningHash = computeHeaderHash (t.batch.headerAt s.height)
  subsidy : t.subsidy = d.subsidy

theorem drafts_of_build
    (h : buildTemplateRelayed s ts txs payouts extra timestamp bond feed now draw =
      .ok (t, receipts)) : ∃ d : Draft s ts, Drafts d txs payouts bond t := by
  simp only [buildTemplateRelayed, bind_eq_ok, ite_bind_eq_ok, bailIf_eq_ok, orBail_eq_ok,
    Prod.exists, Except.ok.injEq, Prod.mk.injEq] at h
  obtain ⟨_, h0, _, -, body, hagg, fees, -, amount, -, coinbase, _, hpay, relayed, hrelayed,
    registered, hreg, _, hcan, paid, _, hpaid, next, hnext, bonds, hbonds, _, hcontents, batch,
    hsign, rfl, -⟩ := h
  rw [applyBody_bonds hnext] at hbonds
  rw [← insertBond_foldlM hbonds] at hcan hnext hsign hcontents
  refine ⟨⟨body, paid, _, _, relayed, hrelayed, _, chooseRegistrations_precheck, registered,
    hreg, _, next, bonds, _, rfl, _, rfl, hnext, hbonds⟩, h0, hagg, ?_, rfl, ?_, hcontents,
    ⟨_, hsign⟩, rfl, rfl, ?_⟩
  · -- The coinbase is paid again when the taper changes what it may mint.
    split at hpaid
    · simp only [Except.ok.injEq, Prod.mk.injEq] at hpaid
      obtain ⟨rfl, rfl⟩ := hpaid
      exact ⟨_, _, _, _, hpay⟩
    · simp only [bind_eq_ok] at hpaid
      obtain ⟨_, -, hpaid⟩ := hpaid
      exact ⟨_, _, _, _, hpaid⟩
  · intro hs hh
    by_contra hany
    exact hcan ⟨Option.isNone_iff_eq_none.mpr hs, .inr hh, by simpa using hany⟩
  · rw [← insertBond_foldlM hbonds]
    rfl

/-- A template's batch passes the steps of the block it will become. -/
theorem templateOf_build (hr : RangeProofsComplete)
    (h : buildTemplateRelayed s ts txs payouts extra timestamp bond feed now draw =
      .ok (t, receipts))
    (htxs : ∀ tx ∈ txs, tx.verifyCrypto = .ok ())
    (hpow : ∀ r ∈ t.batch.relay, ∀ start, relayStart s t.batch = some start →
      r.verifyPow start = .ok ()) : Nonempty (TemplateOf s ts bond t) := by
  obtain ⟨d, hd⟩ := drafts_of_build h
  obtain ⟨aux, hsign⟩ := hd.signs
  rw [hd.signer] at hsign
  obtain ⟨hsame, hsigner, hauth⟩ := signBatch_eq_ok hsign rfl
  rw [← hd.signer] at hsigner
  have hrelay : t.batch.relay = d.relay := by
    rw [hsame]
    rfl
  have htime : t.batch.timestamp = d.time := by
    rw [hsame]
    rfl
  have hcheck : checkSigner s d.bonds t.batch = .ok () := by
    refine checkSigner_of_signed hd.height_pos hauth fun hn hh => ?_
    rw [htime]
    exact hd.unsigned (hsigner ▸ hn) hh
  have hcontents : validateBlockContents d.unsigned s.height false d.subsidy
      (relayStart (pruneBonds s ts).2 d.unsigned) = .ok () := by
    refine validateBlockContents_proven hd.contents (aggregate_verifies hd.aggregates htxs) ?_ ?_
    · obtain ⟨amount, extra, draw, receipts, hpay⟩ := hd.pays
      exact payCoinbase_verifies hr hpay
    · intro r hm
      obtain ⟨change, revoked, happ⟩ := relayChosen_eq_ok d.relays
      have hm' : d.unsigned.relay = some r := hm
      obtain ⟨start, hstart⟩ := relayStart_isSome happ hm'
      have hst : relayStart s t.batch = some start := by
        rw [← hstart, relayStart, relayStart, hrelay]
        rfl
      exact ⟨start, hstart, hpow r (hrelay ▸ hm) start hst⟩
  obtain ⟨b, hroot, hsub, hb⟩ := d.steps hsame hsigner hcheck hcontents
  refine ⟨⟨hd.height_pos, hd.height, hd.miningHash, ?_, ?_, ?_, b, hroot, hd.subsidy ▸ hsub, ?_⟩⟩
  · rw [hsame]
    rfl
  · rw [hsame]
    rfl
  · rw [hsame]
    rfl
  · rw [hsigner, hd.signer, hb, htime]

theorem schnorrVerify_key (h : schnorrVerify (compress p) msg sig = true) :
    p ≠ (0 : Primitives.Point) := by
  rintro rfl
  unfold schnorrVerify at h
  rw [Primitives.decompress_compress] at h
  split at h
  · rename_i hp _ _
    rw [if_pos (Option.some.inj hp).symm] at h
    exact Bool.false_ne_true h
  · exact Bool.false_ne_true h

theorem checkMinerAuthorization_eq_ok :
    checkMinerAuthorization bonds mid batch = .ok () ↔ ∃ auth bond, batch.miner = some auth ∧
      bonds.get auth.bondId = some bond ∧ bond.eligibleAt batch.timestamp = true ∧
      schnorrVerify bond.miningKey (authorizationMessage mid batch) auth.signature = true := by
  simp only [checkMinerAuthorization, bind_eq_ok, orBail_eq_ok, bailIf_eq_ok, Bool.not_eq_true',
    Bool.not_eq_false]
  constructor
  · rintro ⟨auth, ha, bond, hb, _, he, hv⟩
    exact ⟨auth, bond, ha, hb, he, hv⟩
  · rintro ⟨auth, bond, ha, hb, he, hv⟩
    exact ⟨auth, ha, bond, hb, (), he, hv⟩

theorem signerFor_key {b : MinerBond} {signer : Bytes32}
    (h : b.signerFor bonds counts timestamp = some signer) (he : bonds.get signer = some e) :
    e.miningKey = b.miningKey := by
  have hm := (List.mem_filter.mp (List.argmin_mem (Option.mem_def.mpr h))).2
  rw [he, Option.any_some, Bool.and_eq_true, decide_eq_true_eq] at hm
  exact hm.1

theorem checkMinerAuthorization_resigned {b : MinerBond} (aux : Bytes32)
    (h : checkMinerAuthorization bonds mid batch = .ok ())
    (hsigner : batch.signer = b.signerFor bonds counts timestamp) (ha : batch.miner = some auth)
    (ht : batch'.timestamp = batch.timestamp)
    (hm : batch'.miner = some ⟨auth.bondId, b.sign (authorizationMessage mid batch') aux⟩) :
    checkMinerAuthorization bonds mid batch' = .ok () := by
  rw [checkMinerAuthorization_eq_ok] at h ⊢
  obtain ⟨auth', e, ha', he, hel, hv⟩ := h
  obtain rfl : auth = auth' := Option.some.inj (ha.symm.trans ha')
  have hkey : e.miningKey = b.miningKey := by
    rw [Batch.signer, ha, Option.map_some] at hsigner
    exact signerFor_key hsigner.symm he
  rw [hkey] at hv
  refine ⟨_, e, hm, he, ht ▸ hel, ?_⟩
  rw [hkey]
  exact schnorrSign_verifies (schnorrVerify_key hv) _ _

/-- What `rebind` returns is the template's block with other miner data, signed when the
template is. -/
theorem rebind_remade (T : TemplateOf s ts bond t) (extra aux : Bytes32) :
    ∃ t', rebind t extra bond aux = .ok t' ∧ Remade t.batch t'.batch ∧
      checkSigner s T.steps.bonds t'.batch = .ok () ∧ t'.height = t.height ∧
      t'.subsidy = t.subsidy ∧ t'.miningHash = computeHeaderHash (t'.batch.headerAt t'.height) := by
  have hsigned := T.steps.signed
  unfold rebind
  cases hcb : t.batch.coinbase with
  | none =>
    refine ⟨t, rfl, ⟨⟨rfl, rfl, rfl, rfl⟩, rfl, rfl, rfl, rfl, rfl, rfl, rfl⟩, hsigned, rfl, rfl, ?_⟩
    rw [T.miningHash, T.height]
  | some cb =>
    have hpaid : (some { cb with extra := extra }).map Coinbase.paid =
        t.batch.coinbase.map Coinbase.paid := by
      rw [hcb]
      rfl
    simp only
    cases hm : t.batch.miner with
    | none =>
      refine ⟨_, rfl, ⟨⟨rfl, hpaid, rfl, rfl⟩, rfl, rfl, rfl, rfl, rfl, ?_, rfl⟩, ?_, rfl, rfl, rfl⟩
      · simp only [Batch.signer, hm]
      · rw [checkSigner_unsigned T.height_pos rfl]
        exact (checkSigner_unsigned T.height_pos hm).mp hsigned
    | some auth =>
      have hsigner := T.signer
      obtain ⟨b, rfl⟩ : ∃ b, bond = some b := by
        refine Option.ne_none_iff_exists'.mp fun hb => ?_
        simp [Batch.signer, hm, hb] at hsigner
      rw [Option.bind_some] at hsigner
      rw [checkSigner_signed T.height_pos (by rw [hm, Option.isSome_some])] at hsigned
      refine ⟨_, rfl, ⟨⟨rfl, hpaid, rfl, rfl⟩, rfl, rfl, rfl, rfl, rfl, ?_, rfl⟩, ?_, rfl, rfl, rfl⟩
      · simp only [Batch.signer, hm, Option.map_some]
      · rw [checkSigner_signed T.height_pos rfl]
        refine checkMinerAuthorization_resigned aux hsigned hsigner hm rfl ?_
        rw [T.prevMidstate]
        rfl

/-- The template's block as `seal` and `seal_aux` complete it. -/
def BlockTemplate.solved (t : BlockTemplate) (extension : Extension) (auxPow : Option AuxPow) :
    Batch :=
  { t.batch with extension := extension, auxPow := auxPow }

omit [Primitives] in
theorem solved_remade (t : BlockTemplate) (extension : Extension) (auxPow : Option AuxPow) :
    Remade t.batch (t.solved extension auxPow) :=
  ⟨⟨rfl, rfl, rfl, rfl⟩, rfl, rfl, rfl, rfl, rfl, rfl, rfl⟩

theorem checkSigner_solved (s : State) (bonds : BondSet) (t : BlockTemplate)
    (extension : Extension) (auxPow : Option AuxPow) :
    checkSigner s bonds (t.solved extension auxPow) = checkSigner s bonds t.batch := rfl

theorem TemplateOf.remade (T : TemplateOf s ts bond t) (hr : Remade t.batch t'.batch)
    (hs : checkSigner s T.steps.bonds t'.batch = .ok ()) (hh : t'.height = t.height)
    (hsub : t'.subsidy = t.subsidy)
    (hmh : t'.miningHash = computeHeaderHash (t'.batch.headerAt t'.height)) :
    Nonempty (TemplateOf s ts bond t') := by
  obtain ⟨b, hrooted, hsubsidy, -⟩ := hr.steps T.steps hs
  have hbonds : b.bonds = T.steps.bonds := congrArg State.bonds hrooted
  refine ⟨⟨T.height_pos, hh.trans T.height, ?_, hr.prevMidstate.trans T.prevMidstate,
    hr.prevHeaderHash.trans T.prevHeaderHash, hr.target.trans T.target, b, ?_, ?_, ?_⟩⟩
  · rw [hmh, hh, T.height]
  · rw [hr.stateRoot, T.stateRoot, hrooted]
  · rw [hsub, T.subsidy, hsubsidy]
  · rw [hr.signer, T.signer, hbonds, hr.timestamp]

theorem TemplateOf.accepted (T : TemplateOf s ts bond t)
    (htime : validateTimestamp t.batch.timestamp ts now = .ok ())
    (hpow : verifyPow s.height t.miningHash extension t.batch.target auxPow = .ok ()) :
    ∃ b : BlockSteps s (t.solved extension auxPow) ts false,
      applyBatch s (t.solved extension auxPow) ts now = .ok b.next ∧
        b.rooted.stateRoot = t.batch.stateRoot ∧ b.subsidy = t.subsidy := by
  have hr := solved_remade t extension auxPow
  have hs : checkSigner s T.steps.bonds (t.solved extension auxPow) = .ok () := by
    rw [checkSigner_solved]
    exact T.steps.signed
  obtain ⟨b, hrooted, hsub, -⟩ := hr.steps T.steps hs
  have hroot : (t.solved extension auxPow).stateRoot = b.rooted.stateRoot := by
    rw [hr.stateRoot, hrooted, T.stateRoot]
  have hlink : checkLinkage s (t.solved extension auxPow) = .ok () :=
    checkLinkage_eq_ok.mpr ⟨T.prevMidstate, T.prevHeaderHash, T.target⟩
  have hheader : checkHeader s (t.solved extension auxPow) ts now none = .ok () := by
    have hhash : computeHeaderHash (candidateHeader s (t.solved extension auxPow)) =
        t.miningHash := by
      rw [T.miningHash, candidateHeader, ← T.prevMidstate, ← T.prevHeaderHash]
      rfl
    rw [checkHeader, if_neg T.height_pos, hhash]
    exact check_bind_eq_ok.mpr ⟨htime, hpow⟩
  refine ⟨b, applyBatchInternal_eq_ok.mpr ⟨hlink, hheader, b, hroot, rfl⟩, ?_, ?_⟩
  · rw [hrooted, T.stateRoot]
  · rw [hsub, T.subsidy]

theorem Run.depth_eq (h : Run blocks s) :
    s.depth = min (blocks.map Batch.work).sum u128Max := by
  unfold Run at h
  induction h with
  | start => simp [State.genesis]
  | block _ ha ih =>
    obtain ⟨ts, now, pre, skip, ha⟩ := ha
    obtain ⟨-, -, b, -, rfl⟩ := applyBatchInternal_eq_ok.mp ha
    simp only [b.next_depth, ih, satAdd128, List.map_append, List.map_singleton, List.sum_append,
      List.sum_singleton]
    omega

theorem BlockSteps.weight_claimed (h : Run blocks s) (ht : batch.target = s.target)
    (hfit : s.depth + calculateWork s.target ≤ u128Max) (b : BlockSteps s batch ts skip) :
    b.next.weight = batch.chainWeight := by
  have hwork : 0 < batch.work := by
    rw [Batch.work, ht]
    exact calculateWork_pos h.windowed.target
  have hdepth := h.depth_eq
  have hw : batch.work = calculateWork s.target := by rw [Batch.work, ht]
  have hsum : ((blocks ++ [batch]).map Batch.work).sum < 2 ^ 128 := by
    simp only [List.map_append, List.map_singleton, List.sum_append, List.sum_singleton]
    unfold u128Max at *
    omega
  have hlt : (blocks.map Batch.work).sum < 2 ^ 128 := by
    simp only [List.map_append, List.sum_append] at hsum
    omega
  obtain ⟨-, -, hnext, hclaim⟩ := b.weight_next h.windowed (h.weighed hlt) ht hsum
  rw [hnext, hclaim]

theorem BlockSteps.weight_ne_of_saturated (h : Run blocks s) (ht : batch.target = s.target)
    (hdepth : s.depth = u128Max) (hcapped : 0 < s.capped) (b : BlockSteps s batch ts skip) :
    b.next.weight ≠ batch.chainWeight := by
  have hpos := (b.credit_bounds h.windowed ht).1
  have hmax : 0 < u128Max := by decide
  rw [b.chainWeight_eq]
  simp only [State.weight, b.next_depth, b.next_capped, hdepth, satAdd128]
  omega

/-- Whether a template's block, once it is solved, is accepted on `s` by a node whose clock it is
not ahead of, and leaves the chain with the root, the supply and the weight the template says. -/
def BlockTemplate.Mineable (t : BlockTemplate) (s : State) (ts : List Nat) : Prop :=
  ∀ extension auxPow now, validateTimestamp t.batch.timestamp ts now = .ok () →
    verifyPow s.height t.miningHash extension t.batch.target auxPow = .ok () →
    ∃ s', applyBatch s (t.solved extension auxPow) ts now = .ok s' ∧
      { s'.rootParts with chainMmrRoot := s.chainMmr.root true }.root = t.batch.stateRoot ∧
      s'.supply = s.supply + t.subsidy ∧
      (s.depth + calculateWork s.target ≤ u128Max → s'.weight = t.batch.chainWeight)

theorem TemplateOf.mineable (h : Run blocks s) (T : TemplateOf s ts bond t) :
    t.Mineable s ts := by
  intro extension auxPow now htime hpow
  obtain ⟨b, hok, hroot, hsub⟩ := T.accepted htime hpow
  have htarget : (t.solved extension auxPow).target = s.target := T.target
  refine ⟨b.next, hok, ?_, ?_, fun hfit => b.weight_claimed h htarget hfit⟩
  · rw [← hroot, State.stateRoot]
    simp only [State.rootParts, BlockSteps.next, finalize, BlockSteps.rooted, BodySteps.next,
      b.base_chainMmr]
  · rw [b.next_eq, ← hsub]

end Midwimble
