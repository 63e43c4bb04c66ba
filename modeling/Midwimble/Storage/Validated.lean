import Midwimble.Chain.Supply
import Midwimble.Storage.Exports

namespace Midwimble
open Fallible OrderedMap
set_option autoImplicit true

/-- A header that may follow another in a snapshot. -/
structure BatchHeader.Follows (prev h : BatchHeader) : Prop where
  height : h.height = prev.height + 1
  prevHeaderHash : h.prevHeaderHash = prev.extension.finalHash
  prevMidstate : h.prevMidstate = prev.postTxMidstate
  target : h.target = calculateTarget h.height prev.timestamp
  heavier : prev.chainWeight + 1 ≤ h.chainWeight
  possible : h.chainWeight - prev.chainWeight ≤ calculateWork h.target

theorem checkHeaderLinks_of_chain {hs : List BatchHeader} (h : hs.IsChain BatchHeader.Follows) :
    checkHeaderLinks hs = .ok () := by
  induction hs with
  | nil => rfl
  | cons prev hs ih =>
    cases hs with
    | nil => rfl
    | cons next hs =>
      obtain ⟨hlink, hrest⟩ := List.isChain_cons_cons.mp h
      have hjoined : ¬ (next.height ≠ prev.height + 1 ∨
          next.prevHeaderHash ≠ prev.extension.finalHash ∨
          next.prevMidstate ≠ prev.postTxMidstate ∨
          next.target ≠ calculateTarget next.height prev.timestamp) := by
        simp only [not_or, ne_eq, not_not]
        exact ⟨hlink.height, hlink.prevHeaderHash, hlink.prevMidstate, hlink.target⟩
      rw [checkHeaderLinks, bailIf_neg hjoined, bind_ok,
        bailIf_neg (not_not_intro ⟨hlink.heavier, hlink.possible⟩), bind_ok]
      exact ih hrest

variable [Primitives]

section Headers

variable {blocks : List Batch} {s : State}

/-- The headers of a chain follow each other. -/
theorem Built.follows (h : Built blocks s) (hfits : WorkFits blocks) :
    (blocks.zipIdx.map fun b => b.1.headerAt b.2).IsChain BatchHeader.Follows := by
  induction h with
  | genesis => exact .nil
  | @block blocks s batch now pre skip s' hb hok ih =>
    obtain ⟨hl, -, b, -, rfl⟩ := applyBatchInternal_eq_ok.mp hok
    obtain ⟨hmid, hprev, htarget⟩ := checkLinkage_eq_ok.mp hl
    have hweighed := hb.run.weighed hfits.of_append
    obtain ⟨hpos, hle⟩ := b.credit_bounds hb.run.windowed htarget
    have hweight := (b.weight_next hb.run.windowed hweighed htarget hfits).2.2.2
    rw [List.zipIdx_append, List.map_append, List.isChain_append]
    refine ⟨ih hfits.of_append, .singleton _, ?_⟩
    intro x hx y hy
    cases hy
    rcases List.eq_nil_or_concat blocks with rfl | ⟨below, last, rfl⟩
    · cases hx
    · rw [List.concat_eq_append] at hx hb hweighed ⊢
      obtain rfl : last.headerAt below.length = x := by
        simpa [List.zipIdx_append] using hx
      have hheight := hb.height
      obtain ⟨t, ht, now', pre', skip', hok'⟩ := hb.last
      obtain ⟨hl', -, b', -, rfl⟩ := applyBatchInternal_eq_ok.mp hok'
      have htip := hweighed.tip last List.getLast?_concat
      have hlast := b'.next_eq
      constructor
      · show 0 + (below ++ [last]).length = below.length + 1
        rw [List.length_append, List.length_singleton, Nat.zero_add]
      · show batch.prevHeaderHash = last.extension.finalHash
        rw [hprev, hlast]
      · show batch.prevMidstate = foldBlock last.prevMidstate last
        rw [hmid, hlast, (checkLinkage_eq_ok.mp hl').1]
      · show batch.target = calculateTarget (0 + (below ++ [last]).length) last.timestamp
        rw [htarget, b'.next_target, ht.height, Nat.zero_add, List.length_append,
          List.length_singleton]
      · show last.chainWeight + 1 ≤ batch.chainWeight
        rw [hweight, htip]
        exact Nat.add_le_add_left hpos _
      · show batch.chainWeight - last.chainWeight ≤ batch.work
        rw [hweight, htip, Nat.add_sub_cancel_left]
        exact hle

theorem Chain.worked (h : Chain latest blocks s) :
    ∀ x ∈ blocks.zipIdx.map fun b => b.1.headerAt b.2, 0 < x.height →
      verifyPow x.height (computeHeaderHash x) x.extension x.target x.auxPow = .ok () := by
  induction h with
  | genesis => exact fun x hx => absurd hx List.not_mem_nil
  | @block blocks s now batch s' hchain _ hok ih =>
    intro x hx hpos
    rw [List.zipIdx_append, List.map_append] at hx
    rcases List.mem_append.mp hx with hx | hx
    · exact ih x hx hpos
    · obtain rfl := List.mem_singleton.mp hx
      have hheight : s.height = 0 + blocks.length := by
        rw [hchain.built.height, Nat.zero_add]
      have hne : s.height ≠ 0 := by
        rw [hheight]
        exact Nat.ne_of_gt hpos
      obtain ⟨hl, hheader, -⟩ := applyBatchInternal_eq_ok.mp hok
      obtain ⟨hmid, hprev, -⟩ := checkLinkage_eq_ok.mp hl
      simp only [checkHeader, if_neg hne, bind_eq_ok] at hheader
      obtain ⟨_, -, hpow⟩ := hheader
      show verifyPow (0 + blocks.length) (computeHeaderHash (batch.headerAt (0 + blocks.length)))
        batch.extension batch.target batch.auxPow = .ok ()
      rw [← hheight]
      have hhash : computeHeaderHash (batch.headerAt s.height) =
          computeHeaderHash (candidateHeader s batch) := by
        simp only [computeHeaderHash, candidateHeader, Batch.headerAt, Batch.header, hmid, hprev]
      rw [hhash]
      exact hpow

end Headers

/-- All kernels of some blocks, oldest first. -/
def chainKernels (blocks : List Batch) : List Kernel :=
  blocks.flatMap fun b => blockKernels b.body b.coinbase

section Kernels

theorem excess_decodes {ks : List Kernel} (h : ks.foldlM addKernel acc = .ok acc') :
    ∀ k ∈ ks, (decompress k.excess).isSome := by
  induction ks generalizing acc with
  | nil => exact fun k hk => absurd hk List.not_mem_nil
  | cons k ks ih =>
    obtain ⟨t, ht, hr⟩ := foldlM_cons_eq_ok.mp h
    obtain ⟨-, excess, he, -⟩ := addKernel_eq_ok.mp ht
    intro k' hk'
    rcases List.mem_cons.mp hk' with rfl | hk'
    · exact Option.isSome_iff_exists.mpr ⟨excess, he⟩
    · exact ih hr k' hk'

variable {S : Set Batch} {blocks : List Batch} {s : State} {l : Ledger}

omit [Primitives] in
theorem chainKernels_append (blocks : List Batch) (batch : Batch) :
    chainKernels (blocks ++ [batch]) =
      chainKernels blocks ++ blockKernels batch.body batch.coinbase := by
  rw [chainKernels, List.flatMap_append, List.flatMap_singleton]
  rfl

/-- The kernel table of a chain holds its blocks' kernels, each once. -/
theorem Ledger.Of.kernels_perm (hl : Ledger.Of blocks l) (ha : StoredApart S)
    (hsub : ∀ c ∈ blocks, c ∈ S) :
    (l.kernels.toList.map Prod.snd).Perm (chainKernels blocks) := by
  induction hl with
  | root => exact List.Perm.refl []
  | @block chain l s batch s' l' u hof hb hb' happly ih =>
    have hbelow : ∀ c ∈ chain, c ∈ S := fun c hc => hsub c (List.mem_append_left _ hc)
    have hkernels : l'.kernels =
        insertAll l.kernels ((blockKernels batch.body batch.coinbase).map fun k => (k.id, k)) := by
      simp only [Ledger.applyBlock, bind_eq_ok, Except.ok.injEq, Prod.mk.injEq] at happly
      obtain ⟨_, -, rfl, -⟩ := happly
      rfl
    obtain ⟨t, ht, now, pre, skip, hok⟩ := hb'.last
    obtain rfl := ht.unique hb
    obtain ⟨-, -, b, -, -⟩ := applyBatchInternal_eq_ok.mp hok
    obtain ⟨hfresh, hnodup, -⟩ := kernels_added b.body.sums
    have htells := (hof.stands ha hb hbelow).tells
    have hkeys : ((blockKernels batch.body batch.coinbase).map fun k => (k.id, k)).map Prod.fst =
        (blockKernels batch.body batch.coinbase).map Kernel.id := by
      rw [List.map_map]
      rfl
    have hperm := toList_insertAll_perm (t := l.kernels) (hkeys ▸ hnodup) (by
      intro id hid
      rw [hkeys] at hid
      obtain ⟨k, hk, rfl⟩ := List.mem_map.mp hid
      rw [htells.kernels, ← b.base_kernels]
      exact hfresh k hk)
    rw [hkernels, chainKernels_append]
    apply (hperm.map Prod.snd).trans
    rw [List.map_append, List.map_map]
    have hsnd : (blockKernels batch.body batch.coinbase).map (Prod.snd ∘ fun k => (k.id, k)) =
        blockKernels batch.body batch.coinbase := List.map_id _
    rw [hsnd]
    exact List.perm_append_comm.trans ((ih hbelow).append_right _)

theorem Built.excess (h : Built blocks s) :
    (∀ k ∈ chainKernels blocks, (decompress k.excess).isSome) ∧
      s.kernelExcessSum = compress (pointSum ((chainKernels blocks).map Kernel.excess)) := by
  induction h with
  | genesis => exact ⟨fun k hk => absurd hk List.not_mem_nil, Primitives.compress_zero.symm⟩
  | @block blocks s batch now pre skip s' hb hok ih =>
    obtain ⟨-, -, b, -, rfl⟩ := applyBatchInternal_eq_ok.mp hok
    have hsum : b.body.excessSum = b.body.excessBefore +
        pointSum ((blockKernels batch.body batch.coinbase).map Kernel.excess) :=
      excess_adds b.body.sums
    have hbefore := b.body.excess_before
    rw [b.base_kernelExcessSum, ih.2, Primitives.decompress_compress, Option.some.injEq] at hbefore
    rw [chainKernels_append]
    constructor
    · intro k hk
      rcases List.mem_append.mp hk with hk | hk
      · exact ih.1 k hk
      · exact excess_decodes b.body.sums k hk
    · rw [b.next_eq, List.map_append, pointSum_append, hbefore, ← hsum]

end Kernels

/-- What full validation checks of a block's kernels and output groups. -/
structure Batch.Checked (b : Batch) : Prop where
  kernels : ∀ k ∈ blockKernels b.body b.coinbase, k.checkRules = .ok () ∧ k.verifySignature = true
  groups : ∀ p ∈ blockGroups b, p.1.checkStructure = .ok () ∧ p.1.verifyRangeProof = true
  coinbase : ∀ cb, b.coinbase = some cb → cb.kernel.features = .coinbase

section Checked

variable {blocks : List Batch} {s : State} {batch : Batch}

theorem Coinbase.verifyCrypto_eq_ok {c : Coinbase} : c.verifyCrypto = .ok () ↔
    c.outputs.verifyRangeProof = true ∧ c.kernel.verifySignature = true := by
  simp only [Coinbase.verifyCrypto, check_bind_eq_ok, bailIf_eq_ok, Bool.not_eq_true',
    Bool.not_eq_false]

theorem BlockSteps.checked {ts : List Nat} (b : BlockSteps s batch ts false) : batch.Checked := by
  obtain ⟨hstructure, -, -, fees, -, -, hpays⟩ := validateBlockContents_eq_ok.mp b.contents
  have hsound := (validateStructure_eq_ok.mp hstructure).2
  have hstructures := b.structures
  have hbody : batch.body.verifyCrypto = .ok () := by
    cases hpays with
    | genesis _ _ hempty =>
      simp only [Transaction.isEmpty, Bool.and_eq_true, List.isEmpty_iff] at hempty
      rw [verifyCrypto_eq_ok]
      simp [hempty]
    | coinbase cb _ _ hvalid =>
      exact ((validateWithCoinbase_eq_ok.mp hvalid).2.2.2.2.2.2 rfl).1
    | nothing _ _ hvalid => exact (validateWithoutCoinbase_eq_ok.mp hvalid).2.2.2 rfl
  have hcoinbase : ∀ cb, batch.coinbase = some cb →
      cb.verifyCrypto = .ok () ∧ cb.kernel.features = .coinbase ∧ cb.kernel.checkRules = .ok () := by
    intro cb hcb
    cases hpays with
    | genesis _ hnone _ =>
      rw [hnone] at hcb
      cases hcb
    | nothing _ hnone _ =>
      rw [hnone] at hcb
      cases hcb
    | coinbase cb' _ hcb' hvalid =>
      obtain rfl := Option.some.inj (hcb.symm.trans hcb')
      obtain ⟨-, hshape, -, -, -, -, hcrypto⟩ := validateWithCoinbase_eq_ok.mp hvalid
      simp only [Coinbase.validateStructure, check_bind_eq_ok, bailIf_eq_ok, ne_eq,
        not_not] at hshape
      exact ⟨(hcrypto rfl).2, hshape.2.2.1, hshape.2.2.2⟩
  obtain ⟨hranges, -, hsignatures⟩ := verifyCrypto_eq_ok.mp hbody
  refine ⟨?_, ?_, fun cb hcb => (hcoinbase cb hcb).2.1⟩
  · intro k hk
    rcases List.mem_append.mp hk with hk | hk
    · exact ⟨(hsound.plain k hk).2, hsignatures k hk⟩
    · rw [Option.mem_toList, Option.map_eq_some_iff] at hk
      obtain ⟨cb, hcb, rfl⟩ := hk
      obtain ⟨hcrypto, -, hrules⟩ := hcoinbase cb hcb
      exact ⟨hrules, (Coinbase.verifyCrypto_eq_ok.mp hcrypto).2⟩
  · intro p hp
    refine ⟨hstructures p hp, ?_⟩
    rcases mem_blockGroups hp with hg | ⟨cb, hcb, hg⟩
    · exact hranges _ hg
    · rw [hg]
      exact (Coinbase.verifyCrypto_eq_ok.mp (hcoinbase cb hcb).1).1

theorem Chain.checked (h : Chain latest blocks s) : ∀ b ∈ blocks, b.Checked := by
  induction h with
  | genesis => exact fun b hb => absurd hb List.not_mem_nil
  | block _ _ hok ih =>
    obtain ⟨-, -, b, -, -⟩ := applyBatchInternal_eq_ok.mp hok
    intro c hc
    rcases List.mem_append.mp hc with hc | hc
    · exact ih c hc
    · obtain rfl := List.mem_singleton.mp hc
      exact b.checked

theorem coinbases_le (h : ∀ b ∈ blocks, b.Checked) :
    blocks.countP (fun b => b.coinbase.isSome) ≤
      ((chainKernels blocks).filter fun k => k.features = .coinbase).length := by
  induction blocks with
  | nil => exact Nat.le_refl _
  | cons b blocks ih =>
    have hrest := ih fun c hc => h c (List.mem_cons_of_mem _ hc)
    have hsplit : chainKernels (b :: blocks) =
        blockKernels b.body b.coinbase ++ chainKernels blocks :=
      List.flatMap_cons
    rw [hsplit, List.filter_append, List.length_append, List.countP_cons]
    cases hcb : b.coinbase with
    | none =>
      simp only [Option.isSome_none, Bool.false_eq_true, if_false]
      omega
    | some cb =>
      have hmem : cb.kernel ∈
          (blockKernels b.body (some cb)).filter fun k => k.features = .coinbase := by
        rw [List.mem_filter]
        refine ⟨List.mem_append_right _ (by simp), ?_⟩
        exact decide_eq_true ((h b List.mem_cons_self).coinbase cb hcb)
      have hpos := List.length_pos_of_mem hmem
      simp only [Option.isSome_some, if_true]
      omega

theorem GroupMember.metadataHash_after (spent : List Point32) (m : GroupMember) :
    (m.after spent).metadataHash = m.metadataHash := by
  cases m with
  | unspent o =>
    simp only [GroupMember.after]
    split <;> rfl
  | spent c m => rfl

/-- A checked group still verifies once some of its outputs are spent. -/
theorem StoredGroup.verify_after {g : OutputGroup} (hs : g.checkStructure = .ok ())
    (hr : g.verifyRangeProof = true) (spent : List Point32) :
    ((StoredGroup.fromGroup g).after spent).verify = true := by
  simp only [OutputGroup.checkStructure, check_bind_eq_ok, bailIf_eq_ok, checkAll_eq_ok, ne_eq,
    not_not] at hs
  obtain ⟨hsize, hproof, hencoded⟩ := hs
  have hcommitments : ((StoredGroup.fromGroup g).after spent).members.map GroupMember.commitment =
      g.commitments := by
    rw [StoredGroup.commitments_after, StoredGroup.fromGroup, List.map_map]
    rfl
  have hmetadata : ((StoredGroup.fromGroup g).after spent).members.map GroupMember.metadataHash =
      g.outputs.map Output.metadataHash := by
    rw [StoredGroup.after, StoredGroup.fromGroup, List.map_map, List.map_map]
    apply List.map_congr_left
    intro o _
    exact GroupMember.metadataHash_after spent (.unspent o)
  have hlength : ((StoredGroup.fromGroup g).after spent).members.length = g.outputs.length := by
    rw [StoredGroup.after, StoredGroup.fromGroup, List.length_map, List.length_map]
  have hshape : ¬ (g.outputs.length = 0 ∨ g.outputs.length > maxGroupOutputs ∨
      g.rangeProof.length ≠ rangeProofLen g.outputs.length) := by
    rw [← or_assoc, not_or]
    exact ⟨hsize, not_not_intro hproof⟩
  have hencodes : ∀ o, GroupMember.unspent o ∈ ((StoredGroup.fromGroup g).after spent).members →
      o.checkEncoding = .ok () := by
    intro o ho
    obtain ⟨m, hm, he⟩ := List.mem_map.mp ho
    obtain ⟨o', ho', rfl⟩ := List.mem_map.mp hm
    obtain ⟨hsame, -⟩ := GroupMember.after_eq_unspent.mp he
    obtain rfl := GroupMember.unspent.inj hsame
    exact hencoded _ ho'
  have hrange : ((StoredGroup.fromGroup g).after spent).rangeProof = g.rangeProof := rfl
  rw [StoredGroup.verify, hcommitments, hmetadata, hlength, hrange, if_neg hshape, if_neg]
  · exact hr
  · rw [Bool.not_eq_true, List.any_eq_false]
    intro m hm
    cases m with
    | unspent o => simp [hencodes o hm]
    | spent c m => exact Bool.false_ne_true

end Checked

end Midwimble
