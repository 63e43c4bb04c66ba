import Midwimble.Chain.Solved
import Midwimble.Core.Recovery
import Midwimble.Identity.Preimages
import Midwimble.Lib.OrderedMap
import Midwimble.Merkle.Proofs

namespace Midwimble
open Fallible
set_option autoImplicit true

section
variable [Primitives]

section Leaves

variable {s s' : State} {height : Nat} {isCoinbase : Bool}

/-- Every leaf of the UTXO tree is an unspent output's. -/
def Leaved (s : State) : Prop :=
  ∀ leaf ∈ s.utxoSet.coins, ∃ (c : Point32) (e : UtxoEntry),
    s.utxos[c]? = some e ∧ leaf = utxoLeaf c e

theorem Leaved.spend {input : Input} (h : Leaved s) (hs : spendInput height s input = .ok s') :
    Leaved s' := by
  obtain ⟨entry, he, -, -, rfl⟩ := spendInput_eq_ok.mp hs
  intro leaf hleaf
  obtain ⟨hne, hleaf⟩ := Std.ExtTreeSet.mem_erase.mp hleaf
  obtain ⟨c, e, hc, rfl⟩ := h leaf hleaf
  refine ⟨c, e, OrderedMap.getElem?_erase_eq_some.mpr ⟨?_, hc⟩, rfl⟩
  rintro rfl
  obtain rfl := Option.some.inj (he.symm.trans hc)
  exact hne Std.ReflCmp.compare_self

theorem Leaved.add {output : Output} (h : Leaved s)
    (ho : addOutput height isCoinbase s output = .ok s') : Leaved s' := by
  obtain ⟨hnew, rfl⟩ := addOutput_eq_ok.mp ho
  have hold : ∀ leaf ∈ s.utxoSet.coins, ∃ (c : Point32) (e : UtxoEntry),
      (s.utxos.insert output.commitment (utxoEntry height isCoinbase output))[c]? = some e ∧
        leaf = utxoLeaf c e := by
    intro leaf hleaf
    obtain ⟨c, e, hc, rfl⟩ := h leaf hleaf
    refine ⟨c, e, OrderedMap.getElem?_insert_eq_some.mpr (.inr ⟨?_, hc⟩), rfl⟩
    rintro rfl
    exact hnew (OrderedMap.mem_iff_exists.mpr ⟨e, hc⟩)
  intro leaf hleaf
  rw [UtxoAccumulator.insert] at hleaf
  dsimp only at hleaf
  split at hleaf
  · exact hold leaf hleaf
  · rcases Std.ExtTreeSet.mem_insert.mp hleaf with heq | hleaf
    · exact ⟨output.commitment, _, OrderedMap.getElem?_insert_eq_some.mpr (.inl ⟨rfl, rfl⟩),
        (Std.LawfulEqCmp.eq_of_compare heq).symm⟩
    · exact hold leaf hleaf

theorem Leaved.body {body : Transaction} {coinbase : Option Coinbase} {subsidy : Nat}
    (h : Leaved s) (b : BodySteps s body coinbase subsidy) : Leaved b.next := by
  have hspent : Leaved b.spent := foldlM_invariant Leaved (fun _ _ _ h hs => h.spend hs) h b.spends
  have hpaid : Leaved b.paid := foldlM_invariant Leaved (fun _ _ _ h ho => h.add ho) hspent b.pays
  have hrewarded : Leaved b.rewarded :=
    foldlM_invariant Leaved (fun _ _ _ h ho => h.add ho) hpaid b.rewards
  exact hrewarded

theorem BlockSteps.base_leaved {batch : Batch} {ts : List Nat} {skip : Bool}
    (b : BlockSteps s batch ts skip) (h : Leaved s) : Leaved b.base := by
  rw [b.base_eq]
  exact h

theorem leaved_of_reachable (h : Reachable s) : Leaved s := by
  obtain ⟨blocks, hrun⟩ := h
  unfold Run at hrun
  induction hrun with
  | start =>
    intro leaf hleaf
    exact absurd hleaf Std.ExtTreeSet.not_mem_empty
  | block _ ha ih =>
    obtain ⟨ts, now, pre, skip, h⟩ := ha
    obtain ⟨-, -, b, -, rfl⟩ := applyBatchInternal_eq_ok.mp h
    exact (b.base_leaved ih).body b.body

end Leaves

/-- The state that an accepted block's state root is the root of. -/
def Committed (batch : Batch) (s : State) : Prop :=
  ∃ t, Reachable t ∧ ∃ (ts : List Nat) (now : Nat) (pre : Option Bytes32) (skip : Bool)
    (b : BlockSteps t batch ts skip), applyBatchInternal t batch ts now pre skip = .ok b.next ∧
      batch.stateRoot = b.rooted.stateRoot ∧ s = b.rooted

/-- What an output's leaf, an opening's recovery commitment and a state root are hashes of. -/
def leafPreimage (c : Point32) (e : UtxoEntry) : Bytes :=
  domainPreimage (Bytes.ascii "midwimble.utxo-leaf.v1")
    [c.toBytes, e.outputHash.toBytes, e.ownerKey.toBytes, e.recoveryCommitment.toBytes,
      Bytes.le 8 e.height, [if e.coinbase then 1 else 0]]

def openingPreimage (key : Bytes32) (value : Nat) (blinding : Scalar32) (salt : Bytes32) : Bytes :=
  domainPreimage (Bytes.ascii "midwimble.recovery.v1")
    [networkMagic, key.toBytes, Bytes.le 8 value, blinding.toBytes, salt.toBytes]

def partsPreimage (p : StateRootParts) : Bytes :=
  domainPreimage (Bytes.ascii "midwimble.state-root.v1")
    [p.utxoRoot.toBytes, p.kernelRoot.toBytes, p.chainMmrRoot.toBytes,
      p.kernelExcessSum.toBytes, p.totalKernelOffset.toBytes, Bytes.le 8 p.supply,
      p.bondsRoot.toBytes, p.relayRoot.toBytes]

def nodePreimage (p : Bytes32 × Bytes32) : Bytes := [nodeTag] ++ p.1.toBytes ++ p.2.toBytes

section Preimages

variable {S : Set Bytes} {c c' : Point32} {e e' : UtxoEntry} {p q : StateRootParts}

theorem utxoLeaf_inj (hinj : Set.InjOn blake3 S) (hx : leafPreimage c e ∈ S)
    (hy : leafPreimage c' e' ∈ S) (h : utxoLeaf c e = utxoLeaf c' e') :
    c = c' ∧ e.recoveryCommitment = e'.recoveryCommitment := by
  obtain ⟨-, hparts⟩ := domainPreimage_inj (by simp; decide) (by simp; decide) (hinj hx hy h)
  simp only [List.cons.injEq] at hparts
  exact ⟨toBytes_inj hparts.1, toBytes_inj hparts.2.2.2.1⟩

theorem recoveryCommitment_inj (hinj : Set.InjOn blake3 S) {key key' salt salt' : Bytes32}
    {v v' : Nat} {blinding blinding' : Scalar32} (hv : v < 2 ^ 64) (hv' : v' < 2 ^ 64)
    (hx : openingPreimage key v blinding salt ∈ S)
    (hy : openingPreimage key' v' blinding' salt' ∈ S)
    (h : recoveryCommitment key v blinding salt = recoveryCommitment key' v' blinding' salt') :
    v = v' := by
  obtain ⟨-, hparts⟩ := domainPreimage_inj (by simp; decide) (by simp; decide) (hinj hx hy h)
  simp only [List.cons.injEq] at hparts
  exact Bytes.le_inj hv hv' hparts.2.2.1

theorem parts_inj (hinj : Set.InjOn blake3 S) (hp : p.supply < 2 ^ 64) (hq : q.supply < 2 ^ 64)
    (hx : partsPreimage p ∈ S) (hy : partsPreimage q ∈ S) (h : p.root = q.root) :
    p.utxoRoot = q.utxoRoot ∧ p.supply = q.supply := by
  obtain ⟨-, hparts⟩ := domainPreimage_inj (by simp; decide) (by simp; decide) (hinj hx hy h)
  simp only [List.cons.injEq] at hparts
  exact ⟨toBytes_inj hparts.1, Bytes.le_inj hp hq hparts.2.2.2.2.2.1⟩

theorem hashesApart_of_injOn (hinj : Set.InjOn blake3 S) {x : Set (Bytes32 × Bytes32)}
    (hx : ∀ p ∈ x, nodePreimage p ∈ S) : HashesApart true x := by
  intro p hp q hq h
  have hpre : nodePreimage p = nodePreimage q := hinj (hx p hp) (hx q hq) h
  rw [nodePreimage, nodePreimage, List.append_assoc, List.append_assoc] at hpre
  obtain ⟨-, hpair⟩ := List.append_inj hpre rfl
  obtain ⟨hfst, hsnd⟩ := List.append_inj hpair (by simp)
  exact Prod.ext (toBytes_inj hfst) (toBytes_inj hsnd)

end Preimages

/-- Strings that hashing a checkpoint's state and checking some claims feeds the hash. -/
def recoveryHashed (s : State) (parts : StateRootParts) (claims : List RecoveryClaim) :
    Set Bytes :=
  {x | x = partsPreimage s.rootParts ∨ x = partsPreimage parts ∨
    (∃ (c : Point32) (e : UtxoEntry), s.utxos[c]? = some e ∧ x = leafPreimage c e) ∨
    (∃ p ∈ hashedPairs true {leaf | leaf ∈ s.utxoSet.coins}, x = nodePreimage p) ∨
    ∃ claim ∈ claims, ∃ o ∈ claim.outputs, x = leafPreimage o.commitment o.entry ∨
      x = openingPreimage claim.recoveryKey o.value o.blinding o.salt ∨
      ∃ p ∈ verifiedPairs true (utxoLeaf o.commitment o.entry) o.proof, x = nodePreimage p}

/-- An output is unspent in the state and its recovery commitment fixes the value, among all
openings whose hash input is in `S`. -/
def Frozen (S : Set Bytes) (s : State) (c : Point32) (v : Nat) : Prop :=
  ∃ e : UtxoEntry, s.utxos[c]? = some e ∧
    (∃ key blinding salt, openingPreimage key v blinding salt ∈ S ∧
      e.recoveryCommitment = recoveryCommitment key v blinding salt) ∧
    ∀ (key : Bytes32) (v' : Nat) (blinding : Scalar32) (salt : Bytes32), v' < 2 ^ 64 →
      openingPreimage key v' blinding salt ∈ S →
      e.recoveryCommitment = recoveryCommitment key v' blinding salt → v' = v

/-- What a claim is worth. -/
def RecoveryClaim.worth (claim : RecoveryClaim) : Nat :=
  (claim.outputs.map ClaimedOutput.value).sum

/-- The signature slot a claim uses. -/
def RecoveryClaim.slot (claim : RecoveryClaim) : Bytes32 × Nat :=
  (claim.recoveryKey, claim.signature.leafIndex)

def RecoveryClaim.commitments (claim : RecoveryClaim) : List Point32 :=
  claim.outputs.map ClaimedOutput.commitment

namespace RecoveryState

variable {r r' : RecoveryState} {claim : RecoveryClaim} {claims done : List RecoveryClaim}

/-- What checking the outputs of a claim establishes of one of them. -/
def Proven (r : RecoveryState) (key : Bytes32) (o : ClaimedOutput) : Prop :=
  o.commitment ∉ r.claimed ∧
    verifyUtxoProof (utxoLeaf o.commitment o.entry) o.proof r.parts.utxoRoot true = true ∧
    o.entry.recoveryCommitment = recoveryCommitment key o.value o.blinding o.salt

theorem proven_of_checkOutput {key : Bytes32} {acc acc' : List Point32 × Nat} {o : ClaimedOutput}
    (h : r.checkOutput key acc o = .ok acc') :
    r.Proven key o ∧ o.commitment ∉ acc.1 ∧
      acc' = (acc.1 ++ [o.commitment], acc.2 + o.value) := by
  simp only [checkOutput, bind_eq_ok, bailIf_eq_ok, orBail_eq_ok, checkedAdd64_eq_some, not_or,
    Bool.not_eq_true', Bool.not_eq_false, ne_eq, not_not] at h
  obtain ⟨_, ⟨hseen, hclaimed⟩, _, hproof, _, hcommit, _, -, _, -, total, ⟨-, rfl⟩, hacc⟩ := h
  exact ⟨⟨hclaimed, hproof, hcommit⟩, hseen, (Except.ok.inj hacc).symm⟩

theorem proven_of_checkOutputs {key : Bytes32} {acc acc' : List Point32 × Nat}
    {outputs : List ClaimedOutput} (hacc : acc.1.Nodup)
    (h : outputs.foldlM (r.checkOutput key) acc = .ok acc') :
    (∀ o ∈ outputs, r.Proven key o) ∧
      (acc.1 ++ outputs.map ClaimedOutput.commitment).Nodup ∧
      acc'.2 = acc.2 + (outputs.map ClaimedOutput.value).sum := by
  induction outputs generalizing acc with
  | nil =>
    obtain rfl := pure_eq_ok.mp h
    refine ⟨nofun, ?_, rfl⟩
    rwa [List.map_nil, List.append_nil]
  | cons o outputs ih =>
    obtain ⟨mid, ho, hrest⟩ := foldlM_cons_eq_ok.mp h
    obtain ⟨hproven, hnew, rfl⟩ := proven_of_checkOutput ho
    have hmid : (acc.1 ++ [o.commitment]).Nodup := by
      apply List.nodup_append'.mpr
      refine ⟨hacc, List.nodup_singleton _, ?_⟩
      intro c hc hc'
      obtain rfl := List.mem_singleton.mp hc'
      exact hnew hc
    obtain ⟨hall, hnodup, hsum⟩ := ih hmid hrest
    refine ⟨List.forall_mem_cons.mpr ⟨hproven, hall⟩, ?_, ?_⟩
    · rw [List.map_cons, ← List.singleton_append, ← List.append_assoc]
      exact hnodup
    · rw [hsum, List.map_cons, List.sum_cons, Nat.add_assoc]

theorem apply_eq_ok {worth : Nat} (h : (r.apply claim).2 = .ok worth) :
    (∀ o ∈ claim.outputs, r.Proven claim.recoveryKey o) ∧ claim.commitments.Nodup ∧
      claim.slot ∉ r.usedLeaves ∧ worth = claim.worth ∧
      r.totalClaimed + claim.worth ≤ r.parts.supply ∧
      (r.apply claim).1 =
        { r with
          usedLeaves := claim.slot :: r.usedLeaves
          claimed := claim.outputs.foldl (fun m o => m.insert o.commitment) r.claimed
          totalClaimed := r.totalClaimed + claim.worth
          credited := r.credited ++ [(claim.destination, claim.worth)] } := by
  cases hcheck : r.check claim with
  | error e =>
    rw [apply, hcheck] at h
    cases h
  | ok totals =>
    obtain ⟨total, newTotal⟩ := totals
    rw [apply, hcheck] at h ⊢
    obtain rfl : total = worth := Except.ok.inj h
    simp only [check, bind_eq_ok, bailIf_eq_ok, orBail_eq_ok, checkedAdd64_eq_some, not_lt,
      gt_iff_lt, Prod.exists] at hcheck
    obtain ⟨_, -, _, -, _, hslot, seen, sum, houtputs, total', ⟨-, rfl⟩, _, hsupply, _, -, heq⟩ :=
      hcheck
    obtain ⟨rfl, rfl⟩ := Prod.mk.inj (Except.ok.inj heq)
    obtain ⟨hproven, hnodup, hsum⟩ := proven_of_checkOutputs List.nodup_nil houtputs
    have hworth : sum = claim.worth := hsum.trans (Nat.zero_add _)
    subst hworth
    exact ⟨hproven, hnodup, hslot, rfl, hsupply, rfl⟩

theorem apply_error {e : Err} (h : (r.apply claim).2 = .error e) : (r.apply claim).1 = r := by
  cases hcheck : r.check claim with
  | error e => rw [apply, hcheck]
  | ok totals =>
    rw [apply, hcheck] at h
    cases h

/-- What the epoch's state says of the claims accepted so far. -/
structure Books (s : State) (S : Set Bytes) (parts : StateRootParts) (r : RecoveryState)
    (done : List RecoveryClaim) : Prop where
  parts_eq : r.parts = parts
  claimed : ∀ c, c ∈ r.claimed ↔ c ∈ done.flatMap RecoveryClaim.commitments
  once : (done.flatMap RecoveryClaim.commitments).Nodup
  used : ∀ slot, slot ∈ r.usedLeaves ↔ slot ∈ done.map RecoveryClaim.slot
  slots : (done.map RecoveryClaim.slot).Nodup
  total : r.totalClaimed = (done.map RecoveryClaim.worth).sum
  credited : r.credited = done.map fun claim => (claim.destination, claim.worth)
  capped : r.totalClaimed ≤ parts.supply
  frozen : ∀ claim ∈ done, ∀ o ∈ claim.outputs, Frozen S s o.commitment o.value

theorem frozen_of_proven {s : State} {S : Set Bytes} {parts : StateRootParts} {o : ClaimedOutput}
    (hleaved : Leaved s) (hroot : parts.utxoRoot = s.utxoSet.root true)
    (hinj : Set.InjOn blake3 S) (hzero : ∀ x ∈ S, blake3 x ≠ 0)
    (hhashed : recoveryHashed s parts claims ⊆ S) (hmem : claim ∈ claims) (ho : o ∈ claim.outputs)
    (hfits : o.value < 2 ^ 64) (hparts : r.parts = parts)
    (h : r.Proven claim.recoveryKey o) : Frozen S s o.commitment o.value := by
  have hleaf : leafPreimage o.commitment o.entry ∈ S :=
    hhashed (.inr (.inr (.inr (.inr ⟨claim, hmem, o, ho, .inl rfl⟩))))
  have hopening : openingPreimage claim.recoveryKey o.value o.blinding o.salt ∈ S :=
    hhashed (.inr (.inr (.inr (.inr ⟨claim, hmem, o, ho, .inr (.inl rfl)⟩))))
  have hapart : HashesApart true (hashedPairs true {leaf | leaf ∈ s.utxoSet.coins} ∪
      verifiedPairs true (utxoLeaf o.commitment o.entry) o.proof) := by
    apply hashesApart_of_injOn hinj
    rintro p (hp | hp)
    · exact hhashed (.inr (.inr (.inr (.inl ⟨p, hp, rfl⟩))))
    · exact hhashed (.inr (.inr (.inr (.inr ⟨claim, hmem, o, ho, .inr (.inr ⟨p, hp, rfl⟩)⟩))))
  obtain ⟨-, hproof, hcommit⟩ := h
  rw [hparts, hroot, UtxoAccumulator.root, computeSparseSubtree_eq (Nat.le_refl 256)
    (sorted_toList _) fun c _ => SparseTree.agrees_width c (utxoLeaf o.commitment o.entry)] at hproof
  have hset : {c | c ∈ s.utxoSet.coins.toList} = {leaf | leaf ∈ s.utxoSet.coins} := by
    ext leaf
    exact Std.ExtTreeSet.mem_toList
  have hblank : utxoLeaf o.commitment o.entry ≠ 0 := hzero _ hleaf
  rw [hset] at hproof
  have hin : utxoLeaf o.commitment o.entry ∈ s.utxoSet.coins :=
    mem_of_verify_subtree hblank hapart hproof
  obtain ⟨c, e, he, heq⟩ := hleaved _ hin
  have hown : leafPreimage c e ∈ S := hhashed (.inr (.inr (.inl ⟨c, e, he, rfl⟩)))
  obtain ⟨rfl, hrecovery⟩ := utxoLeaf_inj hinj hleaf hown heq
  refine ⟨e, he, ⟨_, _, _, hopening, hrecovery.symm.trans hcommit⟩, ?_⟩
  intro key v' blinding salt hv' hother h
  exact recoveryCommitment_inj hinj hv' hfits hother hopening
    (h.symm.trans (hrecovery.symm.trans hcommit))

omit [Primitives] in
theorem mem_claimed {outputs : List ClaimedOutput} {m : Std.ExtTreeSet Point32} {c : Point32} :
    c ∈ outputs.foldl (fun m o => m.insert o.commitment) m ↔
      c ∈ m ∨ c ∈ outputs.map ClaimedOutput.commitment := by
  induction outputs generalizing m with
  | nil => simp
  | cons o outputs ih =>
    rw [List.foldl_cons, ih, Std.ExtTreeSet.mem_insert, Std.LawfulEqCmp.compare_eq_iff_eq,
      List.map_cons, List.mem_cons, eq_comm]
    tauto

theorem Books.apply {s : State} {S : Set Bytes} {parts : StateRootParts} {worth : Nat}
    (h : Books s S parts r done)
    (hfrozen : ∀ o ∈ claim.outputs, r.Proven claim.recoveryKey o →
      Frozen S s o.commitment o.value)
    (hok : (r.apply claim).2 = .ok worth) :
    Books s S parts (r.apply claim).1 (done ++ [claim]) := by
  obtain ⟨hproven, hnodup, hslot, -, hsupply, heq⟩ := apply_eq_ok hok
  rw [heq]
  constructor
  · exact h.parts_eq
  · intro c
    rw [mem_claimed, h.claimed, List.flatMap_append, List.mem_append, List.flatMap_singleton]
    rfl
  · rw [List.flatMap_append, List.flatMap_singleton]
    apply List.nodup_append'.mpr
    refine ⟨h.once, hnodup, ?_⟩
    intro c hc hc'
    obtain ⟨o, ho, rfl⟩ := List.mem_map.mp hc'
    exact (hproven o ho).1 ((h.claimed _).mpr hc)
  · intro slot
    rw [List.mem_cons, h.used, List.map_append, List.mem_append, List.map_singleton,
      List.mem_singleton, or_comm]
  · rw [List.map_append, List.map_singleton]
    apply List.nodup_append'.mpr
    refine ⟨h.slots, List.nodup_singleton _, ?_⟩
    intro slot hslot' heq
    obtain rfl := List.mem_singleton.mp heq
    exact hslot ((h.used _).mpr hslot')
  · rw [List.map_append, List.sum_append, List.map_singleton, List.sum_singleton, ← h.total]
  · rw [List.map_append, List.map_singleton, ← h.credited]
  · rw [← h.parts_eq]
    exact hsupply
  · intro c hc o ho
    rcases List.mem_append.mp hc with hc | hc
    · exact h.frozen c hc o ho
    · obtain rfl := List.mem_singleton.mp hc
      exact hfrozen o ho (hproven o ho)

theorem Books.applyAll {s : State} {S : Set Bytes} {parts : StateRootParts}
    (h : Books s S parts r done)
    (hfrozen : ∀ r : RecoveryState, r.parts = parts → ∀ claim ∈ claims, ∀ o ∈ claim.outputs,
      r.Proven claim.recoveryKey o → Frozen S s o.commitment o.value) :
    Books s S parts (r.applyAll claims) (done ++ r.accepted claims) := by
  induction claims generalizing r done with
  | nil =>
    rw [accepted, List.append_nil]
    exact h
  | cons claim claims ih =>
    have hrest := fun r hr claim hmem => hfrozen r hr claim (List.mem_cons_of_mem _ hmem)
    rw [RecoveryState.applyAll, List.foldl_cons, accepted]
    cases hok : (r.apply claim).2 with
    | ok worth =>
      have hbooks := h.apply (hfrozen r h.parts_eq claim List.mem_cons_self) hok
      have htail := ih hbooks hrest
      rwa [List.append_assoc, List.singleton_append] at htail
    | error e =>
      rw [apply_error hok]
      exact ih h hrest

end RecoveryState

theorem Committed.supply_lt {batch : Batch} {s : State} (h : Committed batch s) :
    s.supply < 2 ^ 64 := by
  obtain ⟨t, -, ts, now, pre, skip, b, -, -, rfl⟩ := h
  have hle := b.body.no_overflow
  have hmax : u64Max = 2 ^ 64 - 1 := rfl
  show b.base.supply + b.subsidy < 2 ^ 64
  omega

theorem Committed.leaved {batch : Batch} {s : State} (h : Committed batch s) : Leaved s := by
  obtain ⟨t, ht, ts, now, pre, skip, b, -, -, rfl⟩ := h
  exact (b.base_leaved (leaved_of_reachable ht)).body b.body

theorem Committed.root {batch : Batch} {s : State} (h : Committed batch s) :
    batch.stateRoot = s.rootParts.root := by
  obtain ⟨t, -, ts, now, pre, skip, b, -, hroot, rfl⟩ := h
  exact hroot

theorem RecoveryState.activate_eq_ok {checkpoint : Checkpoint} {parts : StateRootParts}
    {gens : Generators} {r : RecoveryState} :
    RecoveryState.activate checkpoint parts gens = .ok r ↔
      parts.root = checkpoint.mwStateRoot ∧ r = ⟨checkpoint, parts, gens, ∅, [], 0, []⟩ := by
  rw [RecoveryState.activate, bind_eq_ok]
  simp only [bailIf_eq_ok, not_not, exists_const, Except.ok.injEq, ne_eq]
  rw [eq_comm (a := r)]

theorem RecoveryState.books_activated (s : State) (S : Set Bytes) (checkpoint : Checkpoint)
    (parts : StateRootParts) (gens : Generators) :
    RecoveryState.Books s S parts ⟨checkpoint, parts, gens, ∅, [], 0, []⟩ [] where
  parts_eq := rfl
  claimed c := by simp
  once := List.nodup_nil
  used slot := by simp
  slots := List.nodup_nil
  total := rfl
  credited := rfl
  capped := Nat.zero_le _
  frozen := nofun

omit [Primitives] in
theorem sum_worth (claims : List RecoveryClaim) :
    (claims.map RecoveryClaim.worth).sum =
      ((claims.flatMap RecoveryClaim.outputs).map ClaimedOutput.value).sum := by
  induction claims with
  | nil => rfl
  | cons claim claims ih =>
    rw [List.map_cons, List.sum_cons, ih, List.flatMap_cons, List.map_append, List.sum_append]
    rfl

/-- Recovery from a checkpoint of an accepted chain: whatever claims are tried, in any order, the
accepted ones pay each commitment once, on a slot of its own, the value its recovery commitment
fixes, to what is recorded in all, and no more than the checkpoint's supply. -/
theorem recovery_pays_once {batch : Batch} {s : State} {checkpoint : Checkpoint}
    {parts : StateRootParts} {gens : Generators} {r : RecoveryState} {S : Set Bytes}
    {claims : List RecoveryClaim} (hs : Committed batch s)
    (hcheckpoint : checkpoint.mwStateRoot = batch.stateRoot)
    (hstart : RecoveryState.activate checkpoint parts gens = .ok r)
    (hsupply : parts.supply < 2 ^ 64)
    (hfits : ∀ claim ∈ claims, ∀ o ∈ claim.outputs, o.value < 2 ^ 64)
    (hinj : Set.InjOn blake3 S) (hzero : ∀ x ∈ S, blake3 x ≠ 0)
    (hhashed : recoveryHashed s parts claims ⊆ S) :
    (r.applyAll claims).totalClaimed = ((r.applyAll claims).credited.map Prod.snd).sum ∧
    (r.applyAll claims).totalClaimed =
      (((r.accepted claims).flatMap RecoveryClaim.outputs).map ClaimedOutput.value).sum ∧
    (∀ o ∈ (r.accepted claims).flatMap RecoveryClaim.outputs,
      Frozen S s o.commitment o.value) ∧
    (r.applyAll claims).totalClaimed ≤ s.supply ∧
    (∀ c, c ∈ (r.applyAll claims).claimed ↔
      c ∈ (r.accepted claims).flatMap RecoveryClaim.commitments) ∧
    ((r.accepted claims).flatMap RecoveryClaim.commitments).Nodup ∧
    ((r.accepted claims).map RecoveryClaim.slot).Nodup ∧
    ∀ (q : RecoveryState) (claim : RecoveryClaim) (e : Err),
      (q.apply claim).2 = .error e → (q.apply claim).1 = q := by
  obtain ⟨hroot, rfl⟩ := RecoveryState.activate_eq_ok.mp hstart
  have hsame : parts.root = s.rootParts.root := (hroot.trans hcheckpoint).trans hs.root
  obtain ⟨hutxos, htotal⟩ := parts_inj hinj hsupply hs.supply_lt (hhashed (.inr (.inl rfl)))
    (hhashed (.inl rfl)) hsame
  have hbooks := (RecoveryState.books_activated s S checkpoint parts gens).applyAll
    fun r hparts claim hmem o ho hproven =>
      RecoveryState.frozen_of_proven hs.leaved hutxos hinj hzero hhashed hmem ho
        (hfits claim hmem o ho) hparts hproven
  rw [List.nil_append] at hbooks
  have hworth := sum_worth (RecoveryState.accepted ⟨checkpoint, parts, gens, ∅, [], 0, []⟩ claims)
  refine ⟨?_, hbooks.total.trans hworth, ?_, ?_, hbooks.claimed, hbooks.once, hbooks.slots,
    fun q claim e h => RecoveryState.apply_error h⟩
  · rw [hbooks.credited, hbooks.total, List.map_map]
    rfl
  · intro o ho
    obtain ⟨claim, hclaim, ho⟩ := List.mem_flatMap.mp ho
    exact hbooks.frozen claim hclaim o ho
  · exact hbooks.capped.trans_eq htotal

end

/-- A node's hash counts on from its greater child. -/
def claimedNode (left right : Bytes32) : Bytes32 :=
  if left.toNat ≤ right.toNat then right + 1 else left + 1

/-- Words whose hash tells a tree's nodes, a record, an opening and a state's parts apart. -/
@[reducible] def claimedPrimitives : Primitives :=
  { Primitives.words with
    blake3 := fun data =>
      if data.length = 65 then claimedNode (wordOf (data.drop 1)) (wordOf (data.drop 33))
      else if data.length = 193 then -2
      else if data.length = 327 then -1
      else racedPrimitives.blake3 data }

section
local instance claimedWords : Primitives := claimedPrimitives

theorem hash_claimed (x : Bytes32) : hash x.toBytes = x := by
  have hlen : x.toBytes.length = 32 := by simp [Bytes32.toBytes]
  have hword : hash x.toBytes = wordOf x.toBytes := by simp [hash, blake3, hlen]
  have hx := wordOf_toBytes x []
  rw [List.append_nil] at hx
  rw [hword, hx]

theorem createExtension_claimed (midstate : Bytes32) (nonce : Nat) :
    createExtension midstate nonce = ⟨nonce, wordOf (Bytes.le 8 nonce)⟩ := by
  have htimes (n : Nat) (x : Bytes32) : hashTimes n x = x := by
    induction n with
    | zero => rfl
    | succ n ih => rw [hashTimes, hash_claimed, ih]
  have hlen : (midstate.toBytes ++ Bytes.le 8 nonce).length = 40 := by simp [Bytes32.toBytes]
  have hdrop : (midstate.toBytes ++ Bytes.le 8 nonce).drop 32 = Bytes.le 8 nonce :=
    List.drop_left' (by simp [Bytes32.toBytes])
  have hword : hash (midstate.toBytes ++ Bytes.le 8 nonce) = wordOf (Bytes.le 8 nonce) := by
    simp [hash, blake3, hlen, hdrop]
  rw [createExtension, htimes, hword]

/-- The state after genesis, its hash worked out. -/
def claimedFirst : State :=
  { State.first with
    headerHash := 0
    chainMmr := State.genesis.chainMmr.append 0 true }

theorem claimedFirst_eq : claimedFirst = State.first := by
  have hhash : Batch.genesis.extension.finalHash = 0 := by
    show (createExtension _ _).finalHash = 0
    rw [createExtension_claimed]
    decide
  have hfirst := (genesisSteps []).next_eq
  rw [hhash] at hfirst
  rw [claimedFirst, State.first, hfirst]

/-- The first block's reward goes to an output of which a claim can be made. -/
def claimedOutput : Output :=
  { rushedOutput 1 (blockReward 1) with recoveryCommitment := -2 }

def claimedBlock : Batch :=
  { racedBlock claimedFirst 1 (genesisTimestamp + 1) with
    coinbase := some { rushedCoinbase 1 (blockReward 1) with
      outputs := ⟨[claimedOutput], List.replicate 672 0⟩ }
    stateRoot := -1 }

def claimedState : State :=
  (applyBatchInternal claimedFirst claimedBlock [genesisTimestamp] claimedBlock.timestamp (some 0)
    true).toOption.getD .genesis

def claimedEntry : UtxoEntry := utxoEntry 1 true claimedOutput

theorem claimed_applies :
    (applyBatchInternal claimedFirst claimedBlock [genesisTimestamp] claimedBlock.timestamp (some 0)
      true).isOk = true := by
  decide +kernel

theorem claimedState_holds :
    claimedState.utxos.toList = [(claimedOutput.commitment, claimedEntry)] ∧
      claimedState.utxoSet.coins.toList = [claimedOutput.commitment] ∧
        claimedState.supply = blockReward 1 := by
  decide +kernel

/-- The opening the block's payee reveals, with the siblings of a tree of one leaf. -/
def claimedOpening : ClaimedOutput where
  commitment := claimedOutput.commitment
  entry := claimedEntry
  value := blockReward 1
  blinding := 1
  salt := 0
  proof := ⟨0, 1, (List.range' 0 256).map fun h =>
    ⟨SparseTree.empty (fun left right => hashNode left right true) 0 h,
      !claimedOutput.commitment.getLsbD h⟩⟩

def coinClaim (checkpointId : Bytes32) : RecoveryClaim :=
  ⟨checkpointId, 0, [claimedOpening], 7, ⟨0, 0, List.replicate 18 0, []⟩⟩

theorem utxoLeaf_claimed : utxoLeaf claimedOutput.commitment claimedEntry = claimedOutput.commitment := by
  decide +kernel

theorem coinClaim_signed (message : Bytes32) :
    (MssSignature.mk 0 0 (List.replicate 18 0) []).verify message 0 = true := by
  have hiter (n : Nat) (x : Bytes32) : (fun y => hash (Bytes32.toBytes y))^[n] x = x :=
    Function.iterate_fixed (hash_claimed x) n
  have hends : List.zipWith (fun x d => (fun y => hash (Bytes32.toBytes y))^[65535 - d] x)
      (List.replicate 18 0) (wotsDigits message) = List.replicate 18 0 := by
    simp only [hiter]
    rfl
  have hpk : hash ((List.replicate 18 (0 : Bytes32)).flatMap Bytes32.toBytes) = 0 := by
    decide +kernel
  have hwots : wotsVerify (List.replicate 18 0) message 0 = true := by
    rw [wotsVerify, hends, hpk]
    rfl
  rw [MssSignature.verify, hwots]
  rfl

theorem blake3_nodePreimage (p : Bytes32 × Bytes32) :
    blake3 (nodePreimage p) = claimedNode p.1 p.2 := by
  have hlen : (nodePreimage p).length = 65 := by simp [nodePreimage, Bytes32.toBytes]
  have hnode : blake3 (nodePreimage p) =
      claimedNode (wordOf ((nodePreimage p).drop 1)) (wordOf ((nodePreimage p).drop 33)) :=
    if_pos hlen
  have hsecond : ((nodeTag :: p.1.toBytes) ++ p.2.toBytes).drop 33 = p.2.toBytes :=
    List.drop_left' (by simp [Bytes32.toBytes])
  have hx := wordOf_toBytes p.2 []
  rw [List.append_nil] at hx
  rw [hnode, nodePreimage, List.singleton_append, hsecond, hx, List.cons_append,
    List.drop_succ_cons, List.drop_zero, wordOf_toBytes]

theorem hashNode_claimed : (fun left right => hashNode left right true) = claimedNode :=
  funext fun left => funext fun right => blake3_nodePreimage (left, right)

/-- Everything hashed to check the claim, by what it hashes to. -/
def claimedPreimages (parts : StateRootParts) : List Bytes :=
  leafPreimage claimedOutput.commitment claimedEntry ::
    ((SparseTree.lonePairs claimedNode id 0 claimedOutput.commitment).map nodePreimage ++
      [openingPreimage 0 (blockReward 1) 1 0, partsPreimage parts])

def claimedHashes : List Bytes32 :=
  (SparseTree.lonePairs claimedNode id 0 claimedOutput.commitment).map
    (fun p => claimedNode p.1 p.2) ++ [-2, -1]

instance claimedHashes_apart :
    Fact (claimedHashes.IsChain (fun a b => a.toNat < b.toNat) ∧
      claimedOutput.commitment ∉ claimedHashes ∧
        0 ∉ claimedOutput.commitment :: claimedHashes) where
  out := by decide +kernel

theorem blake3_partsPreimage (p : StateRootParts) : blake3 (partsPreimage p) = -1 := by
  have hlen : (partsPreimage p).length = 327 := by
    simp [partsPreimage, domainPreimage, Bytes.prefixedAll, Bytes.prefixed, Bytes.ascii,
      Bytes32.toBytes]
  have hblake : blake3 (partsPreimage p) = if (partsPreimage p).length = 65 then _ else
    if (partsPreimage p).length = 193 then _ else if (partsPreimage p).length = 327 then -1 else _ :=
      rfl
  rw [hblake, hlen]
  rfl

theorem map_claimedPreimages (parts : StateRootParts) :
    (claimedPreimages parts).map blake3 = claimedOutput.commitment :: claimedHashes := by
  have hleaf : blake3 (leafPreimage claimedOutput.commitment claimedEntry) =
    claimedOutput.commitment := utxoLeaf_claimed
  have hopening : blake3 (openingPreimage 0 (blockReward 1) 1 0) = -2 := by decide +kernel
  simp only [claimedPreimages, claimedHashes, List.map_cons, List.map_append, List.map_map,
    List.map_nil, hleaf, hopening, blake3_partsPreimage, Function.comp_def, blake3_nodePreimage]

theorem claimedPreimages_inj (parts : StateRootParts) :
    Set.InjOn blake3 {x | x ∈ claimedPreimages parts} := by
  obtain ⟨hchain, hleaf, -⟩ := claimedHashes_apart.out
  have hordered : claimedHashes.Pairwise (fun a b => a.toNat < b.toNat) :=
    List.isChain_iff_pairwise.mp hchain
  have hnodup : ((claimedPreimages parts).map blake3).Nodup := by
    rw [map_claimedPreimages]
    refine List.nodup_cons.mpr ⟨hleaf, hordered.imp ?_⟩
    rintro a b hlt rfl
    exact Nat.lt_irrefl _ hlt
  exact fun x hx y hy h => List.inj_on_of_nodup_map hnodup hx hy h

theorem claimedPreimages_ne_zero (parts : StateRootParts) :
    ∀ x ∈ {x | x ∈ claimedPreimages parts}, blake3 x ≠ 0 := by
  intro x hx hzero
  have hmem : blake3 x ∈ (claimedPreimages parts).map blake3 := List.mem_map_of_mem hx
  rw [map_claimedPreimages, hzero] at hmem
  exact claimedHashes_apart.out.2.2 hmem

/-- The block leaves one coin. -/
structure OneCoin (s : State) : Prop where
  utxos : ∀ (c : Point32) (e : UtxoEntry), s.utxos[c]? = some e →
    c = claimedOutput.commitment ∧ e = claimedEntry
  leaves : s.utxoSet.coins.toList = [claimedOutput.commitment]
  supply : s.supply = blockReward 1

theorem hashed_claimed {s : State} {claims : List RecoveryClaim} (hs : OneCoin s)
    (hclaims : ∀ claim ∈ claims, ∃ checkpointId, claim = coinClaim checkpointId) :
    recoveryHashed s s.rootParts claims ⊆ {x | x ∈ claimedPreimages s.rootParts} := by
  have hset : {leaf | leaf ∈ s.utxoSet.coins} = {claimedOutput.commitment} := by
    ext leaf
    rw [Set.mem_ofPred_eq, ← Std.ExtTreeSet.mem_toList, hs.leaves, List.mem_singleton]
    rfl
  have hnode {p : Bytes32 × Bytes32}
      (hp : p ∈ SparseTree.lonePairs claimedNode id 0 claimedOutput.commitment) :
      nodePreimage p ∈ claimedPreimages s.rootParts :=
    List.mem_cons_of_mem _ (List.mem_append_left _ (List.mem_map_of_mem hp))
  have hparts : partsPreimage s.rootParts ∈ claimedPreimages s.rootParts := by
    simp [claimedPreimages]
  rintro x (rfl | rfl | ⟨c, e, he, rfl⟩ | ⟨p, hp, rfl⟩ | ⟨claim, hclaim, o, ho, hx⟩)
  · exact hparts
  · exact hparts
  · obtain ⟨rfl, rfl⟩ := hs.utxos c e he
    exact List.mem_cons_self
  · rw [hset, hashedPairs, hashNode_claimed] at hp
    exact hnode (SparseTree.pairs_singleton _ hp)
  · obtain ⟨checkpointId, rfl⟩ := hclaims claim hclaim
    obtain rfl := List.mem_singleton.mp ho
    rcases hx with rfl | rfl | ⟨p, hp, rfl⟩
    · exact List.mem_cons_self
    · exact List.mem_cons_of_mem _ (List.mem_append_right _ List.mem_cons_self)
    · have hleaf : utxoLeaf claimedOpening.commitment claimedOpening.entry =
          claimedOutput.commitment := utxoLeaf_claimed
      have hsiblings : claimedOpening.proof.siblings.map (·.hash) =
          (List.range' 0 256).map (SparseTree.empty claimedNode 0) := by
        rw [← hashNode_claimed]
        exact List.map_map
      rw [verifiedPairs, hleaf, hsiblings, hashNode_claimed] at hp
      exact hnode (List.mem_append_right _ hp)

theorem claimed_proven {s : State} (hs : OneCoin s) :
    verifyUtxoProof (utxoLeaf claimedOutput.commitment claimedEntry) claimedOpening.proof
      (s.utxoSet.root true) true = true := by
  have hroot : s.utxoSet.root true =
      SparseTree.value (fun left right => hashNode left right true) id 0
        {claimedOutput.commitment} 256 claimedOutput.commitment := by
    rw [UtxoAccumulator.root, computeSparseSubtree_eq (Nat.le_refl 256) (sorted_toList _)
      fun c _ => SparseTree.agrees_width c claimedOutput.commitment, hs.leaves]
    simp [subtree]
  rw [verifyUtxoProof, decide_eq_true_eq, utxoLeaf_claimed, hroot, ← SparseTree.climb_singleton]
  refine ⟨by simp [claimedOpening], ?_⟩
  exact climb_sided true _ _ _

theorem coinClaim_checks {s : State} (hs : OneCoin s) (checkpoint : Checkpoint) :
    RecoveryState.check ⟨checkpoint, s.rootParts, .standard, ∅, [], 0, []⟩
      (coinClaim checkpoint.id) = .ok (blockReward 1, blockReward 1) := by
  have hproven := claimed_proven hs
  have hcommitment : claimedEntry.recoveryCommitment =
      recoveryCommitment 0 (blockReward 1) claimedOpening.blinding 0 := by decide +kernel
  have hopens : Generators.standard.commit (blockReward 1) claimedOpening.blinding =
      claimedOutput.commitment := by decide +kernel
  have hfits : checkedAdd64 0 (blockReward 1) = some (blockReward 1) := by decide +kernel
  have houtput : RecoveryState.checkOutput ⟨checkpoint, s.rootParts, .standard, ∅, [], 0, []⟩ 0
      ([], 0) claimedOpening = .ok ([claimedOutput.commitment], blockReward 1) := by
    simp only [RecoveryState.checkOutput, bind_eq_ok, bailIf_eq_ok, orBail_eq_ok, not_or,
      Bool.not_eq_true', Bool.not_eq_false, ne_eq, not_not]
    exact ⟨(), ⟨List.not_mem_nil, Std.ExtTreeSet.not_mem_empty⟩, (), hproven, (), hcommitment, _, rfl,
      (), hopens, _, hfits, rfl⟩
  have hcap : ¬ blockReward 1 > s.rootParts.supply := Nat.not_lt.mpr hs.supply.ge
  simp only [RecoveryState.check, bind_eq_ok, bailIf_eq_ok, orBail_eq_ok, Bool.not_eq_true',
    Bool.not_eq_false, ne_eq, not_not, Prod.exists]
  exact ⟨(), rfl, (), Bool.false_ne_true, (), List.not_mem_nil, _, _,
    foldlM_cons_eq_ok.mpr ⟨_, houtput, rfl⟩, _, hfits, (), hcap, (), coinClaim_signed _, rfl⟩

theorem claimedState_committed :
    ∃ s, Committed claimedBlock s ∧ OneCoin s := by
  have hok : applyBatchInternal claimedFirst claimedBlock [genesisTimestamp]
      claimedBlock.timestamp (some 0) true = .ok claimedState := by
    have happlies := claimed_applies
    rw [claimedState]
    cases hs : applyBatchInternal claimedFirst claimedBlock [genesisTimestamp]
        claimedBlock.timestamp (some 0) true with
    | ok s => rfl
    | error e =>
      rw [hs] at happlies
      cases happlies
  have hreachable : Reachable claimedFirst := by
    rw [claimedFirst_eq]
    exact ⟨_, .block .start ⟨[], 0, none, false, genesis_accepted 0⟩⟩
  obtain ⟨-, -, b, hroot, hnext⟩ := applyBatchInternal_eq_ok.mp hok
  obtain ⟨hutxos, hleaves, hsupply⟩ := claimedState_holds
  rw [← hnext] at hutxos hleaves hsupply
  refine ⟨b.rooted, ⟨claimedFirst, hreachable, _, _, _, _, b, hnext ▸ hok, hroot, rfl⟩, ?_, hleaves,
    hsupply⟩
  intro c e he
  have hmem := Std.ExtTreeMap.mem_toList_iff_getElem?_eq_some.mpr he
  rw [show b.rooted.utxos = b.next.utxos from rfl, hutxos] at hmem
  exact Prod.mk.inj (List.mem_singleton.mp hmem)

/-- A claim of the coin for another checkpoint, one for this, and the same once more. -/
def coinClaims (checkpoint : Checkpoint) : List RecoveryClaim :=
  [coinClaim (checkpoint.id + 1), coinClaim checkpoint.id, coinClaim checkpoint.id]

theorem RecoveryState.apply_of_other {r : RecoveryState} {claim : RecoveryClaim}
    (h : claim.checkpointId ≠ r.checkpoint.id) :
    r.apply claim = (r, .error "claim is for a different checkpoint") := by
  rw [apply, check, bailIf_pos h]
  rfl

theorem RecoveryState.accepted_once {r : RecoveryState} {other claim : RecoveryClaim}
    {worth total : Nat} (hother : other.checkpointId ≠ r.checkpoint.id)
    (hcheck : r.check claim = .ok (worth, total)) : r.accepted [other, claim, claim] = [claim] := by
  have happly : (r.apply claim).2 = .ok worth := by rw [apply, hcheck]
  have hused : claim.slot ∈ (r.apply claim).1.usedLeaves := by
    rw [(apply_eq_ok happly).2.2.2.2.2]
    exact List.mem_cons_self
  rw [accepted, apply_of_other hother]
  dsimp only
  rw [accepted, happly]
  dsimp only
  rw [accepted]
  cases hok : ((r.apply claim).1.apply claim).2 with
  | ok worth' => exact absurd hused (apply_eq_ok hok).2.2.1
  | error e => rfl

theorem coinClaims_accepted {s : State} (hs : OneCoin s) (checkpoint : Checkpoint) :
    RecoveryState.accepted ⟨checkpoint, s.rootParts, .standard, ∅, [], 0, []⟩
      (coinClaims checkpoint) = [coinClaim checkpoint.id] := by
  have hother : (coinClaim (checkpoint.id + 1)).checkpointId ≠ checkpoint.id := by
    intro h
    have hone : (1 : Bytes32) = 0 := by
      rw [coinClaim] at h
      simp at h
    exact absurd hone (by decide)
  exact RecoveryState.accepted_once hother (coinClaim_checks hs checkpoint)

theorem recovery_pays_once_coin :
    ∃ s, Committed claimedBlock s ∧
      let checkpoint : Checkpoint := ⟨1, 0, 2, 0, s.stateRoot, 0, 0⟩
      let r : RecoveryState := ⟨checkpoint, s.rootParts, .standard, ∅, [], 0, []⟩
      r.accepted (coinClaims checkpoint) = [coinClaim checkpoint.id] ∧
        (r.applyAll (coinClaims checkpoint)).totalClaimed = blockReward 1 ∧
          blockReward 1 ≤ s.supply := by
  obtain ⟨s, hs, hcoin⟩ := claimedState_committed
  refine ⟨s, hs, ?_⟩
  intro checkpoint r
  have haccepted : r.accepted (coinClaims checkpoint) = [coinClaim checkpoint.id] :=
    coinClaims_accepted hcoin checkpoint
  have hall : ∀ claim ∈ coinClaims checkpoint, ∃ checkpointId, claim = coinClaim checkpointId := by
    simp [coinClaims]
  have hsupply : s.rootParts.supply < 2 ^ 64 := hs.supply_lt
  have hroot : checkpoint.mwStateRoot = claimedBlock.stateRoot := hs.root.symm
  have hstart : RecoveryState.activate checkpoint s.rootParts .standard = .ok r :=
    RecoveryState.activate_eq_ok.mpr ⟨rfl, rfl⟩
  have hfits : ∀ claim ∈ coinClaims checkpoint, ∀ o ∈ claim.outputs, o.value < 2 ^ 64 := by
    intro claim hclaim o ho
    obtain ⟨checkpointId, rfl⟩ := hall claim hclaim
    obtain rfl := List.mem_singleton.mp ho
    decide +kernel
  have hpays := recovery_pays_once hs hroot hstart hsupply hfits
    (claimedPreimages_inj s.rootParts) (claimedPreimages_ne_zero s.rootParts)
    (hashed_claimed hcoin hall)
  obtain ⟨-, htotal, -, hcapped, -⟩ := hpays
  have hvalues (checkpointId : Bytes32) :
      ([coinClaim checkpointId].flatMap RecoveryClaim.outputs).map ClaimedOutput.value =
        [blockReward 1] := rfl
  rw [haccepted, hvalues, List.sum_singleton] at htotal
  have hworth : (r.applyAll (coinClaims checkpoint)).totalClaimed = blockReward 1 := htotal
  rw [hworth] at hcapped
  exact ⟨haccepted, hworth, hcapped⟩

end
end Midwimble
