import Midwimble.Lib.Leaves
import Midwimble.Merkle.Range
import Midwimble.Storage.Histories

namespace Midwimble
open Fallible OrderedMap
set_option autoImplicit true

variable [Primitives]

/-- What a UTXO record's leaf is the hash of. -/
def recordPreimage (p : Point32 × UtxoEntry) : Bytes :=
  domainPreimage (Bytes.ascii "midwimble.utxo-leaf.v1")
    [p.1.toBytes, p.2.outputHash.toBytes, p.2.ownerKey.toBytes, p.2.recoveryCommitment.toBytes,
      Bytes.le 8 p.2.height, [if p.2.coinbase then 1 else 0]]

/-- The UTXO records that chains of some blocks hold. -/
def chainRecords (S : Set Batch) : Set (Point32 × UtxoEntry) :=
  {p | ∃ chain s, (∀ c ∈ chain, c ∈ S) ∧ Built chain s ∧ s.utxos[p.1]? = some p.2}

/-- BLAKE3 does not collide on the leaves of these records, whose heights are 64-bit. -/
structure RecordsApart (met : Set (Point32 × UtxoEntry)) : Prop where
  height : ∀ p ∈ met, p.2.height < 2 ^ 64
  inj : Set.InjOn blake3 {x | ∃ p ∈ met, x = recordPreimage p}

theorem RecordsApart.leaf_inj {met : Set (Point32 × UtxoEntry)} (h : RecordsApart met) :
    Set.InjOn (fun p => utxoLeaf p.1 p.2) met := by
  intro p hp q hq he
  have hpre : recordPreimage p = recordPreimage q := h.inj ⟨p, hp, rfl⟩ ⟨q, hq, rfl⟩ he
  obtain ⟨-, hparts⟩ := domainPreimage_inj (by simp; decide) (by simp; decide) hpre
  simp only [List.cons.injEq] at hparts
  obtain ⟨hcommitment, hhash, howner, hrecovery, hheight, hcoinbase, -⟩ := hparts
  obtain ⟨c, hash, owner, recovery, height, coinbase⟩ := p
  obtain ⟨c', hash', owner', recovery', height', coinbase'⟩ := q
  have hh := Bytes.le_inj (h.height _ hp) (h.height _ hq) hheight
  cases toBytes_inj hcommitment
  cases toBytes_inj hhash
  cases toBytes_inj howner
  cases toBytes_inj hrecovery
  cases hh
  obtain rfl : coinbase = coinbase' := by
    cases coinbase <;> cases coinbase' <;> simp_all
  rfl

/-- The UTXO accumulator of a state holds exactly its records' leaves. -/
def State.Leafed (s : State) : Prop :=
  LeavesOf (fun p => utxoLeaf p.1 p.2) s.utxos s.utxoSet.coins

section Leaves

variable {met : Set (Point32 × UtxoEntry)} {s s' : State} {height : Nat} {isCoinbase : Bool}

omit [Primitives] in
theorem coins_insert (a : UtxoAccumulator) (coin : Bytes32) :
    (a.insert coin).2.coins = a.coins.insert coin := by
  rw [UtxoAccumulator.insert]
  split
  · rename_i hin
    apply Std.ExtTreeSet.ext_mem
    intro x
    rw [Std.ExtTreeSet.mem_insert, Std.LawfulEqOrd.compare_eq_iff_eq]
    refine ⟨.inr, ?_⟩
    rintro (rfl | hx)
    · exact Std.ExtTreeSet.mem_iff_contains.mpr hin
    · exact hx
  · rfl

theorem State.Leafed.spend {input : Input} (h : s.Leafed) (ha : RecordsApart met)
    (hw : Within s.utxos met) (hs : spendInput height s input = .ok s') :
    s'.Leafed ∧ Within s'.utxos met := by
  obtain ⟨entry, he, -, -, rfl⟩ := spendInput_eq_ok.mp hs
  exact ⟨LeavesOf.erase h ha.leaf_inj hw he, hw.erase _⟩

theorem State.Leafed.add {output : Output} (h : s.Leafed)
    (ho : addOutput height isCoinbase s output = .ok s') : s'.Leafed := by
  obtain ⟨hnew, rfl⟩ := addOutput_eq_ok.mp ho
  have hnone : s.utxos[output.commitment]? = none := by
    cases hc : s.utxos[output.commitment]? with
    | none => rfl
    | some e => exact absurd (mem_iff_exists.mpr ⟨e, hc⟩) hnew
  have hinsert := LeavesOf.insert (v := utxoEntry height isCoinbase output) h hnone
  unfold State.Leafed
  rwa [coins_insert]

theorem BlockSteps.leafed {batch : Batch} {ts : List Nat} {skip : Bool}
    (b : BlockSteps s batch ts skip) (h : s.Leafed) (ha : RecordsApart met)
    (hw : Within s.utxos met) : b.next.Leafed := by
  have hbase : b.base.Leafed ∧ Within b.base.utxos met := by
    rw [b.base_eq]
    exact ⟨h, hw⟩
  have hspent : b.body.spent.Leafed ∧ Within b.body.spent.utxos met :=
    foldlM_invariant (fun t => t.Leafed ∧ Within t.utxos met)
      (fun _ _ _ ht hs => ht.1.spend ha ht.2 hs) hbase b.body.spends
  have hpaid : b.body.paid.Leafed :=
    foldlM_invariant State.Leafed (fun _ _ _ ht ho => ht.add ho) hspent.1 b.body.pays
  have hrewarded : b.body.rewarded.Leafed :=
    foldlM_invariant State.Leafed (fun _ _ _ ht ho => ht.add ho) hpaid b.body.rewards
  rw [b.next_eq]
  exact hrewarded

end Leaves

section Chains

variable {S : Set Batch} {chain : List Batch} {s : State}

theorem Built.within (h : Built chain s) (hsub : ∀ c ∈ chain, c ∈ S) :
    Within s.utxos (chainRecords S) :=
  fun _ _ he => ⟨chain, s, hsub, h, he⟩

theorem Built.leafed (h : Built chain s) (ha : RecordsApart (chainRecords S))
    (hsub : ∀ c ∈ chain, c ∈ S) : s.Leafed := by
  induction h with
  | genesis => exact leavesOf_empty _
  | @block blocks s batch now pre skip s' hb hok ih =>
    have hbelow : ∀ c ∈ blocks, c ∈ S := fun c hc => hsub c (List.mem_append_left _ hc)
    obtain ⟨-, -, b, -, rfl⟩ := applyBatchInternal_eq_ok.mp hok
    exact b.leafed (ih hbelow) ha (hb.within hbelow)

/-- The MMR over a chain's block hashes. -/
def mmrOf (chain : List Batch) : MerkleMountainRange :=
  MerkleMountainRange.new.appendAll true (chain.map fun b => b.extension.finalHash)

theorem mmrOf_append (chain : List Batch) (batch : Batch) :
    mmrOf (chain ++ [batch]) = (mmrOf chain).append batch.extension.finalHash true := by
  unfold mmrOf MerkleMountainRange.appendAll
  rw [List.map_append, List.foldl_append]
  rfl

theorem Built.chainMmr (h : Built chain s) : s.chainMmr = mmrOf chain := by
  induction h with
  | genesis => rfl
  | block _ hok ih =>
    obtain ⟨-, -, b, -, rfl⟩ := applyBatchInternal_eq_ok.mp hok
    rw [b.next_eq, mmrOf_append, ih]

theorem mmrOf_truncated (hlen : chain.length < 2 ^ 63) (n : Nat) :
    (mmrOf chain).truncated n = mmrOf (chain.take n) := by
  have hfits : MerkleMountainRange.new.leafCount +
      (chain.map fun b => b.extension.finalHash).length < 2 ^ 63 := by
    rw [List.length_map]
    exact (Nat.zero_add _).trans_lt hlen
  have hcut : (MerkleMountainRange.new.appendAll true
      (chain.map fun b => b.extension.finalHash)).truncated n = _ :=
    crested_new.truncated_appendAll (Nat.zero_le n) hfits
  rw [mmrOf, hcut, mmrOf, List.map_take]
  rfl

end Chains

end Midwimble
