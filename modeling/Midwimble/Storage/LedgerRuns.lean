import Midwimble.Storage.Undo

namespace Midwimble
open Fallible OrderedMap
set_option autoImplicit true

variable [Primitives]

theorem addExcess_of_sums {ks : List Kernel} (h : ks.foldlM addKernel acc = .ok acc') :
    ks.foldlM StateMeta.addExcess acc.2 = .ok acc'.2 := by
  induction ks generalizing acc with
  | nil =>
    rw [List.foldlM_nil, pure_eq_ok] at h
    rw [h]
    rfl
  | cons k ks ih =>
    obtain ⟨mid, hk, hrest⟩ := foldlM_cons_eq_ok.mp h
    obtain ⟨-, e, he, rfl⟩ := addKernel_eq_ok.mp hk
    rw [foldlM_cons_eq_ok]
    refine ⟨acc.2 + e, ?_, ih hrest⟩
    rw [StateMeta.addExcess, he, orBail_some, bind_ok]

theorem BlockSteps.unminted {s : State} {batch : Batch} {ts : List Nat}
    (b : BlockSteps s batch ts skip) (hcb : batch.coinbase = none) : b.subsidy = 0 := by
  obtain ⟨-, -, -, fees, -, -, hpays⟩ := validateBlockContents_eq_ok.mp b.contents
  cases hpays with
  | genesis hheight _ _ =>
    have hle := subsidyFor_le batch.signer b.credit.signers.counts b.bonds s.height
      batch.timestamp
    rw [← b.minted, hheight] at hle
    exact Nat.le_zero.mp hle
  | coinbase cb _ hsome _ =>
    rw [hcb] at hsome
    cases hsome
  | nothing _ _ hnothing =>
    rw [validateWithoutCoinbase, check_bind_eq_ok, bailIf_eq_ok] at hnothing
    have hzero := hnothing.1
    omega

theorem BlockSteps.advance_eq {s : State} {batch : Batch} {ts : List Nat}
    (b : BlockSteps s batch ts skip) :
    (StateMeta.of s).advance batch b.subsidy = .ok (.of b.next) := by
  have hreward : (if batch.coinbase.isSome then b.subsidy else 0) = b.subsidy := by
    cases hcb : batch.coinbase with
    | none => exact (b.unminted hcb).symm
    | some cb => rfl
  have hbefore : decompress s.kernelExcessSum = some b.body.excessBefore := by
    rw [← b.base_kernelExcessSum]
    exact b.body.excess_before
  have htotal : scalarFromBytes s.totalKernelOffset = some b.body.total := by
    rw [← b.base_totalKernelOffset]
    exact b.body.total_before
  have hsupply : checkedAdd64 s.supply b.subsidy = some (s.supply + b.subsidy) := by
    have hfits := b.body.no_overflow
    rw [b.base_supply] at hfits
    exact checkedAdd64_eq_some.mpr ⟨hfits, rfl⟩
  simp only [StateMeta.advance, StateMeta.of, hreward, hbefore, orBail_some, bind_ok,
    addExcess_of_sums b.body.sums, htotal, b.body.offset_of_body, hsupply, b.next_eq]

namespace Ledger

/-- The tables of a database without blocks. -/
def root : Ledger where
  utxos := ∅
  kernels := ∅
  groups := ∅
  members := ∅
  bonds := ∅
  relay := (∅ : Std.ExtTreeMap Nat RelayEntry).insert RelayEntry.root.height .root

/-- The tables that writing a chain's blocks one after another leaves. -/
inductive Of : List Batch → Ledger → Prop where
  | root : Of [] root
  | block : Of chain l → Built chain s → Built (chain ++ [batch]) s' →
      l.applyBlock chain.length (.of s) batch s'.effects = .ok (l', u) →
        Of (chain ++ [batch]) l'

theorem Of.last (h : Of (chain ++ [batch]) l') : ∃ l s s' u, Of chain l ∧ Built chain s ∧
    Built (chain ++ [batch]) s' ∧
      l.applyBlock chain.length (.of s) batch s'.effects = .ok (l', u) := by
  generalize hl : chain ++ [batch] = blocks at h
  cases h with
  | root => simp at hl
  | block hof hb hb' happly =>
    obtain ⟨rfl, he⟩ := List.append_inj' hl rfl
    obtain rfl : batch = _ := List.singleton_inj.mp he
    exact ⟨_, _, _, _, hof, hb, hb', happly⟩

theorem Of.unique (h : Of chain l) (h' : Of chain l') : l = l' := by
  induction h generalizing l' with
  | root =>
    generalize hl : ([] : List Batch) = blocks at h'
    cases h' with
    | root => rfl
    | block _ _ _ _ => simp at hl
  | block hof hb hb' happly ih =>
    obtain ⟨t, s, s', u, ht, hs, hs', happly'⟩ := h'.last
    obtain rfl := ih ht
    obtain rfl := hb.unique hs
    obtain rfl := hb'.unique hs'
    rw [happly, Except.ok.injEq, Prod.mk.injEq] at happly'
    exact happly'.1

theorem tells_root : root.Tells .genesis where
  utxos := rfl
  kernels id := by
    constructor
    · intro h
      exact absurd h Std.ExtTreeMap.not_mem_empty
    · intro h
      exact absurd h Std.ExtTreeSet.not_mem_empty
  kernel_id id k hk := by
    rw [root, Std.ExtTreeMap.getElem?_empty] at hk
    cases hk
  bonds := rfl
  relay := rfl

theorem covers_root : root.Covers [] := by
  have hnone : ∀ (gid : Bytes32) (g : StoredGroup), root.groups[gid]? ≠ some g := by
    intro gid g hg
    rw [root, Std.ExtTreeMap.getElem?_empty] at hg
    cases hg
  refine ⟨⟨?_, ?_, ?_, ?_, ?_⟩, ?_⟩
  · intro c gid i hc
    rw [root, Std.ExtTreeMap.getElem?_empty] at hc
    cases hc
  · exact fun gid g i o hg => absurd hg (hnone gid g)
  · exact fun gid g hg => absurd hg (hnone gid g)
  · exact fun c => Iff.rfl
  · exact fun gid g i o e hg => absurd hg (hnone gid g)
  · exact fun gid g hg => absurd hg (hnone gid g)

end Ledger

theorem Built.structures (h : Built chain s) :
    ∀ c ∈ chain, ∀ p ∈ blockGroups c, p.1.checkStructure = .ok () := by
  induction h with
  | genesis => exact fun c hc => absurd hc List.not_mem_nil
  | block _ ha ih =>
    obtain ⟨-, -, b, -, rfl⟩ := applyBatchInternal_eq_ok.mp ha
    intro c hc
    rcases List.mem_append.mp hc with hc | hc
    · exact ih c hc
    · obtain rfl := List.mem_singleton.mp hc
      exact b.structures

section Ledgers

variable {S : Set Batch} {chain : List Batch} {batch : Batch} {s s' : State} {l : Ledger}

/-- What holds of a chain's tables and its state. -/
structure Ledger.Stands (l : Ledger) (chain : List Batch) (s : State) : Prop where
  of : Ledger.Of chain l
  tells : l.Tells s
  covers : l.Covers chain
  relayed : Relayed s

/-- A block's record takes the tables back to what they were below it. -/
structure BlockUndo.Reverts (u : BlockUndo) (l' l : Ledger) (s : State) : Prop where
  ledger : l'.revertBlock u = l
  prev : u.prev = .of s

theorem Ledger.Stands.block (h : l.Stands chain s) (ha : StoredApart S)
    (hsub : ∀ c ∈ chain ++ [batch], c ∈ S) (hb : Built chain s)
    (hb' : Built (chain ++ [batch]) s') :
    ∃ l' u, l.applyBlock chain.length (.of s) batch s'.effects = .ok (l', u) ∧
      l'.Stands (chain ++ [batch]) s' ∧ u.Reverts l' l s ∧ u.Logs s batch s' := by
  obtain ⟨t, ht, now, pre, skip, hok⟩ := hb'.last
  obtain rfl := ht.unique hb
  have hturns := turns_of_accepts ⟨_, _, _, _, hok⟩
  obtain ⟨-, -, b, -, rfl⟩ := applyBatchInternal_eq_ok.mp hok
  have hmem : batch ∈ chain ++ [batch] := List.mem_append_right _ (List.mem_singleton_self _)
  obtain ⟨l', u, happly, htells, hcovers, hrevert, hprev, hlogs⟩ := h.tells.block h.covers
    h.relayed ha hsub hb'.structures b hturns hb.height (.of t)
  refine ⟨l', u, happly, ⟨h.of.block hb hb' happly, htells, hcovers, ?_⟩, ⟨hrevert, hprev⟩, hlogs⟩
  exact (b.relay_changes h.relayed (ha.links _ (hsub _ hmem))).1

theorem Built.ledger (ha : StoredApart S) (h : Built chain s) (hsub : ∀ c ∈ chain, c ∈ S) :
    ∃ l : Ledger, l.Stands chain s := by
  induction h with
  | genesis =>
    exact ⟨.root, .root, Ledger.tells_root, Ledger.covers_root, relayed_genesis⟩
  | @block blocks s batch now pre skip s' hb hok ih =>
    obtain ⟨l, hl⟩ := ih fun c hc => hsub c (List.mem_append_left _ hc)
    obtain ⟨l', u, -, hstands, -⟩ := hl.block ha hsub hb (hb.block hok)
    exact ⟨l', hstands⟩

theorem Ledger.Of.stands (h : Ledger.Of chain l) (ha : StoredApart S) (hb : Built chain s)
    (hsub : ∀ c ∈ chain, c ∈ S) : l.Stands chain s := by
  obtain ⟨l', hl'⟩ := hb.ledger ha hsub
  obtain rfl := h.unique hl'.of
  exact hl'

end Ledgers

end Midwimble
