import Midwimble.Storage.LedgerBlocks

namespace Midwimble
open Fallible OrderedMap
set_option autoImplicit true

variable [Primitives]

/-- A ledger holds what a state does. -/
structure Ledger.Tells (l : Ledger) (s : State) : Prop where
  utxos : l.utxos = s.utxos
  kernels : ∀ id, id ∈ l.kernels ↔ id ∈ s.kernels.coins
  kernel_id : ∀ (id : Bytes32) k, l.kernels[id]? = some k → k.id = id
  bonds : l.bonds = s.bonds.entries
  relay : l.relay = s.relay.entries

/-- An undo record as the block between two states leaves it. -/
structure BlockUndo.Logs (u : BlockUndo) (s : State) (batch : Batch) (s' : State) : Prop where
  created : u.created = batch.created.map fun o => o.1.commitment
  spent_keys : u.spent.map Prod.fst = batch.body.inputCommitments
  spent : ∀ p ∈ u.spent, s.utxos[p.1]? = some p.2
  kernels : u.kernels = (blockKernels batch.body batch.coinbase).map Kernel.id
  effects : u.effects = s'.effects

section Block

variable {l : Ledger} {s s' : State} {batch : Batch} {chain : List Batch} {S : Set Batch}
  {ts : List Nat} {skip : Bool} {height : Nat} {prev : StateMeta}

theorem utxos_insertAll {spent : Std.ExtTreeMap Point32 UtxoEntry} (hturns : Turns s batch s')
    (hspent : ∀ c : Point32, spent[c]? = if c ∈ batch.body.inputCommitments then none
      else s.utxos[c]?) :
    insertAll spent (createdRecords s.height batch) = s'.utxos := by
  apply Std.ExtTreeMap.ext_getElem?
  intro c
  by_cases hc : c ∈ (createdRecords s.height batch).map Prod.fst
  · obtain ⟨⟨_, e⟩, he, rfl⟩ := List.mem_map.mp hc
    have hnodup : ((createdRecords s.height batch).map Prod.fst).Nodup := by
      rw [keys_createdRecords]
      exact hturns.distinct
    rw [getElem?_insertAll_of_nodup hnodup he]
    rw [createdRecords_eq] at he
    obtain ⟨o, ho, heq⟩ := List.mem_map.mp he
    obtain ⟨rfl, rfl⟩ := Prod.mk.inj heq
    exact (hturns.made o ho).symm
  · rw [getElem?_insertAll_of_not_mem hc, hspent]
    rw [keys_createdRecords] at hc
    by_cases hin : c ∈ batch.body.inputCommitments
    · rw [if_pos hin, hturns.spent c hin]
    · rw [if_neg hin, hturns.rest c hin]
      rintro o ho rfl
      exact hc (List.mem_map.mpr ⟨o, ho, rfl⟩)

theorem BlockSteps.kernels_fresh (b : BlockSteps s batch ts skip) :
    (∀ k ∈ blockKernels batch.body batch.coinbase, k.id ∉ s.kernels.coins) ∧
      ((blockKernels batch.body batch.coinbase).map Kernel.id).Nodup ∧
      ∀ id, id ∈ b.next.kernels.coins ↔
        id ∈ s.kernels.coins ∨ id ∈ (blockKernels batch.body batch.coinbase).map Kernel.id := by
  have hsums := kernels_added b.body.sums
  have hnext : b.next.kernels = b.body.kernels := by rw [b.next_eq]
  rw [hnext]
  rwa [b.base_kernels] at hsums

theorem BlockSteps.inputs_unspent (b : BlockSteps s batch ts skip) :
    batch.body.inputCommitments.Nodup ∧ ∀ i ∈ batch.body.body.inputs, i.commitment ∈ s.utxos := by
  obtain ⟨hstructure, -⟩ := validateBlockContents_eq_ok.mp b.contents
  have hnodup : batch.body.inputCommitments.Nodup := by
    have hsorted := (validateStructure_eq_ok.mp hstructure).2.inputs
    rw [List.isChain_iff_pairwise] at hsorted
    exact hsorted.imp fun hlt he => absurd (he ▸ hlt) (BitVec.lt_irrefl _)
  refine ⟨hnodup, ?_⟩
  have hspends := b.body.spends
  rw [b.base_height] at hspends
  have hall : ∀ (inputs : List Input) (t t' : State), (inputs.map Input.commitment).Nodup →
      inputs.foldlM (spendInput s.height) t = .ok t' → ∀ i ∈ inputs, i.commitment ∈ t.utxos := by
    intro inputs
    induction inputs with
    | nil => exact fun _ _ _ _ i hi => absurd hi List.not_mem_nil
    | cons i inputs ih =>
      intro t t' hn hok j hj
      obtain ⟨mid, hi, hrest⟩ := foldlM_cons_eq_ok.mp hok
      obtain ⟨e, he, -, -, rfl⟩ := spendInput_eq_ok.mp hi
      rcases List.mem_cons.mp hj with rfl | hj
      · exact mem_iff_exists.mpr ⟨e, he⟩
      · have hmem := ih _ _ (List.nodup_cons.mp hn).2 hrest j hj
        exact (Std.ExtTreeMap.mem_erase.mp hmem).2
  have hbase := hall _ _ _ hnodup hspends
  rwa [b.base_utxos] at hbase

namespace SpendScan

theorem Shows.putGroups_untouched (h : Shows scan l done) (hgid : gid ∉ scan.touched.map Prod.fst) :
    (scan.working.toList.foldl putGroup l.groups)[gid]? = l.groups[gid]? := by
  apply (getElem?_putGroups _ (pairwise_toList scan.working) gid).1
  intro hmem
  obtain ⟨⟨_, g⟩, hg, rfl⟩ := List.mem_map.mp hmem
  obtain ⟨_, -, -, hc⟩ := (h.working _ _).mp
    (Std.ExtTreeMap.mem_toList_iff_getElem?_eq_some.mp hg)
  exact hgid ((h.touched_keys _).mpr hc)

theorem Shows.undo_groups (h : Shows scan l done)
    (hfresh : FreshGroups batch (scan.working.toList.foldl putGroup l.groups)) :
    insertAll (eraseAll
      (insertAll (scan.working.toList.foldl putGroup l.groups) (createdGroups batch))
      ((createdGroups batch).map Prod.fst)) scan.touched = l.groups := by
  apply undo_eq _ _ _ _ (fun _ => h.putGroups_untouched) h.touched
  intro gid hgid huntouched
  rw [← hfresh.absent gid hgid, h.putGroups_untouched huntouched]

theorem Shows.undo_utxos (h : Shows scan l done) {created : List (Point32 × UtxoEntry)}
    (habsent : ∀ c ∈ created.map Prod.fst, l.utxos[c]? = none) :
    insertAll (eraseAll (insertAll scan.utxos created) (created.map Prod.fst)) scan.spent =
      l.utxos := by
  apply undo_eq _ _ _ _ ?_ h.spent fun c hc _ => habsent c hc
  intro c hc
  rw [h.utxos, if_neg]
  rwa [h.spent_keys] at hc

theorem Shows.undo_members (h : Shows scan l done) {created : List (Point32 × Bytes32 × Nat)}
    (habsent : ∀ c ∈ created.map Prod.fst, l.members[c]? = none) :
    insertAll (eraseAll (insertAll scan.members created) (created.map Prod.fst))
      scan.spentMembers = l.members := by
  apply undo_eq _ _ _ _ ?_ h.spentMembers fun c hc _ => habsent c hc
  intro c hc
  rw [h.members, if_neg]
  rwa [h.spentMembers_keys] at hc

end SpendScan

/-- Writing an accepted block succeeds, keeps the ledger in step with the state and its outputs
covered, and its undo record takes it back exactly. -/
theorem Ledger.Tells.block (h : l.Tells s) (hl : l.Covers chain) (hr : Relayed s)
    (ha : StoredApart S) (hsub : ∀ c ∈ chain ++ [batch], c ∈ S)
    (hstructures : ∀ c ∈ chain ++ [batch], ∀ p ∈ blockGroups c, p.1.checkStructure = .ok ())
    (b : BlockSteps s batch ts skip) (hturns : Turns s batch b.next) (hheight : s.height = height)
    (prev : StateMeta) : ∃ l' u,
      l.applyBlock height prev batch b.next.effects = .ok (l', u) ∧ l'.Tells b.next ∧
      l'.Covers (chain ++ [batch]) ∧ l'.revertBlock u = l ∧ u.prev = prev ∧
      u.Logs s batch b.next := by
  subst hheight
  have hbatch : batch ∈ chain ++ [batch] := List.mem_append_right _ (List.mem_singleton_self _)
  obtain ⟨hnodup, hunspent⟩ := b.inputs_unspent
  obtain ⟨scan, hscan, hshows⟩ := SpendScan.Shows.run hl (SpendScan.shows_start l)
    batch.body.body.inputs (by rwa [List.nil_append])
    (fun i hi => by rw [h.utxos]; exact hunspent i hi) s.height
  rw [List.nil_append] at hshows
  have hfresh := hshows.fresh hl h.utxos ha (fun c hc => hsub c (List.mem_append_left _ hc))
    (hsub _ hbatch) hstructures hturns
  have habsent := createdMembers_absent hshows hl h.utxos hturns
  obtain ⟨hnew, hdistinct, hkernels⟩ := b.kernels_fresh
  obtain ⟨-, hrevert, hreplay⟩ := b.relay_changes hr (ha.links _ (hsub _ hbatch))
  have hkeys : (createdRecords s.height batch).map Prod.fst =
      (createdMembers batch).map Prod.fst := by
    rw [keys_createdRecords, keys_createdMembers]
  have hkernelKeys : ((blockKernels batch.body batch.coinbase).map fun k => (k.id, k)).map
      Prod.fst = (blockKernels batch.body batch.coinbase).map Kernel.id := by
    rw [List.map_map]
    rfl
  have hnewKernels : ∀ id ∈ (blockKernels batch.body batch.coinbase).map Kernel.id,
      l.kernels[id]? = none := by
    intro id hid
    obtain ⟨k, hk, rfl⟩ := List.mem_map.mp hid
    cases hheld : l.kernels[k.id]? with
    | none => rfl
    | some k' => exact absurd ((h.kernels _).mp (mem_iff_exists.mpr ⟨k', hheld⟩)) (hnew k hk)
  refine ⟨_, _, by rw [Ledger.applyBlock, hscan, bind_ok], ?_, ?_, ?_, rfl, ?_⟩
  · constructor
    · apply utxos_insertAll hturns
      intro c
      rw [hshows.utxos, h.utxos]
      rfl
    · intro id
      rw [mem_insertAll, hkernels, h.kernels, hkernelKeys]
      exact or_comm
    · intro id k hk
      rcases (getElem?_insertAll_eq_some (by rwa [hkernelKeys])
        (by rwa [hkernelKeys])).mp hk with hk | hk
      · obtain ⟨k', -, he⟩ := List.mem_map.mp hk
        obtain ⟨rfl, rfl⟩ := Prod.mk.inj he
        rfl
      · exact h.kernel_id id k hk
    · show insertAll (eraseAll l.bonds _) _ = _
      rw [h.bonds, ← entries_applyBondEffects, b.apply_effects]
    · show insertAll (eraseAll l.relay _) _ = _
      rw [h.relay, ← Relay.entries_applyChange, hreplay]
  · exact hl.block hshows h.utxos (hstructures _ hbatch) hturns hfresh rfl rfl rfl
  · rw [Ledger.revertBlock]
    have hgroups := hshows.undo_groups hfresh
    have hutxos := hshows.undo_utxos
      fun c (hc : c ∈ (createdRecords s.height batch).map Prod.fst) =>
        (habsent c (hkeys ▸ hc)).2.2.1
    have hmembers := hshows.undo_members fun c hc => (habsent c hc).1
    have hkern := undo_eq l.kernels l.kernels
      ((blockKernels batch.body batch.coinbase).map fun k => (k.id, k)) []
      (fun _ _ => rfl) (fun e he => absurd he List.not_mem_nil) fun id hid _ =>
        hnewKernels id (hkernelKeys ▸ hid)
    have hbonds : insertAll (eraseAll (insertAll (eraseAll l.bonds
        (b.next.effects.bondsRemoved.map Prod.fst)) b.next.effects.bondsAdded)
        (b.next.effects.bondsAdded.map Prod.fst)) b.next.effects.bondsRemoved = l.bonds := by
      rw [h.bonds, ← entries_applyBondEffects, b.apply_effects, ← entries_undoBondEffects,
        b.undo_effects]
    have hrelay : insertAll (eraseAll (insertAll (eraseAll l.relay
        (b.next.effects.relayRemoved.map RelayEntry.height))
        (b.next.effects.relayAdded.map fun e => (e.height, e)))
        (b.next.effects.relayAdded.map RelayEntry.height))
        (b.next.effects.relayRemoved.map fun e => (e.height, e)) = l.relay := by
      rw [h.relay, ← Relay.entries_applyChange, hreplay, ← Relay.entries_revertChange, hrevert]
    rw [← hkeys] at hmembers
    rw [hkernelKeys] at hkern
    simp only [hgroups, hutxos, hmembers, hbonds, hrelay]
    exact congrArg (fun kernels => { l with kernels := kernels }) hkern
  · refine ⟨keys_createdRecords _ _, hshows.spent_keys, ?_, rfl, rfl⟩
    intro p hp
    rw [← h.utxos]
    exact hshows.spent p hp

end Block

end Midwimble
