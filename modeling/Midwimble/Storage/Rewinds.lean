import Midwimble.Storage.Loads

namespace Midwimble
open Fallible OrderedMap SlidingWindow
set_option autoImplicit true

variable [Primitives]

/-- A state with the MMR, the windows and the last diff of another. -/
def State.over (s x : State) : State :=
  { s with
    chainMmr := x.chainMmr
    signers := x.signers
    workFloor := x.workFloor
    capped := x.capped
    effects := x.effects }

section Outputs

variable {met : Set (Point32 × UtxoEntry)} {s s' x : State}

theorem uncreate_all {cs : List Point32} (hn : cs.Nodup) (hall : ∀ c ∈ cs, c ∈ s.utxos)
    (hl : s.Leafed) (ha : RecordsApart met) (hw : Within s.utxos met) (h : Nat) :
    ∃ set, cs.foldlM (State.uncreate h) s =
        .ok { s with utxos := eraseAll s.utxos cs, utxoSet := set } ∧
      { s with utxos := eraseAll s.utxos cs, utxoSet := set }.Leafed := by
  induction cs generalizing s with
  | nil => exact ⟨s.utxoSet, rfl, hl⟩
  | cons c cs ih =>
    obtain ⟨hc, hn⟩ := List.nodup_cons.mp hn
    obtain ⟨entry, he⟩ := mem_iff_exists.mp (hall c List.mem_cons_self)
    have hone : s.uncreate h c = .ok { s with
        utxos := s.utxos.erase c
        utxoSet := s.utxoSet.remove (utxoLeaf c entry) } := by
      rw [State.uncreate, he, orBail_some, bind_ok]
    have hstill : ∀ c' ∈ cs, c' ∈ s.utxos.erase c := by
      intro c' hc'
      refine Std.ExtTreeMap.mem_erase.mpr ⟨?_, hall c' (List.mem_cons_of_mem _ hc')⟩
      intro heq
      obtain rfl := Std.LawfulEqCmp.eq_of_compare heq
      exact hc hc'
    obtain ⟨set, hrest, hleafed⟩ := ih
      (s := { s with utxos := s.utxos.erase c, utxoSet := s.utxoSet.remove (utxoLeaf c entry) })
      hn hstill (LeavesOf.erase hl ha.leaf_inj hw he) (hw.erase c)
    exact ⟨set, foldlM_cons_eq_ok.mpr ⟨_, hone, hrest⟩, hleafed⟩

theorem unspend_all {ps : List (Point32 × UtxoEntry)} (hn : (ps.map Prod.fst).Nodup)
    (hnew : ∀ p ∈ ps, s.utxos[p.1]? = none) (hl : s.Leafed) :
    ∃ set, ps.foldl State.unspend s = { s with utxos := insertAll s.utxos ps, utxoSet := set } ∧
      { s with utxos := insertAll s.utxos ps, utxoSet := set }.Leafed := by
  induction ps generalizing s with
  | nil => exact ⟨s.utxoSet, rfl, hl⟩
  | cons p ps ih =>
    obtain ⟨hp, hn⟩ := List.nodup_cons.mp hn
    have hone : (s.unspend p).Leafed := by
      unfold State.Leafed State.unspend
      rw [coins_insert]
      exact LeavesOf.insert hl (hnew p List.mem_cons_self)
    have hstill : ∀ q ∈ ps, (s.unspend p).utxos[q.1]? = none := by
      intro q hq
      show (s.utxos.insert p.1 p.2)[q.1]? = none
      rw [Std.ExtTreeMap.getElem?_insert, if_neg, hnew q (List.mem_cons_of_mem _ hq)]
      intro heq
      rw [Std.LawfulEqCmp.eq_of_compare heq] at hp
      exact hp (List.mem_map_of_mem hq)
    obtain ⟨set, hrest, hleafed⟩ := ih hn hstill hone
    exact ⟨set, hrest, hleafed⟩

omit [Primitives] in
theorem remove_kernels {before after : UtxoAccumulator} {ids : List Bytes32}
    (hnew : ∀ id ∈ ids, id ∉ before.coins)
    (hafter : ∀ id, id ∈ after.coins ↔ id ∈ before.coins ∨ id ∈ ids) :
    ids.foldl UtxoAccumulator.remove after = before := by
  have hfold : ∀ (l : List Bytes32) (a : UtxoAccumulator) (id : Bytes32),
      id ∈ (l.foldl UtxoAccumulator.remove a).coins ↔ id ∈ a.coins ∧ id ∉ l := by
    intro l
    induction l with
    | nil => simp
    | cons k l ih =>
      intro a id
      rw [List.foldl_cons, ih, UtxoAccumulator.remove, Std.ExtTreeSet.mem_erase, ne_eq,
        Std.LawfulEqOrd.compare_eq_iff_eq, List.mem_cons, not_or, eq_comm (a := k)]
      tauto
  have hcoins : (ids.foldl UtxoAccumulator.remove after).coins = before.coins := by
    apply Std.ExtTreeSet.ext_mem
    intro id
    rw [hfold, hafter]
    constructor
    · rintro ⟨hid | hid, hnot⟩
      · exact hid
      · exact absurd hid hnot
    · exact fun hid => ⟨.inl hid, fun hin => hnew id hin hid⟩
  cases h : ids.foldl UtxoAccumulator.remove after
  cases before
  rw [h] at hcoins
  exact congrArg UtxoAccumulator.mk hcoins

end Outputs

section Blocks

variable {S : Set Batch} {chain : List Batch} {batch : Batch} {s s' : State} {u : BlockUndo}
  {l l' : Ledger}

theorem Built.undo_bonds (h : Built (chain ++ [batch]) s') (hs : Built chain s)
    (ha : StoredApart S) (hsub : ∀ c ∈ chain ++ [batch], c ∈ S) :
    undoBondEffects s'.bonds s'.effects = s.bonds := by
  obtain ⟨t, ht, now, pre, skip, hok⟩ := h.last
  obtain rfl := ht.unique hs
  have hbelow : ∀ c ∈ chain, c ∈ S := fun c hc => hsub c (List.mem_append_left _ hc)
  obtain ⟨hc, hw⟩ := hs.bonds ha hbelow
  obtain ⟨hc', hw'⟩ := h.bonds ha hsub
  refine BondSet.Committed.eq ?_ hc (apply_bond_effects hok).2.1
  rw [undoBondEffects, BondSet.foldl_remove, BondSet.foldl_insert, ← List.foldl_append]
  apply (BondSet.committed_edits hc' hw' ha.bonds _ _).1
  intro p hp
  obtain ⟨-, -, b, -, rfl⟩ := applyBatchInternal_eq_ok.mp hok
  have hheld := b.removed_held p (by
    have hin := mem_inserted_edits.mp hp
    rwa [b.next_eq] at hin)
  exact hw _ _ hheld

/-- A block's undo record takes its state back to its parent's. -/
theorem Built.undoBlock (h : Built (chain ++ [batch]) s') (hs : Built chain s)
    (ha : StoredApart S) (hr : RecordsApart (chainRecords S))
    (hsub : ∀ c ∈ chain ++ [batch], c ∈ S) (hlogs : u.Logs s batch s') (hprev : u.prev = .of s)
    (hutxos : insertAll (eraseAll s'.utxos u.created) u.spent = s.utxos) (x : State) :
    (s'.over x).undoBlock chain.length u = .ok (s.over x) := by
  have hbelow : ∀ c ∈ chain, c ∈ S := fun c hc => hsub c (List.mem_append_left _ hc)
  have hmem : batch ∈ chain ++ [batch] := List.mem_append_right _ (List.mem_singleton_self _)
  have hbonds := h.undo_bonds hs ha hsub
  obtain ⟨t, ht, now, pre, skip, hok⟩ := h.last
  obtain rfl := ht.unique hs
  have hturns := turns_of_accepts ⟨_, _, _, _, hok⟩
  have hleafed := h.leafed hr hsub
  obtain ⟨l, hstands⟩ := hs.ledger ha hbelow
  obtain ⟨-, -, b, -, rfl⟩ := applyBatchInternal_eq_ok.mp hok
  obtain ⟨hnodup, -⟩ := b.inputs_unspent
  obtain ⟨hfresh, -, hkernels⟩ := b.kernels_fresh
  obtain ⟨-, hrevert, -⟩ := b.relay_changes hstands.relayed (ha.links _ (hsub _ hmem))
  have hcreated : ∀ c ∈ u.created, c ∈ b.next.utxos := by
    intro c hc
    rw [hlogs.created] at hc
    obtain ⟨o, ho, rfl⟩ := List.mem_map.mp hc
    exact mem_iff_exists.mpr ⟨_, hturns.made o ho⟩
  obtain ⟨set, huncreate, hleafed₁⟩ := uncreate_all (s := b.next.over x)
    (by rw [hlogs.created]; exact hturns.distinct) hcreated hleafed hr (h.within hsub) chain.length
  have hgone : ∀ p ∈ u.spent, (eraseAll b.next.utxos u.created)[p.1]? = none := by
    intro p hp
    have hin : p.1 ∈ batch.body.inputCommitments := by
      rw [← hlogs.spent_keys]
      exact List.mem_map_of_mem hp
    cases he : (eraseAll b.next.utxos u.created)[p.1]? with
    | none => rfl
    | some e =>
      have hheld := (getElem?_foldl_erase_eq_some.mp he).2
      rw [hturns.spent _ hin] at hheld
      cases hheld
  obtain ⟨set', hunspend, hleafed₂⟩ := unspend_all
    (s := { b.next.over x with utxos := eraseAll b.next.utxos u.created, utxoSet := set })
    (by rw [hlogs.spent_keys]; exact hnodup) hgone hleafed₁
  have hset : set' = t.utxoSet := by
    have hcoins : set'.coins = t.utxoSet.coins := by
      have hmine : LeavesOf (fun p => utxoLeaf p.1 p.2)
          (insertAll (eraseAll b.next.utxos u.created) u.spent) set'.coins := hleafed₂
      rw [hutxos] at hmine
      exact hmine.unique (hs.leafed hr hbelow)
    cases set'
    exact congrArg UtxoAccumulator.mk hcoins
  have hkernelSet : u.kernels.foldl UtxoAccumulator.remove b.next.kernels = t.kernels := by
    apply remove_kernels
    · intro id hid
      rw [hlogs.kernels] at hid
      obtain ⟨k, hk, rfl⟩ := List.mem_map.mp hid
      exact hfresh k hk
    · intro id
      rw [hlogs.kernels, hkernels]
  simp only [State.over] at huncreate hunspend ⊢
  simp only [State.undoBlock, huncreate, bind_ok, hunspend, hprev, StateMeta.of, hlogs.effects,
    hbonds, hkernelSet, hrevert, hset, hutxos]

end Blocks

namespace Database

variable {S : Set Batch} {db : Database} {chain : List Batch} {s t : State} {kept : Nat}

/-- Undo records take a chain's state back block by block. -/
theorem Holds.undoBlocks (h : db.Holds chain kept) (ha : StoredApart S)
    (hr : RecordsApart (chainRecords S)) (hsub : ∀ c ∈ chain, c ∈ S)
    (hb : Built (chain.take (n + m)) s) (ht : Built (chain.take n) t)
    (hle : n + m ≤ chain.length) (hkept : m = 0 ∨ kept ≤ n) (x : State) :
    db.undoBlocks n m (s.over x) = .ok (t.over x) := by
  induction m generalizing s with
  | zero =>
    obtain rfl := hb.unique ht
    rfl
  | succ m ih =>
    have hfirst : kept ≤ n := hkept.resolve_left (Nat.succ_ne_zero m)
    have hlt : n + m < chain.length := by omega
    have hlen : (chain.take (n + m)).length = n + m := by
      rw [List.length_take]
      omega
    have htake : chain.take (n + m + 1) = chain.take (n + m) ++ [chain[n + m]] := by
      rw [List.take_add_one, List.getElem?_eq_getElem hlt]
      rfl
    have hin : ∀ c ∈ chain.take (n + m) ++ [chain[n + m]], c ∈ S := by
      rw [← htake]
      exact fun c hc => hsub c (List.mem_of_mem_take hc)
    rw [← Nat.add_assoc, htake] at hb
    obtain ⟨below, hbelow, -⟩ := hb.last
    obtain ⟨u, hu⟩ := mem_iff_exists.mp ((h.undo (n + m)).mpr ⟨by omega, hlt⟩)
    obtain ⟨l, hstands⟩ := hb.ledger ha hin
    have hlogged : Logged (chain.take (n + m) ++ [chain[n + m]]) (n + m) u :=
      (h.logged _ u hu).of_take (by rw [← htake, List.take_take, Nat.min_self])
    have htip : Logged (chain.take (n + m) ++ [chain[n + m]])
        (chain.take (n + m)).length u := by
      rw [hlen]
      exact hlogged
    obtain ⟨hof, hprev, hlogs⟩ := htip.tip ha hin hbelow hb hstands.of
    have hreverted := hof.stands ha hbelow fun c hc => hin c (List.mem_append_left _ hc)
    have hutxos : insertAll (eraseAll s.utxos u.created) u.spent = below.utxos := by
      rw [← hstands.tells.utxos]
      exact hreverted.tells.utxos
    have hone := hb.undoBlock hbelow ha hr hin hlogs hprev hutxos x
    rw [hlen] at hone
    rw [Database.undoBlocks, hu, orBail_some, bind_ok, hone, bind_ok]
    exact ih hbelow (by omega) (.inr hfirst)

theorem undo_of_undoBlocks {x y : State} (hok : db.undoBlocks n m x = .ok y) :
    ∀ k, n ≤ k → k < n + m → k ∈ db.undo := by
  induction m generalizing x with
  | zero => exact fun k hle hlt => absurd hlt (Nat.not_lt.mpr hle)
  | succ m ih =>
    simp only [Database.undoBlocks, bind_eq_ok, orBail_eq_ok] at hok
    obtain ⟨u, hu, mid, -, hrest⟩ := hok
    intro k hle hlt
    by_cases hk : k = n + m
    · rw [hk]
      exact mem_iff_exists.mpr ⟨u, hu⟩
    · exact ih hrest k hle (by omega)

theorem rootRelay_stateAt (db : Database) (s : State) (n : Nat) :
    db.rootRelay.stateAt s n = db.stateAt s n := by
  unfold rootRelay
  split
  · unfold stateAt
    have hundo : ∀ (r : Std.ExtTreeMap Nat RelayEntry) (count : Nat) (x : State),
        undoBlocks { db with ledger := { db.ledger with relay := r } } n count x =
          db.undoBlocks n count x := by
      intro r count
      induction count with
      | zero => exact fun x => rfl
      | succ count ih =>
        intro x
        simp only [undoBlocks, ih]
    simp only [hundo]
    rfl
  · rfl

theorem Keeps.tip_stored_iff (h : db.Keeps chain s kept)
    (hids : Set.InjOn (fun b : Batch => b.extension.finalHash) S) (hsub : ∀ c ∈ chain, c ∈ S)
    {tips : List Batch} {current : State} (hcurrent : Built tips current)
    (htips : ∀ c ∈ tips, c ∈ S) :
    (tips.length ≠ 0 → (db.rootRelay.headers[tips.length - 1]?.map
      fun h => h.extension.finalHash) = some current.headerHash) ↔ tips <+: chain := by
  rcases List.eq_nil_or_concat tips with rfl | ⟨below, batch, rfl⟩
  · exact iff_of_true (fun hne => absurd rfl hne) List.nil_prefix
  · rw [List.concat_eq_append] at hcurrent htips ⊢
    have hlast : (below ++ [batch])[below.length]? = some batch := List.getElem?_concat_length
    have hhash := hcurrent.headerHash
    rw [List.length_append, List.length_singleton, Nat.add_sub_cancel, h.holds.headers,
      Option.map_map, hhash, Option.map_eq_some_iff]
    constructor
    · intro hstored
      obtain ⟨c, hc, he⟩ := hstored (Nat.succ_ne_zero _)
      have htake := hcurrent.take_eq hids h.built htips hsub hlast hc he.symm
      rw [List.take_of_length_le (by simp)] at htake
      rw [htake]
      exact List.take_prefix _ _
    · rintro ⟨more, rfl⟩ -
      refine ⟨batch, ?_, rfl⟩
      rw [List.getElem?_append_left (by simp)]
      exact hlast

/-- A past state is derived exactly while the chain it was on is still the bottom of the stored
one, for the heights its undo records reach; it is the state of the chain there. -/
theorem Keeps.stateAt_iff (h : db.Keeps chain s kept) (ha : StoredApart S)
    (hr : RecordsApart (chainRecords S))
    (hids : Set.InjOn (fun b : Batch => b.extension.finalHash) S) (hsub : ∀ c ∈ chain, c ∈ S)
    {tips : List Batch} {current : State} (hcurrent : Built tips current)
    (htips : ∀ c ∈ tips, c ∈ S) (hlen : tips.length < 2 ^ 63) (n : Nat) (x : State) :
    db.stateAt current n = .ok x ↔ tips <+: chain ∧ n ≤ tips.length ∧
      (n = tips.length ∨ kept ≤ n) ∧
        ∃ t, Built (tips.take n) t ∧ x = { t with effects := current.effects } := by
  have hholds := h.holds
  have hheight := hcurrent.height
  have hmmr : current.chainMmr.truncated n = mmrOf (tips.take n) := by
    rw [hcurrent.chainMmr, mmrOf_truncated hlen]
  have hprefix := h.tip_stored_iff hids hsub hcurrent htips
  have hderive : tips <+: chain → n ≤ tips.length → (n = tips.length ∨ kept ≤ n) →
      ∀ t, Built (tips.take n) t → ∃ y, db.rootRelay.undoBlocks n (tips.length - n) current =
        .ok y ∧ db.rootRelay.rebuildForkChoiceWindows { y with
          chainMmr := current.chainMmr.truncated n
          capped := db.rootRelay.cappedBefore n } =
            .ok { t with effects := current.effects } := by
    rintro ⟨more, rfl⟩ hle hkept t ht
    have hbelow : (tips ++ more).take n = tips.take n := List.take_append_of_le_length hle
    have hbuilt : Built ((tips ++ more).take (n + (tips.length - n))) current := by
      rw [Nat.add_sub_cancel' hle, List.take_left]
      exact hcurrent
    have hbelowBuilt : Built ((tips ++ more).take n) t := hbelow ▸ ht
    have hundone := hholds.undoBlocks ha hr hsub hbuilt hbelowBuilt (by simp; omega)
      (by omega) current
    refine ⟨t.over current, hundone, ?_⟩
    have hn : n ≤ (tips ++ more).length := by
      rw [List.length_append]
      omega
    have htheight : t.height = n := by
      rw [ht.height, List.length_take]
      omega
    rw [hholds.rebuildForkChoiceWindows hbelowBuilt hn, hholds.cappedBefore_eq hbelowBuilt hn,
      hmmr, ← ht.chainMmr]
    · rfl
    · exact htheight
  rw [← rootRelay_stateAt, Database.stateAt, hheight]
  simp only [bailIf_eq_ok, bind_eq_ok, not_lt, gt_iff_lt, not_and, not_not,
    ne_eq]
  constructor
  · rintro ⟨_, hle, _, hstored, y, hundo, hrebuilt⟩
    have hpre := hprefix.mp hstored
    have hkept : n = tips.length ∨ kept ≤ n := by
      rcases Nat.eq_or_lt_of_le hle with heq | hlt
      · exact .inl heq
      · exact .inr ((hholds.undo n).mp (undo_of_undoBlocks hundo n (Nat.le_refl _) (by omega))).1
    obtain ⟨t, ht⟩ := hcurrent.take n
    obtain ⟨y', hundo', hrebuilt'⟩ := hderive hpre hle hkept t ht
    rw [hundo, Except.ok.injEq] at hundo'
    obtain rfl := hundo'
    rw [hrebuilt, Except.ok.injEq] at hrebuilt'
    exact ⟨hpre, hle, hkept, t, ht, hrebuilt'⟩
  · rintro ⟨hpre, hle, hkept, t, ht, rfl⟩
    obtain ⟨y, hundo, hrebuilt⟩ := hderive hpre hle hkept t ht
    exact ⟨(), hle, (), hprefix.mpr hpre, y, hundo, hrebuilt⟩

end Database

end Midwimble
