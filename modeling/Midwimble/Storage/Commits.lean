import Midwimble.Chain.Built
import Midwimble.Core.Database

namespace Midwimble
open Fallible OrderedMap SlidingWindow
set_option autoImplicit true

variable [Primitives]

namespace BondSet

theorem entries_remove (b : BondSet) (id : Bytes32) :
    (b.remove id).entries = b.entries.erase id := by
  rw [remove]
  cases hid : b.entries[id]? with
  | some old => rfl
  | none =>
    apply Std.ExtTreeMap.ext_getElem?
    intro k
    ext v
    rw [getElem?_erase_eq_some]
    refine ⟨fun hv => ⟨?_, hv⟩, And.right⟩
    rintro rfl
    rw [hid] at hv
    cases hv

theorem entries_removes (removed : List (Bytes32 × BondEntry)) (b : BondSet) :
    (removed.foldl (fun b p => b.remove p.1) b).entries =
      eraseAll b.entries (removed.map Prod.fst) := by
  induction removed generalizing b with
  | nil => rfl
  | cons p removed ih =>
    rw [List.foldl_cons, ih, entries_remove]
    rfl

theorem entries_inserts (added : List (Bytes32 × BondEntry)) (b : BondSet) :
    (added.foldl (fun b p => (b.insert p.1 p.2).2) b).entries = insertAll b.entries added := by
  induction added generalizing b with
  | nil => rfl
  | cons p added ih =>
    rw [List.foldl_cons, ih]
    rfl

end BondSet

theorem entries_applyBondEffects (bonds : BondSet) (effects : BlockEffects) :
    (applyBondEffects bonds effects).entries =
      insertAll (eraseAll bonds.entries (effects.bondsRemoved.map Prod.fst))
        effects.bondsAdded := by
  rw [applyBondEffects, BondSet.entries_inserts, BondSet.entries_removes]

theorem entries_undoBondEffects (bonds : BondSet) (effects : BlockEffects) :
    (undoBondEffects bonds effects).entries =
      insertAll (eraseAll bonds.entries (effects.bondsAdded.map Prod.fst))
        effects.bondsRemoved := by
  rw [undoBondEffects, BondSet.entries_inserts, BondSet.entries_removes]

theorem entries_readBonds (table : Std.ExtTreeMap Bytes32 BondEntry) :
    (readBonds table).entries = table := by
  rw [readBonds, BondSet.entries_inserts]
  apply Std.ExtTreeMap.ext_getElem?
  intro id
  have hread := getElem?_foldl_toList (f := fun e => e) table id
  rwa [Option.map_id'] at hread

omit [Primitives] in
theorem subsidyFor_congr {b b' : BondSet} (h : b.entries = b'.entries) :
    subsidyFor signer counts b height timestamp =
      subsidyFor signer counts b' height timestamp := by
  simp only [subsidyFor, signerCap, h]

/-- The tables of blocks and bonds tell what a chain and its state are: headers from height
`low` on, and what blocks minted from height `base` on. -/
structure Stored (db : Database) (chain : List Batch) (s : State) (low base : Nat) : Prop where
  built : Built chain s
  headers : ∀ h : Nat, db.headers[h]? = if low ≤ h then chain[h]?.map (·.headerAt h) else none
  signers : ∀ (h : Nat) signer, db.signers[h]? = some signer →
    ∃ b : Batch, chain[h]? = some b ∧ b.signer = signer
  batches : ∀ (h : Nat) b, db.batches[h]? = some b → chain[h]? = some b
  subsidy : ∀ (h : Nat) x, db.subsidy[h]? = some x ↔ base ≤ h ∧ Mints chain h x
  bonds : db.ledger.bonds = s.bonds.entries
  undo : ∀ (h : Nat) u, db.undo[h]? = some u → h < chain.length →
    ∃ t, Built (chain.take (h + 1)) t ∧ u.effects = t.effects
  low_le : low ≤ base
  kept : base = 0 ∨ ∃ b, db.base = some b ∧ base ≤ b.height

/-- A database as `commit_chain` leaves it for a chain. -/
structure Mirrors (db : Database) (chain : List Batch) (low base : Nat) : Prop where
  stored : ∃ s, Stored db chain s low base
  height : (db.stateMeta.map StateMeta.height).getD 0 = chain.length

theorem mirrors_empty : Mirrors .empty [] 0 0 where
  stored := by
    refine ⟨.genesis, .genesis, ?_, ?_, ?_, ?_, rfl, ?_, Nat.le_refl 0, .inl rfl⟩
    · intro h
      simp [Database.empty]
    · intro h signer hs
      simp [Database.empty] at hs
    · intro h b hb
      simp [Database.empty] at hb
    · intro h x
      constructor
      · intro hx
        simp [Database.empty] at hx
      · rintro ⟨-, _, _, -, -, hlt, -⟩
        exact absurd hlt (Nat.not_lt_zero h)
    · intro h u hu
      simp [Database.empty] at hu
  height := rfl

namespace Stored

variable {db db' : Database} {chain : List Batch} {s : State} {low base : Nat}

/-- The block below the tip goes back with its undo record. -/
theorem revertBlock (h : Stored db (chain ++ [batch]) s low base)
    (hok : db.revertBlock chain.length = .ok (m, db')) :
    ∃ t, Stored db' chain t low base := by
  obtain ⟨t, ht, now, pre, skip, ha⟩ := h.built.last
  obtain ⟨happly, hundo, -⟩ := apply_bond_effects ha
  simp only [Database.revertBlock, bind_eq_ok, orBail_eq_ok, Except.ok.injEq,
    Prod.mk.injEq] at hok
  obtain ⟨u, hu, -, rfl⟩ := hok
  have hcut : ∀ {n}, n < chain.length → (chain ++ [batch]).take (n + 1) = chain.take (n + 1) :=
    fun hn => List.take_append_of_le_length hn
  have heffects : u.effects = s.effects := by
    obtain ⟨t', ht', he⟩ := h.undo _ u hu (by simp)
    rw [List.take_of_length_le (by simp)] at ht'
    rw [he, ht'.unique h.built]
  have hbelow : ∀ {k : Nat} {b : Batch}, k ≠ chain.length → (chain ++ [batch])[k]? = some b →
      chain[k]? = some b := by
    intro k b hne hb
    have hk := (List.getElem?_eq_some_iff.mp hb).1
    rw [List.length_append, List.length_singleton] at hk
    rwa [List.getElem?_append_left (by omega)] at hb
  refine ⟨t, ht, ?_, ?_, ?_, ?_, ?_, ?_, h.low_le, h.kept⟩
  · intro k
    rw [Std.ExtTreeMap.getElem?_erase]
    by_cases hk : chain.length = k
    · subst hk
      simp
    · rw [if_neg (mt Std.LawfulEqCmp.eq_of_compare hk), h.headers]
      rcases Nat.lt_or_ge k chain.length with hlt | hge
      · rw [List.getElem?_append_left hlt]
      · rw [List.getElem?_eq_none (by simp; omega), List.getElem?_eq_none hge]
  · intro k signer hk
    obtain ⟨hne, hk⟩ := getElem?_erase_eq_some.mp hk
    obtain ⟨b, hb, hsigner⟩ := h.signers k signer hk
    exact ⟨b, hbelow (Ne.symm hne) hb, hsigner⟩
  · intro k b hk
    obtain ⟨hne, hk⟩ := getElem?_erase_eq_some.mp hk
    exact hbelow (Ne.symm hne) (h.batches k b hk)
  · intro k x
    rw [getElem?_erase_eq_some, h.subsidy]
    constructor
    · rintro ⟨hne, hle, hx⟩
      have hk := hx.choose_spec.choose_spec.2.2.1
      rw [List.length_append, List.length_singleton] at hk
      exact ⟨hle, hx.of_take (hcut (by omega))⟩
    · rintro ⟨hle, hx⟩
      have hk := hx.choose_spec.choose_spec.2.2.1
      exact ⟨by omega, hle, hx.of_take (hcut hk).symm⟩
  · show insertAll (eraseAll db.ledger.bonds (u.effects.bondsAdded.map Prod.fst))
      u.effects.bondsRemoved = t.bonds.entries
    rw [h.bonds, heffects, ← entries_undoBondEffects, hundo]
  · intro k u' hk hlt
    obtain ⟨-, hk⟩ := getElem?_erase_eq_some.mp hk
    obtain ⟨t', ht', he⟩ := h.undo k u' hk (by simp; omega)
    exact ⟨t', hcut hlt ▸ ht', he⟩

theorem revertBlocks (h : Stored db chain s low base)
    (hlen : chain.length = first + n)
    (hok : Database.revertBlocks first n (m, db) = .ok (m', db')) :
    ∃ t, Stored db' (chain.take first) t low base := by
  induction n generalizing db chain s m with
  | zero =>
    simp only [Database.revertBlocks, Except.ok.injEq, Prod.mk.injEq] at hok
    obtain ⟨-, rfl⟩ := hok
    rw [List.take_of_length_le (by omega)]
    exact ⟨s, h⟩
  | succ n ih =>
    simp only [Database.revertBlocks, bind_eq_ok, Prod.exists] at hok
    obtain ⟨m₁, db₁, hone, hrest⟩ := hok
    obtain ⟨before, batch, rfl⟩ : ∃ before batch, chain = before ++ [batch] := by
      rcases List.eq_nil_or_concat chain with rfl | ⟨before, batch, rfl⟩
      · simp at hlen
      · exact ⟨before, batch, List.concat_eq_append⟩
    have hbefore : before.length = first + n := by
      rw [List.length_append, List.length_singleton] at hlen
      omega
    rw [← hbefore] at hone
    obtain ⟨t, ht⟩ := h.revertBlock hone
    rw [List.take_append_of_le_length (by omega)]
    exact ih ht hbefore hrest

theorem rootRelay (h : Stored db chain s low base) : Stored db.rootRelay chain s low base := by
  unfold Database.rootRelay
  split
  · exact ⟨h.built, h.headers, h.signers, h.batches, h.subsidy, h.bonds, h.undo, h.low_le,
      h.kept⟩
  · exact h

theorem loggedSigner (h : Stored db chain s low base)
    (hok : loggedSigner db.signers db.batches k = .ok signer) :
    (chain.map Batch.signer)[k]? = some signer := by
  rw [Midwimble.loggedSigner] at hok
  rw [List.getElem?_map]
  split at hok
  · rename_i found hfound
    obtain ⟨b, hb, hs⟩ := h.signers k found hfound
    rw [hb, Option.map_some, hs, Except.ok.inj hok]
  · split at hok
    · rename_i batch hbatch
      rw [h.batches k batch hbatch, Option.map_some, Except.ok.inj hok]
    · cases hok

end Stored

omit [Primitives] in
theorem mapM_range'_eq {f : Nat → Result α} {l : List α}
    (hf : ∀ (k : Nat) x, f k = .ok x → l[k]? = some x)
    (h : (List.range' start n).mapM f = .ok ys) : ys = (l.drop start).take n := by
  induction n generalizing start ys with
  | zero =>
    rw [List.range'_zero, List.mapM_nil, pure_eq_ok] at h
    rw [← h, List.take_zero]
  | succ n ih =>
    rw [List.range'_succ] at h
    obtain ⟨y, rest, hy, hrest, rfl⟩ := mapM_cons_eq_ok.mp h
    have hl := hf start y hy
    obtain ⟨hlt, rfl⟩ := List.getElem?_eq_some_iff.mp hl
    rw [ih hrest, List.drop_eq_getElem_cons hlt, List.take_succ_cons]

omit [Primitives] in
theorem shows_rebuildSignerWindow (bonds : BondSet) (signers : List (Option Bytes32)) :
    (rebuildSignerWindow bonds signers).Shows signers := by
  have hfold : ∀ (w : SignerWindow) (before rest : List (Option Bytes32)), w.Shows before →
      (rest.foldl (fun w signer => (creditInWindow w bonds 0 signer 0 0).2) w).Shows
        (before ++ rest) := by
    intro w before rest hw
    induction rest generalizing w before with
    | nil => rwa [List.append_nil]
    | cons signer rest ih =>
      rw [List.foldl_cons, creditInWindow_window, List.append_cons]
      exact ih _ _ (hw.push signer)
  exact hfold .empty [] signers SignerWindow.shows_empty

/-- A replay in step with a chain: its tables, and the bonds and the signer window it carries,
are those of the chain's state. -/
structure Replay.Follows (r : Replay) (chain : List Batch) (s : State) (low base : Nat) : Prop where
  stored : Stored r.db chain s low base
  bonds : r.bonds.entries = s.bonds.entries
  window : r.window = s.signers

theorem Stored.start {db : Database} (h : Stored db chain s low base)
    (hok : Replay.start db m chain.length = .ok r) : r.Follows chain s low base := by
  simp only [Replay.start, bind_eq_ok, Except.ok.injEq] at hok
  obtain ⟨signers, hsigners, works, -, rfl⟩ := hok
  refine ⟨h, ?_, ?_⟩
  · rw [entries_readBonds, h.bonds]
  · have hlast : signers = lastN capWindow (chain.map Batch.signer) := by
      rw [mapM_range'_eq (fun k x hk => h.loggedSigner hk) hsigners, lastN, List.length_map,
        List.take_of_length_le (by simp)]
    have hshows := shows_rebuildSignerWindow (readBonds db.ledger.bonds) signers
    rw [hlast] at hshows
    have hsame : (rebuildSignerWindow (readBonds db.ledger.bonds)
        (lastN capWindow (chain.map Batch.signer))).Shows (chain.map Batch.signer) := by
      refine ⟨?_, hshows.tally⟩
      rw [hshows.recent, lastN_lastN (Nat.le_refl _)]
    have hstate := h.built.run.windowed.signers
    have heq := hsame.unique hstate
    rw [← hlast] at heq
    exact heq

theorem mints_append {t : State} {subsidy : Nat} (ht : Built chain t)
    (hbuilt : Built (chain ++ [batch]) s') (hminted : s'.supply = t.supply + subsidy) (k x : Nat) :
    Mints (chain ++ [batch]) k x ↔ Mints chain k x ∨ k = chain.length ∧ x = subsidy := by
  have hlast : Mints (chain ++ [batch]) chain.length subsidy := by
    refine ⟨t, s', ?_, ?_, by simp, hminted⟩
    · rw [List.take_left]
      exact ht
    · rw [List.take_of_length_le (by simp)]
      exact hbuilt
  constructor
  · intro hx
    have hk := hx.choose_spec.choose_spec.2.2.1
    rw [List.length_append, List.length_singleton] at hk
    rcases Nat.lt_or_ge k chain.length with hlt | hge
    · exact .inl (hx.of_take (List.take_append_of_le_length hlt))
    · obtain rfl : k = chain.length := by omega
      exact .inr ⟨rfl, hx.unique hlast⟩
  · rintro (hx | ⟨rfl, rfl⟩)
    · exact hx.of_take (List.take_append_of_le_length hx.choose_spec.choose_spec.2.2.1).symm
    · exact hlast

theorem Stored.headers_insert {db : Database} (h : Stored db chain s low base)
    (hbase : base ≤ chain.length) (k : Nat) :
    (db.headers.insert chain.length (batch.headerAt chain.length))[k]? =
      if low ≤ k then (chain ++ [batch])[k]?.map (·.headerAt k) else none := by
  have hlow : low ≤ chain.length := Nat.le_trans h.low_le hbase
  rw [Std.ExtTreeMap.getElem?_insert]
  by_cases hk : chain.length = k
  · subst hk
    rw [if_pos Std.ReflCmp.compare_self, if_pos hlow, List.getElem?_concat_length, Option.map_some]
  · rw [if_neg (mt Std.LawfulEqCmp.eq_of_compare hk), h.headers]
    rcases Nat.lt_or_ge k chain.length with hlt | hge
    · rw [List.getElem?_append_left hlt]
    · rw [List.getElem?_eq_none hge, List.getElem?_eq_none (by simp; omega)]

/-- One block of the replay mints what `apply_batch` let it mint. -/
theorem Replay.Follows.block {r r' : Replay} (h : r.Follows chain s low base)
    (hbuilt : Built (chain ++ [batch]) s') (hbase : base ≤ chain.length)
    (hok : r.block chain.length batch s'.effects = .ok r') :
    r'.Follows (chain ++ [batch]) s' low base := by
  obtain ⟨t, ht, now, pre, skip, ha⟩ := hbuilt.last
  obtain rfl := ht.unique h.stored.built
  obtain ⟨-, -, b, -, rfl⟩ := applyBatchInternal_eq_ok.mp ha
  simp only [Replay.block, bind_eq_ok, bailIf_eq_ok, Prod.exists, Except.ok.injEq] at hok
  obtain ⟨_, -, ledger, undo, hledger, next, -, _, -, rfl⟩ := hok
  simp only [Ledger.applyBlock, bind_eq_ok, Except.ok.injEq, Prod.mk.injEq] at hledger
  obtain ⟨scan, -, rfl, rfl⟩ := hledger
  have hentries : (applyBondEffects r.bonds b.next.effects).entries = b.next.bonds.entries := by
    rw [entries_applyBondEffects, h.bonds, ← entries_applyBondEffects, b.apply_effects]
  have hpush : r.window.push batch.signer = b.next.signers := by
    rw [h.window, b.next_signers]
  have hcounts : b.credit.signers = b.next.signers := by rw [b.next_eq]
  have hbonds : b.next.bonds = b.bonds := by rw [b.next_eq]
  have hsub : subsidyFor batch.signer (r.window.push batch.signer).counts
      (applyBondEffects r.bonds b.next.effects) chain.length batch.timestamp = b.subsidy := by
    rw [b.minted, subsidyFor_congr hentries, hpush, hcounts, hbonds, ht.height]
  have hmints := mints_append ht hbuilt (show b.next.supply = t.supply + b.subsidy by rw [b.next_eq])
  have hbelow : ∀ {k : Nat} {c : Batch}, chain[k]? = some c → (chain ++ [batch])[k]? = some c := by
    intro k c hc
    rwa [List.getElem?_append_left (List.getElem?_eq_some_iff.mp hc).1]
  refine ⟨⟨hbuilt, ?_, ?_, ?_, ?_, ?_, ?_, h.stored.low_le,
    h.stored.kept⟩, hentries, hpush⟩
  · exact h.stored.headers_insert hbase
  · intro k signer hk
    rcases getElem?_insert_eq_some.mp hk with ⟨rfl, rfl⟩ | ⟨-, hk⟩
    · exact ⟨batch, List.getElem?_concat_length, rfl⟩
    · obtain ⟨c, hc, hs⟩ := h.stored.signers k signer hk
      exact ⟨c, hbelow hc, hs⟩
  · intro k c hk
    rcases getElem?_insert_eq_some.mp hk with ⟨rfl, rfl⟩ | ⟨-, hk⟩
    · exact List.getElem?_concat_length
    · exact hbelow (h.stored.batches k c hk)
  · intro k x
    show (r.db.subsidy.insert chain.length _)[k]? = some x ↔ _
    rw [getElem?_insert_eq_some, h.stored.subsidy, hmints]
    simp only [creditInWindow_window, hsub]
    constructor
    · rintro (⟨rfl, rfl⟩ | ⟨hne, hle, hx⟩)
      · exact ⟨hbase, .inr ⟨rfl, rfl⟩⟩
      · exact ⟨hle, .inl hx⟩
    · rintro ⟨hle, hx | ⟨rfl, rfl⟩⟩
      · have hk := hx.choose_spec.choose_spec.2.2.1
        exact .inr ⟨by omega, hle, hx⟩
      · exact .inl ⟨rfl, rfl⟩
  · show insertAll (eraseAll r.db.ledger.bonds (b.next.effects.bondsRemoved.map Prod.fst))
      b.next.effects.bondsAdded = _
    rw [h.stored.bonds, ← entries_applyBondEffects, b.apply_effects]
  · intro k u hk hlt
    rcases getElem?_insert_eq_some.mp hk with ⟨rfl, rfl⟩ | ⟨hne, hk⟩
    · refine ⟨b.next, ?_, rfl⟩
      rw [List.take_of_length_le (by simp)]
      exact hbuilt
    · rw [List.length_append, List.length_singleton] at hlt
      obtain ⟨t', ht', he⟩ := h.stored.undo k u hk (by omega)
      refine ⟨t', ?_, he⟩
      rw [List.take_append_of_le_length (by omega)]
      exact ht'

/-- The effects of applying these blocks, as a caller of `commit_chain` must hold them. -/
def EffectsOf (chain batches : List Batch) (effects : List BlockEffects) : Prop :=
  effects.length = batches.length ∧ ∀ (i : Nat) e, effects[i]? = some e →
    ∃ t, Built (chain ++ batches.take (i + 1)) t ∧ e = t.effects

theorem EffectsOf.nil : EffectsOf chain [] [] :=
  ⟨rfl, fun _ _ he => nomatch he⟩

theorem EffectsOf.of_cons (hb : Built (chain ++ [batch]) t) (he : t.effects = e)
    (h : EffectsOf (chain ++ [batch]) batches effects) :
    EffectsOf chain (batch :: batches) (e :: effects) := by
  refine ⟨congrArg Nat.succ h.1, ?_⟩
  intro i e' hi
  cases i with
  | zero =>
    obtain rfl := Option.some.inj hi
    exact ⟨t, hb, he.symm⟩
  | succ i =>
    obtain ⟨u, hu, heu⟩ := h.2 i e' hi
    rw [List.append_assoc, List.singleton_append] at hu
    exact ⟨u, hu, heu⟩

theorem EffectsOf.cons (h : EffectsOf chain (batch :: batches) (e :: effects)) :
    (∃ t, Built (chain ++ [batch]) t ∧ e = t.effects) ∧
      EffectsOf (chain ++ [batch]) batches effects := by
  refine ⟨h.2 0 e rfl, Nat.succ.inj h.1, ?_⟩
  intro i e' he
  obtain ⟨t, ht, heq⟩ := h.2 (i + 1) e' he
  refine ⟨t, ?_, heq⟩
  rwa [List.append_assoc]

theorem Replay.Follows.run {r r' : Replay} (h : r.Follows chain s low base)
    (hbase : base ≤ chain.length) (heffects : EffectsOf chain batches effects)
    (hok : r.run chain.length (batches.zip effects) = .ok r') :
    ∃ t, r'.Follows (chain ++ batches) t low base := by
  induction batches generalizing r chain s effects with
  | nil =>
    simp only [List.zip_nil_left, Replay.run, Except.ok.injEq] at hok
    subst hok
    rw [List.append_nil]
    exact ⟨s, h⟩
  | cons batch batches ih =>
    cases effects with
    | nil => exact absurd heffects.1 (by simp)
    | cons e effects =>
      obtain ⟨⟨t, ht, rfl⟩, hrest⟩ := heffects.cons
      simp only [List.zip_cons_cons, Replay.run, bind_eq_ok] at hok
      obtain ⟨mid, hone, hok⟩ := hok
      have hlen : (chain ++ [batch]).length = chain.length + 1 := by simp
      rw [← hlen] at hok
      have hnext := ih (h.block ht hbase hone) (by omega) hrest hok
      rwa [List.append_assoc] at hnext

omit [Primitives] in
theorem pruneUndo_undo {db : Database} {k : Nat} (h : (db.pruneUndo keepFrom).undo[k]? = some u) :
    db.undo[k]? = some u := (getElem?_filter_eq_some.mp h).1

/-- `commit_chain` with accepted blocks and their effects leaves the tables of the new chain,
however deep it reorganises. -/
theorem Mirrors.commit {db db' : Database} (h : Mirrors db chain low base)
    (heffects : EffectsOf (chain.take first) batches effects)
    (hok : db.commitChain first batches effects state = .ok db') :
    Mirrors db' (chain.take first ++ batches) low base := by
  simp only [Database.commitChain, bind_eq_ok, bailIf_eq_ok, Prod.exists, not_not, ne_eq,
    Except.ok.injEq] at hok
  obtain ⟨_, hlen, _, -, _, -, _, habove, _, hgap, m, reverted, hrevert, start, hstart, done, hrun,
    _, hcheck, rfl⟩ := hok
  obtain ⟨s, hs⟩ := h.stored
  have hmeta : db.rootRelay.stateMeta = db.stateMeta := by
    unfold Database.rootRelay
    split <;> rfl
  rw [hmeta, h.height] at hgap hrevert
  have hbase : base ≤ first := by
    rcases hs.kept with h0 | ⟨b, hb, hle⟩
    · omega
    · rw [hb, Option.any_some, decide_eq_true_eq] at habove
      omega
  have htake : (chain.take first).length = first := by
    rw [List.length_take]
    omega
  obtain ⟨t, ht⟩ := hs.rootRelay.revertBlocks (by omega) hrevert
  rw [← htake] at hstart hrun
  obtain ⟨t', hdone⟩ := (ht.start hstart).run (by omega) heffects hrun
  simp only [Replay.check, bind_eq_ok, bailIf_eq_ok, not_not, ne_eq] at hcheck
  refine ⟨⟨t', ?_⟩, ?_⟩
  · have hd := hdone.stored
    exact ⟨hd.built, hd.headers, hd.signers, hd.batches, hd.subsidy, hd.bonds,
      fun k u hk => hd.undo k u (pruneUndo_undo hk), hd.low_le, hd.kept⟩
  · show done.scalars.height = _
    rw [hcheck.choose_spec.1, List.length_append, htake, hlen]
    rfl

end Midwimble
