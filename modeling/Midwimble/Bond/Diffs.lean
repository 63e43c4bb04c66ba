import Midwimble.Chain.Bonds
import Midwimble.Chain.Solved
import Midwimble.Core.Storage
import Midwimble.Identity.Preimages

namespace Midwimble
open Fallible
set_option autoImplicit true

variable [Primitives]

/-- What a bond's leaf is the hash of. -/
def bondPreimage (p : Bytes32 × BondEntry) : Bytes :=
  domainPreimage (Bytes.ascii "midwimble.bond-leaf.v1")
    [p.1.toBytes, p.2.miningKey.toBytes, Bytes.le 8 p.2.value, Bytes.le 8 p.2.bondedUntil,
      Bytes.le 8 p.2.provenHeight, p.2.provenHash.toBytes]

/-- BLAKE3 does not collide on the leaves of these bonds, whose numbers are 64-bit. -/
structure BondsApart (met : Set (Bytes32 × BondEntry)) : Prop where
  value : ∀ p ∈ met, p.2.value < 2 ^ 64
  until_ : ∀ p ∈ met, p.2.bondedUntil < 2 ^ 64
  height : ∀ p ∈ met, p.2.provenHeight < 2 ^ 64
  inj : Set.InjOn blake3 {x | ∃ p ∈ met, x = bondPreimage p}

theorem BondsApart.mono {met met' : Set (Bytes32 × BondEntry)} (h : BondsApart met')
    (hsub : ∀ p ∈ met, p ∈ met') : BondsApart met where
  value p hp := h.value p (hsub p hp)
  until_ p hp := h.until_ p (hsub p hp)
  height p hp := h.height p (hsub p hp)
  inj := by
    rintro x ⟨p, hp, rfl⟩ y ⟨q, hq, rfl⟩ he
    exact h.inj ⟨p, hsub p hp, rfl⟩ ⟨q, hsub q hq, rfl⟩ he

theorem BondsApart.leaf_inj {met : Set (Bytes32 × BondEntry)} (h : BondsApart met) (hp : p ∈ met)
    (hq : q ∈ met) (he : bondLeaf p.1 p.2 = bondLeaf q.1 q.2) : p = q := by
  have hpre : bondPreimage p = bondPreimage q := h.inj ⟨p, hp, rfl⟩ ⟨q, hq, rfl⟩ he
  obtain ⟨-, hparts⟩ := domainPreimage_inj (by simp; decide) (by simp; decide) hpre
  simp only [List.cons.injEq] at hparts
  obtain ⟨hid, hkey, hvalue, huntil, hheight, hhash, -⟩ := hparts
  obtain ⟨id, key, value, until_, height, hash⟩ := p
  obtain ⟨id', key', value', until', height', hash'⟩ := q
  have hv := Bytes.le_inj (h.value _ hp) (h.value _ hq) hvalue
  have hu := Bytes.le_inj (h.until_ _ hp) (h.until_ _ hq) huntil
  have hh := Bytes.le_inj (h.height _ hp) (h.height _ hq) hheight
  cases toBytes_inj hid
  cases toBytes_inj hkey
  cases toBytes_inj hhash
  cases hv
  cases hu
  cases hh
  rfl

namespace BondSet

variable {b : BondSet} {id : Bytes32} {e : BondEntry} {met : Set (Bytes32 × BondEntry)}

/-- The accumulator holds exactly the leaves of the entries. -/
def Committed (b : BondSet) : Prop :=
  ∀ leaf, leaf ∈ b.leaves.coins ↔ ∃ id e, b.get id = some e ∧ bondLeaf id e = leaf

/-- Every entry is one of the bonds met. -/
def Within (b : BondSet) (met : Set (Bytes32 × BondEntry)) : Prop :=
  ∀ id e, b.get id = some e → (id, e) ∈ met

theorem committed_empty : empty.Committed := by
  intro leaf
  simp [empty, get, UtxoAccumulator.new]

theorem Committed.remove (h : b.Committed) (hw : b.Within met) (ha : BondsApart met) (k : Bytes32) :
    (b.remove k).Committed := by
  cases hk : b.get k with
  | none =>
    have hsame : b.remove k = b := by
      unfold BondSet.remove
      unfold BondSet.get at hk
      rw [hk]
    rwa [hsame]
  | some old =>
    have hleaves : (b.remove k).leaves = b.leaves.remove (bondLeaf k old) := by
      unfold BondSet.remove
      unfold BondSet.get at hk
      rw [hk]
    intro leaf
    rw [hleaves, UtxoAccumulator.remove, Std.ExtTreeSet.mem_erase, h leaf]
    constructor
    · rintro ⟨hne, id, e, he, rfl⟩
      refine ⟨id, e, ?_, rfl⟩
      rw [get_remove, if_neg, he]
      rintro rfl
      rw [hk, Option.some.injEq] at he
      subst he
      exact hne Std.ReflCmp.compare_self
    · rintro ⟨id, e, he, rfl⟩
      rw [get_remove] at he
      by_cases hid : k = id
      · rw [if_pos hid] at he
        cases he
      · rw [if_neg hid] at he
        refine ⟨fun heq => hid ?_, id, e, he, rfl⟩
        have hsame := ha.leaf_inj (hw k old hk) (hw id e he) (Std.LawfulEqCmp.eq_of_compare heq)
        exact congrArg Prod.fst hsame

theorem Within.remove (hw : b.Within met) (k : Bytes32) : (b.remove k).Within met := by
  intro id e he
  rw [get_remove] at he
  split at he
  · cases he
  · exact hw id e he

theorem leaves_insert (b : BondSet) (id : Bytes32) (e : BondEntry) :
    (b.insert id e).2.leaves = ((b.remove id).leaves.insert (bondLeaf id e)).2 := by
  unfold BondSet.insert BondSet.remove
  cases b.entries[id]? <;> rfl

omit [Primitives] in
theorem mem_insert_coins {a : UtxoAccumulator} {coin leaf : Bytes32} :
    leaf ∈ (a.insert coin).2.coins ↔ leaf = coin ∨ leaf ∈ a.coins := by
  rw [UtxoAccumulator.insert]
  by_cases hc : a.coins.contains coin = true
  · rw [if_pos hc]
    constructor
    · exact .inr
    · rintro (rfl | hl)
      · exact Std.ExtTreeSet.mem_iff_contains.mpr hc
      · exact hl
  · rw [if_neg hc, Std.ExtTreeSet.mem_insert, Std.LawfulEqCmp.compare_eq_iff_eq]
    exact or_congr_left eq_comm

theorem Committed.insert (h : b.Committed) (hw : b.Within met) (ha : BondsApart met)
    (id : Bytes32) (e : BondEntry) : (b.insert id e).2.Committed := by
  intro leaf
  rw [leaves_insert, mem_insert_coins, (h.remove hw ha id) leaf]
  constructor
  · rintro (rfl | ⟨k, d, hd, rfl⟩)
    · exact ⟨id, e, by rw [get_insert, if_pos rfl], rfl⟩
    · rw [get_remove] at hd
      by_cases hk : id = k
      · rw [if_pos hk] at hd
        cases hd
      · rw [if_neg hk] at hd
        exact ⟨k, d, by rw [get_insert, if_neg hk, hd], rfl⟩
  · rintro ⟨k, d, hd, rfl⟩
    rw [get_insert] at hd
    by_cases hk : id = k
    · rw [if_pos hk] at hd
      cases hd
      subst hk
      exact .inl rfl
    · rw [if_neg hk] at hd
      exact .inr ⟨k, d, by rw [get_remove, if_neg hk, hd], rfl⟩

theorem Within.insert (hw : b.Within met) (hm : (id, e) ∈ met) : (b.insert id e).2.Within met := by
  intro k d hd
  rw [get_insert] at hd
  by_cases hk : id = k
  · rw [if_pos hk] at hd
    cases hd
    subst hk
    exact hm
  · rw [if_neg hk] at hd
    exact hw k d hd

theorem Committed.root_eq {b' : BondSet} (h : b.Committed) (h' : b'.Committed)
    (he : b.entries = b'.entries) : b.root = b'.root := by
  have hcoins : b.leaves.coins = b'.leaves.coins := by
    apply Std.ExtTreeSet.ext_mem
    intro leaf
    rw [h leaf, h' leaf]
    simp only [get, he]
  rw [root, root, UtxoAccumulator.root, UtxoAccumulator.root, hcoins]

/-- What changes a bond set. -/
inductive Edit
  | insert (id : Bytes32) (entry : BondEntry)
  | remove (id : Bytes32)
  | pruneExpired (earliestTimestamp : Nat)
  | revokeAbove (height : Nat)

def edit (b : BondSet) : Edit → BondSet
  | .insert id entry => (b.insert id entry).2
  | .remove id => b.remove id
  | .pruneExpired earliestTimestamp => (b.pruneExpired earliestTimestamp).2
  | .revokeAbove height => (b.revokeAbove height).2

/-- The set that edits of the empty one leave, oldest first. -/
def after (edits : List Edit) : BondSet := edits.foldl edit empty

/-- The bonds that edits insert. -/
def inserted (edits : List Edit) : Set (Bytes32 × BondEntry) :=
  {p | Edit.insert p.1 p.2 ∈ edits}

theorem after_append (edits more : List Edit) :
    after (edits ++ more) = more.foldl edit (after edits) := by
  rw [after, List.foldl_append, ← after]

theorem foldl_remove (b : BondSet) (dropped : List (Bytes32 × BondEntry)) :
    dropped.foldl (fun b p => b.remove p.1) b =
      (dropped.map fun p => Edit.remove p.1).foldl edit b := by
  rw [List.foldl_map]
  rfl

theorem foldl_insert (b : BondSet) (added : List (Bytes32 × BondEntry)) :
    added.foldl (fun b p => (b.insert p.1 p.2).2) b =
      (added.map fun p => Edit.insert p.1 p.2).foldl edit b := by
  rw [List.foldl_map]
  rfl

theorem Committed.removes (h : b.Committed) (hw : b.Within met) (ha : BondsApart met)
    (dropped : List (Bytes32 × BondEntry)) :
    (dropped.foldl (fun b p => b.remove p.1) b).Committed ∧
      (dropped.foldl (fun b p => b.remove p.1) b).Within met := by
  induction dropped generalizing b with
  | nil => exact ⟨h, hw⟩
  | cons p dropped ih => exact ih (h.remove hw ha p.1) (hw.remove p.1)

theorem Committed.edit (h : b.Committed) (hw : b.Within met) (ha : BondsApart met) (change : Edit)
    (hin : ∀ id e, change = .insert id e → (id, e) ∈ met) :
    (b.edit change).Committed ∧ (b.edit change).Within met := by
  cases change with
  | insert id e => exact ⟨h.insert hw ha id e, hw.insert (hin id e rfl)⟩
  | remove id => exact ⟨h.remove hw ha id, hw.remove id⟩
  | pruneExpired earliestTimestamp => exact h.removes hw ha _
  | revokeAbove height => exact h.removes hw ha _

theorem committed_edits (h : b.Committed) (hw : b.Within met) (ha : BondsApart met)
    (edits : List Edit) (hin : ∀ p ∈ inserted edits, p ∈ met) :
    (edits.foldl BondSet.edit b).Committed ∧ (edits.foldl BondSet.edit b).Within met := by
  induction edits generalizing b with
  | nil => exact ⟨h, hw⟩
  | cons change edits ih =>
    obtain ⟨hc, hw'⟩ := h.edit hw ha change fun id e he =>
      hin (id, e) (by rw [he]; exact List.mem_cons_self)
    exact ih hc hw' fun p hp => hin p (List.mem_cons_of_mem _ hp)

theorem committed_after (edits : List Edit) (ha : BondsApart (inserted edits)) :
    (after edits).Committed := by
  have hw : empty.Within (inserted edits) := by
    intro id e he
    simp [empty, get] at he
  exact (committed_edits committed_empty hw ha edits fun p hp => hp).1

theorem within_after (edits : List Edit) : (after edits).Within (inserted edits) := by
  induction edits using List.reverseRecOn with
  | nil =>
    intro id e he
    simp [after, empty, get] at he
  | append_singleton edits change ih =>
    rw [after_append, List.foldl_cons, List.foldl_nil]
    have hsub : ∀ id e, (after edits).get id = some e → (id, e) ∈ inserted (edits ++ [change]) :=
      fun id e he => List.mem_append_left _ (ih id e he)
    cases change with
    | insert id e => exact Within.insert hsub (List.mem_append_right _ List.mem_cons_self)
    | remove id => exact Within.remove hsub id
    | pruneExpired earliestTimestamp =>
      exact fun id e he => hsub id e (get_removeWhere.mp he).1
    | revokeAbove height =>
      exact fun id e he => hsub id e (get_removeWhere.mp he).1

theorem root_after_eq {edits edits' : List Edit}
    (ha : BondsApart (inserted edits ∪ inserted edits'))
    (he : (after edits).entries = (after edits').entries) :
    (after edits).root = (after edits').root :=
  (committed_after edits (ha.mono fun _ hp => .inl hp)).root_eq
    (committed_after edits' (ha.mono fun _ hp => .inr hp)) he

theorem get_inserts {target : BondSet} (b : BondSet) (added : List (Bytes32 × BondEntry))
    (h : ∀ p ∈ added, target.get p.1 = some p.2) (id : Bytes32) :
    (added.foldl (fun b p => (b.insert p.1 p.2).2) b).get id =
      if id ∈ added.map Prod.fst then target.get id else b.get id := by
  induction added generalizing b with
  | nil => simp
  | cons p added ih =>
    rw [List.foldl_cons, ih _ fun q hq => h q (List.mem_cons_of_mem _ hq), get_insert,
      List.map_cons]
    by_cases hd : id ∈ added.map Prod.fst
    · rw [if_pos hd, if_pos (List.mem_cons_of_mem _ hd)]
    · rw [if_neg hd]
      by_cases hp : p.1 = id
      · rw [if_pos hp, if_pos (hp ▸ List.mem_cons_self), ← hp, h p List.mem_cons_self]
      · rw [if_neg hp, if_neg (by simp only [List.mem_cons, not_or]; exact ⟨Ne.symm hp, hd⟩)]

theorem get_inserts_of_not_mem (b : BondSet) {added : List (Bytes32 × BondEntry)}
    (h : id ∉ added.map Prod.fst) :
    (added.foldl (fun b p => (b.insert p.1 p.2).2) b).get id = b.get id := by
  induction added generalizing b with
  | nil => rfl
  | cons p added ih =>
    rw [List.map_cons, List.mem_cons, not_or] at h
    rw [List.foldl_cons, ih _ h.2, get_insert, if_neg (Ne.symm h.1)]

end BondSet

theorem insertBonds_fresh {registered : List (Bytes32 × BondEntry)} {bonds bonds' : BondSet}
    (h : registered.foldlM insertBond bonds = .ok bonds') :
    ∀ p ∈ registered, bonds.get p.1 = none := by
  induction registered generalizing bonds with
  | nil => exact nofun
  | cons p registered ih =>
    obtain ⟨mid, hp, hr⟩ := foldlM_cons_eq_ok.mp h
    obtain ⟨hnone, rfl⟩ := insertBond_eq_ok.mp hp
    intro q hq
    rcases List.mem_cons.mp hq with rfl | hq
    · exact hnone
    · have hmid := ih hr q hq
      rw [BondSet.get_insert] at hmid
      split at hmid
      · cases hmid
      · exact hmid

section Block

variable {s : State} {batch : Batch} {ts : List Nat} {skip : Bool}

theorem BlockSteps.base_bonds (b : BlockSteps s batch ts skip) :
    b.base.bonds = ((pruneBonds s ts).1 ++ b.revoked).foldl (fun bonds p => bonds.remove p.1)
      s.bonds := by
  have hpruned : (pruneBonds s ts).2.bonds =
      (pruneBonds s ts).1.foldl (fun bonds p => bonds.remove p.1) s.bonds := rfl
  rw [List.foldl_append, ← hpruned]
  rcases applyRelay_eq_ok.mp b.relayed with
    ⟨-, -, hrevoked, hbase⟩ | ⟨relayed, r, -, -, hrevoked, hbase⟩
  · rw [hrevoked, hbase]
    rfl
  · rw [hrevoked, hbase]
    cases b.change.forkFrom <;> rfl

theorem BlockSteps.removed_held (b : BlockSteps s batch ts skip) :
    ∀ p ∈ (pruneBonds s ts).1 ++ b.revoked, s.bonds.get p.1 = some p.2 := by
  intro p hp
  rcases List.mem_append.mp hp with hp | hp
  · have hp : (p.1, p.2) ∈ (s.bonds.pruneExpired (minNextTimestamp ts)).1 := hp
    rw [BondSet.pruneExpired] at hp
    exact (BondSet.mem_removeWhere.mp hp).1
  · rcases applyRelay_eq_ok.mp b.relayed with ⟨-, -, hrevoked, -⟩ | ⟨relayed, r, -, -, hrevoked, -⟩
    · rw [hrevoked] at hp
      cases hp
    · rw [hrevoked] at hp
      cases hfork : b.change.forkFrom with
      | none =>
        rw [hfork] at hp
        cases hp
      | some height =>
        rw [hfork] at hp
        have hp : (p.1, p.2) ∈ ((pruneBonds s ts).2.bonds.revokeAbove height).1 := hp
        rw [BondSet.revokeAbove] at hp
        exact get_pruneBonds (BondSet.mem_removeWhere.mp hp).1

theorem BlockSteps.registered_spec (b : BlockSteps s batch ts skip) :
    b.registered.foldlM insertBond b.base.bonds = .ok b.bonds ∧
      ∀ p ∈ b.registered, ∃ r ∈ batch.registrations, r.bondId = p.1 := by
  have hreg := b.registers
  simp only [registerBonds, bind_eq_ok, Except.ok.injEq, Prod.mk.injEq] at hreg
  obtain ⟨_, -, registered, hmap, bonds, hinsert, rfl, rfl⟩ := hreg
  constructor
  · exact hinsert
  · intro p hp
    obtain ⟨r, hr, hv⟩ := mem_of_mapM_eq_ok hmap hp
    simp only [verifyRegistration, bind_eq_ok, Except.ok.injEq] at hv
    obtain ⟨entry, -, rfl⟩ := hv
    exact ⟨r, hr, rfl⟩

theorem BlockSteps.apply_effects (b : BlockSteps s batch ts skip) :
    applyBondEffects s.bonds b.next.effects = b.next.bonds := by
  have hadded := insertBond_foldlM b.registered_spec.1
  rw [b.base_bonds] at hadded
  exact hadded.symm

theorem BlockSteps.undo_effects (b : BlockSteps s batch ts skip) :
    (undoBondEffects b.next.bonds b.next.effects).entries = s.bonds.entries := by
  apply Std.ExtTreeMap.ext_getElem?
  intro id
  have hnext : b.next.bonds.get id = (b.registered.foldl (fun bonds p => (bonds.insert p.1 p.2).2)
      b.base.bonds).get id := congrArg (BondSet.get · id) (insertBond_foldlM b.registered_spec.1)
  have hundo : (undoBondEffects b.next.bonds b.next.effects).get id =
      if id ∈ ((pruneBonds s ts).1 ++ b.revoked).map Prod.fst then s.bonds.get id
      else if id ∈ b.registered.map Prod.fst then none else b.next.bonds.get id := by
    rw [undoBondEffects, ← BondSet.get_removes]
    exact BondSet.get_inserts _ _ b.removed_held id
  refine hundo.trans ?_
  have hbase : b.base.bonds.get id =
      if id ∈ ((pruneBonds s ts).1 ++ b.revoked).map Prod.fst then none else s.bonds.get id := by
    rw [b.base_bonds, BondSet.get_removes]
  by_cases hr : id ∈ ((pruneBonds s ts).1 ++ b.revoked).map Prod.fst
  · rw [if_pos hr]
    rfl
  · rw [if_neg hr] at hbase ⊢
    by_cases ha : id ∈ b.registered.map Prod.fst
    · obtain ⟨p, hp, rfl⟩ := List.mem_map.mp ha
      rw [if_pos ha]
      exact (insertBonds_fresh b.registered_spec.1 p hp).symm.trans hbase
    · rw [if_neg ha, hnext, BondSet.get_inserts_of_not_mem _ ha]
      exact hbase

end Block

section Effects

variable {s next : State} {batch : Batch} {ts : List Nat} {now : Nat} {pre : Option Bytes32}
  {skip : Bool}

theorem apply_bond_effects (h : applyBatchInternal s batch ts now pre skip = .ok next) :
    applyBondEffects s.bonds next.effects = next.bonds ∧
      (undoBondEffects next.bonds next.effects).entries = s.bonds.entries ∧
      ∀ p ∈ next.effects.bondsAdded, ∃ r ∈ batch.registrations, r.bondId = p.1 := by
  obtain ⟨-, -, b, -, rfl⟩ := applyBatchInternal_eq_ok.mp h
  exact ⟨b.apply_effects, b.undo_effects, b.registered_spec.2⟩

/-- The edits a diff makes, and those that take it back. -/
def applyEdits (effects : BlockEffects) : List BondSet.Edit :=
  (effects.bondsRemoved.map fun p => .remove p.1) ++
    effects.bondsAdded.map fun p => .insert p.1 p.2

def undoEdits (effects : BlockEffects) : List BondSet.Edit :=
  (effects.bondsAdded.map fun p => .remove p.1) ++
    effects.bondsRemoved.map fun p => .insert p.1 p.2

theorem applyBondEffects_after (edits : List BondSet.Edit) (effects : BlockEffects) :
    applyBondEffects (.after edits) effects = .after (edits ++ applyEdits effects) := by
  rw [BondSet.after_append, applyEdits, List.foldl_append, ← BondSet.foldl_remove,
    ← BondSet.foldl_insert]
  rfl

theorem undoBondEffects_after (edits : List BondSet.Edit) (effects : BlockEffects) :
    undoBondEffects (.after edits) effects = .after (edits ++ undoEdits effects) := by
  rw [BondSet.after_append, undoEdits, List.foldl_append, ← BondSet.foldl_remove,
    ← BondSet.foldl_insert]
  rfl

omit [Primitives] in
theorem mem_inserted_append {edits more : List BondSet.Edit} :
    p ∈ BondSet.inserted (edits ++ more) ↔
      p ∈ BondSet.inserted edits ∨ p ∈ BondSet.inserted more :=
  List.mem_append

omit [Primitives] in
theorem mem_inserted_edits {removed added : List (Bytes32 × BondEntry)} :
    p ∈ BondSet.inserted ((removed.map fun q => .remove q.1) ++
      added.map fun q => .insert q.1 q.2) ↔ p ∈ added := by
  simp [BondSet.inserted]

theorem Applies.bond_edits (h : Run blocks s) :
    ∃ edits, s.bonds = BondSet.after edits ∧ ∀ p ∈ BondSet.inserted edits,
      ∃ batch ∈ blocks, ∃ r ∈ batch.registrations, r.bondId = p.1 := by
  unfold Run at h
  induction h with
  | start => exact ⟨[], rfl, nofun⟩
  | block hrun hblock ih =>
    obtain ⟨edits, he, hin⟩ := ih
    obtain ⟨ts, now, pre, skip, hblock⟩ := hblock
    obtain ⟨happly, -, hadded⟩ := apply_bond_effects hblock
    rw [he, applyBondEffects_after] at happly
    refine ⟨_, happly.symm, ?_⟩
    intro p hp
    rcases mem_inserted_append.mp hp with hp | hp
    · obtain ⟨batch, hb, hr⟩ := hin p hp
      exact ⟨batch, List.mem_append_left _ hb, hr⟩
    · exact ⟨_, List.mem_append_right _ (List.mem_singleton_self _),
        hadded p (mem_inserted_edits.mp hp)⟩

end Effects

/-- Bond set diffs undo exactly: a set's root depends only on its entries, a block's diff takes
the parent's set to the block's, and undoing it gives the parent's entries and root back. -/
theorem bond_diffs_undo :
    (∀ edits edits' : List BondSet.Edit,
      BondsApart (BondSet.inserted edits ∪ BondSet.inserted edits') →
      (BondSet.after edits).entries = (BondSet.after edits').entries →
        (BondSet.after edits).root = (BondSet.after edits').root) ∧
    (∀ (blocks : List Batch) (s : State), Run blocks s → ∃ edits, s.bonds = BondSet.after edits ∧
      ∀ p ∈ BondSet.inserted edits, ∃ batch ∈ blocks, ∃ r ∈ batch.registrations,
        r.bondId = p.1) ∧
    ∀ (s : State) (edits : List BondSet.Edit) (batch : Batch) (ts : List Nat) (now : Nat)
      (pre : Option Bytes32) (skip : Bool) (next : State), s.bonds = BondSet.after edits →
      applyBatchInternal s batch ts now pre skip = .ok next →
        applyBondEffects s.bonds next.effects = next.bonds ∧
        (undoBondEffects next.bonds next.effects).entries = s.bonds.entries ∧
        (BondsApart (BondSet.inserted edits ∪ {p | p ∈ next.effects.bondsAdded}) →
          (undoBondEffects next.bonds next.effects).root = s.bonds.root) := by
  refine ⟨fun _ _ => BondSet.root_after_eq, fun _ _ => Applies.bond_edits, ?_⟩
  intro s edits batch ts now pre skip next hbonds h
  obtain ⟨happly, hundo, -⟩ := apply_bond_effects h
  have hheld : ∀ p ∈ next.effects.bondsRemoved, p ∈ BondSet.inserted edits := by
    obtain ⟨-, -, b, -, rfl⟩ := applyBatchInternal_eq_ok.mp h
    intro p hp
    have hin := b.removed_held p hp
    rw [hbonds] at hin
    exact BondSet.within_after edits _ _ hin
  refine ⟨happly, hundo, fun ha => ?_⟩
  have hafter := happly
  rw [hbonds, applyBondEffects_after] at hafter
  rw [← hafter, undoBondEffects_after] at hundo ⊢
  rw [hbonds] at hundo ⊢
  apply BondSet.root_after_eq _ hundo
  apply ha.mono
  intro p hp
  rcases hp with hp | hp
  · rcases mem_inserted_append.mp hp with hp | hp
    · rcases mem_inserted_append.mp hp with hp | hp
      · exact .inl hp
      · exact .inr (mem_inserted_edits.mp hp)
    · exact .inl (hheld p (mem_inserted_edits.mp hp))
  · exact .inl hp

def bondOf (n : Nat) : BondEntry := ⟨7, n, 9, 3, 5⟩

/-- Three bonds that do not collide. -/
def threeBonds : List (Bytes32 × BondEntry) := [(1, bondOf 1), (2, bondOf 2), (3, bondOf 2)]

omit [Primitives] in
theorem threeBonds_apart :
    letI := Primitives.mixing
    BondsApart {p | p ∈ threeBonds} := by
  let := Primitives.mixing
  have hinj : ∀ p ∈ threeBonds, ∀ q ∈ threeBonds,
      blake3 (bondPreimage p) = blake3 (bondPreimage q) → bondPreimage p = bondPreimage q := by
    decide +kernel
  constructor
  · show ∀ p ∈ threeBonds, p.2.value < 2 ^ 64
    decide
  · show ∀ p ∈ threeBonds, p.2.bondedUntil < 2 ^ 64
    decide
  · show ∀ p ∈ threeBonds, p.2.provenHeight < 2 ^ 64
    decide
  · rintro x ⟨p, hp, rfl⟩ y ⟨q, hq, rfl⟩ he
    exact hinj p hp q hq he

omit [Primitives] in
/-- Two orders of edits agree on the root, and the block that registers a bond is undone. -/
theorem bond_diffs_undo_two :
    letI := racedPrimitives
    newMiddleState.bonds.entries.isEmpty = false ∧
      applyBondEffects newState.bonds newMiddleState.effects = newMiddleState.bonds ∧
        (undoBondEffects newMiddleState.bonds newMiddleState.effects).entries.isEmpty = true ∧
          (undoBondEffects newMiddleState.bonds newMiddleState.effects).root =
            newState.bonds.root ∧
            letI := Primitives.mixing
            (BondSet.after [.insert 1 (bondOf 1), .insert 2 (bondOf 2)]).root =
              (BondSet.after [.insert 2 (bondOf 2), .insert 3 (bondOf 2), .insert 1 (bondOf 1),
                .remove 3]).root := by
  let := racedPrimitives
  obtain ⟨edits, hedits, hregistered⟩ := bond_diffs_undo.2.1 _ _ newState_chain.run
  have hnone : BondSet.inserted edits = ∅ := by
    refine Set.eq_empty_of_forall_notMem fun p hp => ?_
    obtain ⟨b, hb, r, hr, -⟩ := hregistered p hp
    have hb : b = .genesis ∨ b = newBlock := by simpa using hb
    rcases hb with rfl | rfl <;> cases hr
  have haccepted : applyBatch newState newMiddle ([Batch.genesis, newBlock].map Batch.timestamp)
      newMiddle.timestamp = .ok newMiddleState := raced_blocks.2.2.2.1.accepted
  obtain ⟨happlies, hundoes, hroot⟩ :=
    bond_diffs_undo.2.2 newState edits newMiddle _ _ _ _ newMiddleState hedits haccepted
  have hempty : newState.bonds.entries.isEmpty = true := by decide +kernel
  obtain ⟨entry, hone, hvalue, huntil, hheight⟩ := newMiddle_registers
  refine ⟨by decide +kernel, happlies, by rw [hundoes, hempty], hroot ?_, ?_⟩
  · rw [hnone, Set.empty_union, hone]
    have hall : ∀ p ∈ {p | p ∈ [((0 : Bytes32), entry)]}, p = (0, entry) :=
      fun p hp => List.mem_singleton.mp hp
    constructor
    · intro p hp
      rw [hall p hp]
      exact hvalue
    · intro p hp
      rw [hall p hp]
      exact huntil
    · intro p hp
      rw [hall p hp]
      exact hheight
    · rintro x ⟨p, hp, rfl⟩ y ⟨q, hq, rfl⟩ -
      rw [hall p hp, hall q hq]
  · let := Primitives.mixing
    apply bond_diffs_undo.1
    · apply threeBonds_apart.mono
      rintro ⟨id, e⟩ (hp | hp)
      · simp only [BondSet.inserted, Set.mem_ofPred_eq, List.mem_cons, BondSet.Edit.insert.injEq,
          List.not_mem_nil, or_false] at hp
        rcases hp with ⟨rfl, rfl⟩ | ⟨rfl, rfl⟩ <;> simp [threeBonds]
      · simp only [BondSet.inserted, Set.mem_ofPred_eq, List.mem_cons, BondSet.Edit.insert.injEq,
          List.not_mem_nil, or_false, reduceCtorEq] at hp
        rcases hp with ⟨rfl, rfl⟩ | ⟨rfl, rfl⟩ | ⟨rfl, rfl⟩ <;> simp [threeBonds]
    · decide +kernel

end Midwimble
