import Midwimble.Storage.Ledgers

namespace Midwimble
open Fallible OrderedMap
set_option autoImplicit true

variable [Primitives]

theorem mem_createdGroups {batch : Batch} : (gid, g) ∈ createdGroups batch ↔
    ∃ p ∈ blockGroups batch, gid = (StoredGroup.fromGroup p.1).id ∧
      g = StoredGroup.fromGroup p.1 := by
  rw [createdGroups, List.mem_map]
  constructor
  · rintro ⟨p, hp, he⟩
    obtain ⟨rfl, rfl⟩ := Prod.mk.inj he
    exact ⟨p, hp, rfl, rfl⟩
  · rintro ⟨p, hp, rfl, rfl⟩
    exact ⟨p, hp, rfl⟩

theorem mem_createdMembers {batch : Batch} {i : Nat} : (c, gid, i) ∈ createdMembers batch ↔
    ∃ p ∈ blockGroups batch, ∃ o, p.1.outputs[i]? = some o ∧ o.commitment = c ∧
      gid = (StoredGroup.fromGroup p.1).id := by
  rw [createdMembers, List.mem_flatMap]
  constructor
  · rintro ⟨p, hp, he⟩
    obtain ⟨⟨o, j⟩, hj, he⟩ := List.mem_map.mp he
    simp only [Prod.mk.injEq] at he
    obtain ⟨rfl, rfl, rfl⟩ := he
    exact ⟨p, hp, o, List.mem_zipIdx_iff_getElem?.mp hj, rfl, rfl⟩
  · rintro ⟨p, hp, o, ho, rfl, rfl⟩
    exact ⟨p, hp, List.mem_map.mpr ⟨(o, i), List.mem_zipIdx_iff_getElem?.mpr ho, rfl⟩⟩

omit [Primitives] in
theorem getElem?_fromGroup {g : OutputGroup} {i : Nat} :
    (StoredGroup.fromGroup g).members[i]? = some (.unspent o) ↔ g.outputs[i]? = some o := by
  rw [StoredGroup.fromGroup, List.getElem?_map, Option.map_eq_some_iff]
  constructor
  · rintro ⟨o', ho, he⟩
    obtain rfl := GroupMember.unspent.inj he
    exact ho
  · intro ho
    exact ⟨o, ho, rfl⟩

omit [Primitives] in
theorem mem_created {batch : Batch} {p : OutputGroup × Bool} (hp : p ∈ blockGroups batch)
    (ho : o ∈ p.1.outputs) : (o, p.2) ∈ batch.created := by
  rw [← outputs_blockGroups]
  exact List.mem_flatMap.mpr ⟨p, hp, List.mem_map_of_mem ho⟩

variable {scan : SpendScan} {l : Ledger} {done : List Point32} {chain : List Batch}

/-- The groups once a block's inputs are spent: those that still hold an unspent output. -/
theorem SpendScan.Shows.groups (h : scan.Shows l done) (hl : l.Covers chain) {gid : Bytes32} :
    (scan.working.toList.foldl putGroup l.groups)[gid]? = some g' ↔
      ∃ g, l.groups[gid]? = some g ∧ g' = g.after done ∧ g'.isFullySpent = false := by
  obtain ⟨hout, hin⟩ := getElem?_putGroups l.groups (pairwise_toList scan.working) gid
  cases hw : scan.working[gid]? with
  | some w =>
    rw [hin w (Std.ExtTreeMap.mem_toList_iff_getElem?_eq_some.mpr hw)]
    obtain ⟨g₀, hg₀, rfl, -⟩ := (h.working gid w).mp hw
    constructor
    · intro hg'
      split at hg'
      · cases hg'
      · rename_i hfull
        obtain rfl := Option.some.inj hg'
        exact ⟨g₀, hg₀, rfl, Bool.not_eq_true _ ▸ hfull⟩
    · rintro ⟨g, hg, rfl, hfull⟩
      obtain rfl := Option.some.inj (hg₀.symm.trans hg)
      rw [hfull]
      rfl
  | none =>
    have hkey : gid ∉ scan.working.toList.map Prod.fst := by
      intro hk
      obtain ⟨p, hp, rfl⟩ := List.mem_map.mp hk
      rw [Std.ExtTreeMap.mem_toList_iff_getElem?_eq_some.mp hp] at hw
      cases hw
    rw [hout hkey]
    have hsame : ∀ g, l.groups[gid]? = some g → g.after done = g := by
      intro g hg
      apply StoredGroup.after_eq_self
      intro i o hi hdone
      have hworking := (h.working gid (g.after done)).mpr
        ⟨g, hg, rfl, _, hdone, i, hl.covered _ _ _ _ hg hi⟩
      rw [hw] at hworking
      cases hworking
    constructor
    · intro hg
      exact ⟨g', hg, (hsame g' hg).symm, hl.live _ _ hg⟩
    · rintro ⟨g, hg, rfl, -⟩
      rw [hsame g hg, hg]

/-- A block's groups have ids of their own, and none that is left after its spends. -/
structure FreshGroups (batch : Batch) (groups : Std.ExtTreeMap Bytes32 StoredGroup) : Prop where
  nodup : ((createdGroups batch).map Prod.fst).Nodup
  absent : ∀ gid ∈ (createdGroups batch).map Prod.fst, groups[gid]? = none

section Block

variable {s s' : State} {batch : Batch} {S : Set Batch}

theorem SpendScan.Shows.fresh (h : scan.Shows l batch.body.inputCommitments)
    (hl : l.Covers chain) (hu : l.utxos = s.utxos) (ha : StoredApart S) (hsub : ∀ b ∈ chain, b ∈ S)
    (hbatch : batch ∈ S)
    (hstructures : ∀ b ∈ chain ++ [batch], ∀ p ∈ blockGroups b, p.1.checkStructure = .ok ())
    (hturns : Turns s batch s') :
    FreshGroups batch (scan.working.toList.foldl putGroup l.groups) := by
  have hnew : ∀ p ∈ blockGroups batch, p.1.checkStructure = .ok () :=
    hstructures batch (List.mem_append_right _ (List.mem_singleton_self _))
  constructor
  · have hdistinct : ((blockGroups batch).flatMap fun p =>
        p.1.outputs.map Output.commitment).Nodup := by
      have hd := hturns.distinct
      rw [← outputs_blockGroups, List.map_flatMap] at hd
      simpa only [List.map_map, Function.comp_def] using hd
    have happart := (List.nodup_flatMap.mp hdistinct).2
    rw [createdGroups, List.map_map, List.Nodup, List.pairwise_map]
    apply happart.imp_of_mem
    intro p q hp hq hdisjoint he
    have hsame := ha.commitments_eq hbatch hbatch hp hq (hnew p hp) (hnew q hq) he
    obtain ⟨o, ho⟩ := List.exists_mem_of_ne_nil _ (checkStructure_eq_ok (hnew p hp)).1
    have hmem : o.commitment ∈ p.1.outputs.map Output.commitment := List.mem_map_of_mem ho
    have hmem' : o.commitment ∈ q.1.outputs.map Output.commitment := hsame ▸ hmem
    exact hdisjoint hmem hmem'
  · intro gid hgid
    obtain ⟨⟨_, _⟩, hmem, rfl⟩ := List.mem_map.mp hgid
    obtain ⟨p, hp, rfl, -⟩ := mem_createdGroups.mp hmem
    cases hleft : (scan.working.toList.foldl putGroup l.groups)[(StoredGroup.fromGroup p.1).id]? with
    | none => rfl
    | some g' =>
      obtain ⟨g, hg, rfl, hlive⟩ := (h.groups hl).mp hleft
      obtain ⟨i, o, hi⟩ := StoredGroup.isFullySpent_eq_false.mp hlive
      obtain ⟨hi, -⟩ := StoredGroup.getElem?_after_eq_unspent.mp hi
      obtain ⟨b₀, hb₀, p₀, hp₀, hid, spent, rfl⟩ := hl.origin _ _ hg
      have hsame := ha.commitments_eq (hsub b₀ hb₀) hbatch hp₀ hp
        (hstructures b₀ (List.mem_append_left _ hb₀) p₀ hp₀) (hnew p hp) hid
      have hin : o.commitment ∈ p.1.outputs.map Output.commitment := by
        rw [← hsame, ← commitments_fromGroup, ← StoredGroup.commitments_after _ spent]
        exact List.mem_map.mpr ⟨_, List.mem_of_getElem? hi, rfl⟩
      obtain ⟨o', ho', hc⟩ := List.mem_map.mp hin
      have habsent := hturns.absent _ (mem_created hp ho')
      have hheld : o.commitment ∈ l.utxos :=
        (hl.members _).mp (mem_iff_exists.mpr ⟨_, hl.covered _ _ _ _ hg hi⟩)
      rw [hu, ← hc] at hheld
      obtain ⟨e, he⟩ := mem_iff_exists.mp hheld
      rw [habsent] at he
      cases he

theorem createdMembers_absent (h : scan.Shows l batch.body.inputCommitments)
    (hl : l.Covers chain) (hu : l.utxos = s.utxos) (hturns : Turns s batch s') :
    ∀ c ∈ (createdMembers batch).map Prod.fst, l.members[c]? = none ∧ scan.members[c]? = none ∧
      l.utxos[c]? = none ∧ scan.utxos[c]? = none := by
  intro c hc
  rw [keys_createdMembers] at hc
  obtain ⟨o, ho, rfl⟩ := List.mem_map.mp hc
  have hutxo : l.utxos[o.1.commitment]? = none := by rw [hu, hturns.absent o ho]
  have hmember : l.members[o.1.commitment]? = none := by
    rw [← Option.not_isSome_iff_eq_none, ← Std.ExtTreeMap.mem_iff_isSome_getElem?, hl.members,
      Std.ExtTreeMap.mem_iff_isSome_getElem?, hutxo]
    exact Bool.false_ne_true
  rw [h.members, h.utxos, if_neg (hturns.apart o ho), if_neg (hturns.apart o ho)]
  exact ⟨hmember, hmember, hutxo, hutxo⟩

/-- What a ledger's tables hold once a block's outputs are in and what it spends is out. -/
structure Ledger.Turned (l l' : Ledger) (batch : Batch) (height : Nat) : Prop where
  groups : ∀ gid g, l'.groups[gid]? = some g ↔ (gid, g) ∈ createdGroups batch ∨
    ∃ g₀, l.groups[gid]? = some g₀ ∧ g = g₀.after batch.body.inputCommitments ∧
      g.isFullySpent = false
  members : ∀ c x, l'.members[c]? = some x ↔ (c, x) ∈ createdMembers batch ∨
    c ∉ batch.body.inputCommitments ∧ l.members[c]? = some x
  utxos : ∀ c e, l'.utxos[c]? = some e ↔ (c, e) ∈ createdRecords height batch ∨
    c ∉ batch.body.inputCommitments ∧ l.utxos[c]? = some e

theorem Ledger.Covers.turned (hl : l.Covers chain)
    (h : scan.Shows l batch.body.inputCommitments) (hu : l.utxos = s.utxos)
    (hturns : Turns s batch s')
    (hfresh : FreshGroups batch (scan.working.toList.foldl putGroup l.groups))
    {l' : Ledger} (hutxos : l'.utxos = insertAll scan.utxos (createdRecords height batch))
    (hmembers : l'.members = insertAll scan.members (createdMembers batch))
    (hgroups : l'.groups =
      insertAll (scan.working.toList.foldl putGroup l.groups) (createdGroups batch)) :
    l.Turned l' batch height := by
  have habsent := createdMembers_absent h hl hu hturns
  have hnodup : ((createdMembers batch).map Prod.fst).Nodup := by
    rw [keys_createdMembers]
    exact hturns.distinct
  have hkeys : (createdRecords height batch).map Prod.fst =
      (createdMembers batch).map Prod.fst := by
    rw [keys_createdRecords, keys_createdMembers]
  constructor
  · intro gid g
    rw [hgroups, getElem?_insertAll_eq_some hfresh.nodup hfresh.absent, h.groups hl]
  · intro c x
    rw [hmembers, getElem?_insertAll_eq_some hnodup fun k hk => (habsent k hk).2.1, h.members]
    by_cases hc : c ∈ batch.body.inputCommitments <;> simp [hc]
  · intro c e
    rw [hutxos, getElem?_insertAll_eq_some (hkeys ▸ hnodup)
      fun k hk => (habsent k (hkeys ▸ hk)).2.2.2, h.utxos]
    by_cases hc : c ∈ batch.body.inputCommitments <;> simp [hc]

section Turned

variable {l' : Ledger} (ht : l.Turned l' batch height) (hl : l.Covers chain)
include ht hl

theorem Ledger.Turned.place {c : Point32} {gid : Bytes32} {i : Nat}
    (hc : l'.members[c]? = some (gid, i)) :
    ∃ (g : StoredGroup) (o : Output), l'.groups[gid]? = some g ∧
      g.members[i]? = some (.unspent o) ∧ o.commitment = c := by
  rcases (ht.members c _).mp hc with hc | ⟨hnot, hc⟩
  · obtain ⟨p, hp, o, ho, rfl, rfl⟩ := mem_createdMembers.mp hc
    exact ⟨_, o, (ht.groups _ _).mpr (.inl (mem_createdGroups.mpr ⟨p, hp, rfl, rfl⟩)),
      getElem?_fromGroup.mpr ho, rfl⟩
  · obtain ⟨g, o, hg, hi, rfl⟩ := hl.place _ _ _ hc
    have hi' : (g.after batch.body.inputCommitments).members[i]? = some (.unspent o) :=
      StoredGroup.getElem?_after_eq_unspent.mpr ⟨hi, hnot⟩
    exact ⟨_, o, (ht.groups _ _).mpr (.inr ⟨g, hg, rfl,
      StoredGroup.isFullySpent_eq_false.mpr ⟨i, o, hi'⟩⟩), hi', rfl⟩

theorem Ledger.Turned.covered {gid : Bytes32} {g : StoredGroup} {i : Nat} {o : Output}
    (hg : l'.groups[gid]? = some g) (hi : g.members[i]? = some (.unspent o)) :
    l'.members[o.commitment]? = some (gid, i) := by
  rcases (ht.groups gid g).mp hg with hg | ⟨g₀, hg₀, rfl, -⟩
  · obtain ⟨p, hp, rfl, rfl⟩ := mem_createdGroups.mp hg
    exact (ht.members _ _).mpr (.inl (mem_createdMembers.mpr
      ⟨p, hp, o, getElem?_fromGroup.mp hi, rfl, rfl⟩))
  · obtain ⟨hi, hnot⟩ := StoredGroup.getElem?_after_eq_unspent.mp hi
    exact (ht.members _ _).mpr (.inr ⟨hnot, hl.covered _ _ _ _ hg₀ hi⟩)

theorem Ledger.Turned.mem_members (c : Point32) : c ∈ l'.members ↔ c ∈ l'.utxos := by
  have hold : (∃ x, l.members[c]? = some x) ↔ ∃ e, l.utxos[c]? = some e := by
    rw [← mem_iff_exists, ← mem_iff_exists, hl.members]
  have hnew : (∃ x, (c, x) ∈ createdMembers batch) ↔ ∃ e, (c, e) ∈ createdRecords height batch := by
    have hkeys : c ∈ (createdRecords height batch).map Prod.fst ↔
        c ∈ (createdMembers batch).map Prod.fst := by
      rw [keys_createdRecords, keys_createdMembers]
    simpa using hkeys.symm
  simp only [mem_iff_exists, ht.members, ht.utxos, exists_or, exists_and_left, hold, hnew]

theorem Ledger.Turned.record (hu : l.utxos = s.utxos) (hturns : Turns s batch s') {gid : Bytes32}
    {g : StoredGroup} {i : Nat} {o : Output} {e : UtxoEntry} (hg : l'.groups[gid]? = some g)
    (hi : g.members[i]? = some (.unspent o)) (he : l'.utxos[o.commitment]? = some e) :
    e.outputHash = o.metadataHash ∧ e.ownerKey = o.ownerKey ∧
      e.recoveryCommitment = o.recoveryCommitment := by
  have habsent : ∀ p ∈ batch.created, l.utxos[p.1.commitment]? = none := by
    intro p hp
    rw [hu, hturns.absent p hp]
  have hcreated : ∀ {c e}, (c, e) ∈ createdRecords height batch → l.utxos[c]? = none := by
    intro c e hc
    have hkey : c ∈ (createdRecords height batch).map Prod.fst := List.mem_map_of_mem hc
    rw [keys_createdRecords] at hkey
    obtain ⟨p, hp, rfl⟩ := List.mem_map.mp hkey
    exact habsent p hp
  rcases (ht.groups gid g).mp hg with hg | ⟨g₀, hg₀, rfl, -⟩
  · obtain ⟨p, hp, rfl, rfl⟩ := mem_createdGroups.mp hg
    have hmem := mem_created hp (List.mem_of_getElem? (getElem?_fromGroup.mp hi))
    rcases (ht.utxos _ _).mp he with he | ⟨-, he⟩
    · rw [createdRecords_eq] at he
      obtain ⟨o', ho', heq⟩ := List.mem_map.mp he
      obtain ⟨hc, rfl⟩ := Prod.mk.inj heq
      have hsame : o' = (o, p.2) := List.inj_on_of_nodup_map hturns.distinct ho' hmem hc
      rw [hsame]
      exact ⟨rfl, rfl, rfl⟩
    · rw [habsent _ hmem] at he
      cases he
  · obtain ⟨hi, -⟩ := StoredGroup.getElem?_after_eq_unspent.mp hi
    rcases (ht.utxos _ _).mp he with he | ⟨-, he⟩
    · have hheld : o.commitment ∈ l.utxos :=
        (hl.members _).mp (mem_iff_exists.mpr ⟨_, hl.covered _ _ _ _ hg₀ hi⟩)
      obtain ⟨e', he'⟩ := mem_iff_exists.mp hheld
      rw [hcreated he] at he'
      cases he'
    · exact hl.record _ _ _ _ _ hg₀ hi he

end Turned

theorem Ledger.Covers.block (hl : l.Covers chain) (h : scan.Shows l batch.body.inputCommitments)
    (hu : l.utxos = s.utxos)
    (hstructures : ∀ p ∈ blockGroups batch, p.1.checkStructure = .ok ())
    (hturns : Turns s batch s')
    (hfresh : FreshGroups batch (scan.working.toList.foldl putGroup l.groups))
    {l' : Ledger} (hutxos : l'.utxos = insertAll scan.utxos (createdRecords height batch))
    (hmembers : l'.members = insertAll scan.members (createdMembers batch))
    (hgroups : l'.groups =
      insertAll (scan.working.toList.foldl putGroup l.groups) (createdGroups batch)) :
    l'.Covers (chain ++ [batch]) := by
  have ht := hl.turned h hu hturns hfresh hutxos hmembers hgroups
  refine ⟨⟨fun c gid i => ht.place hl, fun gid g i o => ht.covered hl, ?_, ht.mem_members hl,
    fun gid g i o e => ht.record hl hu hturns⟩, ?_⟩
  · intro gid g hg
    rcases (ht.groups gid g).mp hg with hg | ⟨-, -, -, hlive⟩
    · obtain ⟨p, hp, rfl, rfl⟩ := mem_createdGroups.mp hg
      obtain ⟨o, rest, ho⟩ := List.exists_cons_of_ne_nil (checkStructure_eq_ok (hstructures p hp)).1
      exact StoredGroup.isFullySpent_eq_false.mpr
        ⟨0, o, getElem?_fromGroup.mpr (by rw [ho]; rfl)⟩
    · exact hlive
  · intro gid g hg
    rcases (ht.groups gid g).mp hg with hg | ⟨g₀, hg₀, rfl, -⟩
    · obtain ⟨p, hp, rfl, rfl⟩ := mem_createdGroups.mp hg
      exact ⟨batch, List.mem_append_right _ (List.mem_singleton_self _), p, hp, rfl, [],
        (StoredGroup.after_nil _).symm⟩
    · obtain ⟨b, hb, p, hp, hid, spent, rfl⟩ := hl.origin _ _ hg₀
      exact ⟨b, List.mem_append_left _ hb, p, hp, hid, _, StoredGroup.after_append _ _ _⟩

end Block

end Midwimble
