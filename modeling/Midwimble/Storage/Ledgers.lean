import Midwimble.Relay.Invariant
import Midwimble.Storage.Commits
import Midwimble.Storage.Spends
import Midwimble.Wallet.Balance

namespace Midwimble
open Fallible OrderedMap
set_option autoImplicit true

namespace Relay

theorem entries_removeAll (r : Relay) (heights : List Nat) :
    (r.removeAll heights).2.entries = eraseAll r.entries heights := by
  induction heights generalizing r with
  | nil => rfl
  | cons h heights ih =>
    have hone : (r.remove h).2.entries = r.entries.erase h := by
      unfold Relay.remove
      cases hh : r.entries[h]? with
      | some e => rfl
      | none =>
        apply Std.ExtTreeMap.ext_getElem?
        intro k
        ext e
        rw [getElem?_erase_eq_some]
        refine ⟨fun he => ⟨?_, he⟩, And.right⟩
        rintro rfl
        rw [hh] at he
        cases he
    show ((r.remove h).2.removeAll heights).2.entries = _
    rw [ih, hone]
    rfl

theorem entries_insertAll (r : Relay) (es : List RelayEntry) :
    (r.insertAll es).entries = OrderedMap.insertAll r.entries (es.map fun e => (e.height, e)) := by
  induction es generalizing r with
  | nil => rfl
  | cons e es ih =>
    show ((r.insert e).insertAll es).entries = _
    rw [ih]
    rfl

theorem entries_applyChange (r : Relay) (removed added : List RelayEntry) :
    (r.applyChange removed added).entries =
      OrderedMap.insertAll (eraseAll r.entries (removed.map RelayEntry.height))
        (added.map fun e => (e.height, e)) := by
  rw [applyChange, entries_insertAll, entries_removeAll]

theorem entries_revertChange (r : Relay) (removed added : List RelayEntry) :
    (r.revertChange removed added).entries =
      OrderedMap.insertAll (eraseAll r.entries (added.map RelayEntry.height))
        (removed.map fun e => (e.height, e)) := by
  rw [revertChange, entries_insertAll, entries_removeAll]

end Relay

variable [Primitives]

/-- What a group's id is the hash of. -/
def groupPreimage (g : OutputGroup) : Bytes :=
  domainPreimage (Bytes.ascii "midwimble.output-group.id.v1")
    (g.rangeProof :: (g.outputs.map Output.commitment).map Bytes32.toBytes)

/-- The bonds that chains of some blocks register. -/
def registeredBonds (S : Set Batch) : Set (Bytes32 × BondEntry) :=
  {p | ∃ chain s, (∀ c ∈ chain, c ∈ S) ∧ Built chain s ∧ p ∈ s.effects.bondsAdded}

/-- What collision-free hashes and proof of work keep apart in some blocks: the ids of their
range-proof groups, the leaves of the bonds they register and the midstate headers each of them
relays. -/
structure StoredApart (S : Set Batch) : Prop where
  groups : Set.InjOn blake3 {x | ∃ b ∈ S, ∃ p ∈ blockGroups b, x = groupPreimage p.1}
  bonds : BondsApart (registeredBonds S)
  links : ∀ b ∈ S, ∀ relayed, b.relay = some relayed → NoClash relayed.links

theorem id_fromGroup (g : OutputGroup) : (StoredGroup.fromGroup g).id = blake3 (groupPreimage g) := by
  rw [StoredGroup.id, StoredGroup.fromGroup, List.map_map, groupPreimage, List.map_map]
  rfl

omit [Primitives] in
theorem commitments_fromGroup (g : OutputGroup) :
    (StoredGroup.fromGroup g).members.map GroupMember.commitment =
      g.outputs.map Output.commitment := by
  rw [StoredGroup.fromGroup, List.map_map]
  rfl

theorem checkStructure_eq_ok {g : OutputGroup} (h : g.checkStructure = .ok ()) :
    g.outputs ≠ [] ∧ g.rangeProof.length < 2 ^ 64 := by
  simp only [OutputGroup.checkStructure, check_bind_eq_ok, bailIf_eq_ok, not_or, not_lt,
    gt_iff_lt, not_not, ne_eq] at h
  obtain ⟨⟨hpos, hmax⟩, hlen, -⟩ := h
  refine ⟨fun he => hpos (by rw [he]; rfl), ?_⟩
  rw [hlen]
  have hmost : ∀ n ≤ maxGroupOutputs, rangeProofLen n < 2 ^ 64 := by decide
  exact hmost _ hmax

theorem StoredApart.commitments_eq {S : Set Batch} (h : StoredApart S) {b b' : Batch} (hb : b ∈ S)
    (hb' : b' ∈ S) {p p' : OutputGroup × Bool} (hp : p ∈ blockGroups b) (hp' : p' ∈ blockGroups b')
    (hok : p.1.checkStructure = .ok ()) (hok' : p'.1.checkStructure = .ok ())
    (he : (StoredGroup.fromGroup p.1).id = (StoredGroup.fromGroup p'.1).id) :
    p.1.outputs.map Output.commitment = p'.1.outputs.map Output.commitment := by
  rw [id_fromGroup, id_fromGroup] at he
  have hpre := h.groups ⟨b, hb, p, hp, rfl⟩ ⟨b', hb', p', hp', rfl⟩ he
  have hfits : ∀ g : OutputGroup, g.checkStructure = .ok () →
      ∀ x ∈ Bytes.ascii "midwimble.output-group.id.v1" ::
        (g.rangeProof :: (g.outputs.map Output.commitment).map Bytes32.toBytes),
        x.length < 2 ^ 64 := by
    intro g hg x hx
    rcases List.mem_cons.mp hx with rfl | hx
    · decide
    · rcases List.mem_cons.mp hx with rfl | hx
      · exact (checkStructure_eq_ok hg).2
      · obtain ⟨c, -, rfl⟩ := List.mem_map.mp hx
        rw [length_toBytes]
        decide
  obtain ⟨-, hparts⟩ := domainPreimage_inj (hfits _ hok) (hfits _ hok') hpre
  exact List.map_injective_iff.mpr (fun a b hab => toBytes_inj hab) (List.cons.inj hparts).2

omit [Primitives] in
theorem mem_blockGroups {batch : Batch} {p : OutputGroup × Bool} (h : p ∈ blockGroups batch) :
    p.1 ∈ batch.body.body.outputs ∨ ∃ cb, batch.coinbase = some cb ∧ p.1 = cb.outputs := by
  rcases List.mem_append.mp h with h | h
  · obtain ⟨g, hg, rfl⟩ := List.mem_map.mp h
    exact .inl hg
  · rw [Option.mem_toList, Option.map_eq_some_iff] at h
    obtain ⟨cb, hcb, rfl⟩ := h
    exact .inr ⟨cb, hcb, rfl⟩

theorem BlockSteps.structures (b : BlockSteps s batch ts skip) :
    ∀ p ∈ blockGroups batch, p.1.checkStructure = .ok () := by
  obtain ⟨hstructure, -, -, fees, -, -, hpays⟩ := validateBlockContents_eq_ok.mp b.contents
  intro p hp
  rcases mem_blockGroups hp with hg | ⟨cb, hcb, hg⟩
  · exact (validateStructure_eq_ok.mp hstructure).2.structures _ hg
  · cases hpays with
    | genesis _ hnone _ =>
      rw [hnone] at hcb
      cases hcb
    | nothing _ hnone _ =>
      rw [hnone] at hcb
      cases hcb
    | coinbase cb' _ hcb' hvalid =>
      obtain rfl := Option.some.inj (hcb.symm.trans hcb')
      have hcoinbase := (validateWithCoinbase_eq_ok.mp hvalid).2.1
      simp only [Coinbase.validateStructure, check_bind_eq_ok] at hcoinbase
      rw [hg]
      exact hcoinbase.1

omit [Primitives] in
theorem outputs_blockGroups (batch : Batch) :
    ((blockGroups batch).flatMap fun p => p.1.outputs.map (·, p.2)) = batch.created := by
  rw [blockGroups, List.flatMap_append, List.flatMap_map, Batch.created, Transaction.outputs,
    List.map_flatMap]
  congr 1
  cases batch.coinbase with
  | none => rfl
  | some cb => simp

theorem createdRecords_eq (height : Nat) (batch : Batch) : createdRecords height batch =
    batch.created.map fun o => (o.1.commitment, utxoEntry height o.2 o.1) := by
  rw [createdRecords, ← outputs_blockGroups, List.map_flatMap]
  congr 1
  funext p
  rw [List.map_map]
  rfl

theorem keys_createdRecords (height : Nat) (batch : Batch) :
    (createdRecords height batch).map Prod.fst = batch.created.map fun o => o.1.commitment := by
  rw [createdRecords_eq, List.map_map]
  rfl

theorem keys_createdMembers (batch : Batch) :
    (createdMembers batch).map Prod.fst = batch.created.map fun o => o.1.commitment := by
  rw [createdMembers, ← outputs_blockGroups, List.map_flatMap, List.map_flatMap]
  congr 1
  funext p
  rw [List.map_map, List.map_map]
  show (p.1.outputs.zipIdx.map (Output.commitment ∘ Prod.fst)) = _
  rw [← List.map_map, List.zipIdx_map_fst]
  rfl

/-- Kernels added to a chain's are new to it and differ from each other. -/
theorem kernels_added {ks : List Kernel} (h : ks.foldlM addKernel acc = .ok acc') :
    (∀ k ∈ ks, k.id ∉ acc.1.coins) ∧ (ks.map Kernel.id).Nodup ∧
      ∀ id, id ∈ acc'.1.coins ↔ id ∈ acc.1.coins ∨ id ∈ ks.map Kernel.id := by
  induction ks generalizing acc with
  | nil =>
    rw [List.foldlM_nil, pure_eq_ok] at h
    subst h
    exact ⟨fun k hk => (List.not_mem_nil hk).elim, List.nodup_nil, by simp⟩
  | cons k ks ih =>
    obtain ⟨mid, hk, hrest⟩ := foldlM_cons_eq_ok.mp h
    obtain ⟨hnew, e, -, rfl⟩ := addKernel_eq_ok.mp hk
    obtain ⟨hfresh, hnodup, hmem⟩ := ih hrest
    have hout : ∀ id, id ∈ acc.1.coins.insert k.id ↔ k.id = id ∨ id ∈ acc.1.coins := by
      intro id
      rw [Std.ExtTreeSet.mem_insert, Std.LawfulEqCmp.compare_eq_iff_eq]
    refine ⟨?_, ?_, ?_⟩
    · intro k' hk'
      rcases List.mem_cons.mp hk' with rfl | hk'
      · exact hnew
      · intro hin
        exact hfresh k' hk' ((hout _).mpr (.inr hin))
    · rw [List.map_cons, List.nodup_cons]
      refine ⟨?_, hnodup⟩
      intro hin
      obtain ⟨k', hk', he⟩ := List.mem_map.mp hin
      exact hfresh k' hk' ((hout _).mpr (.inl he.symm))
    · intro id
      rw [hmem, hout, List.map_cons, List.mem_cons]
      constructor
      · rintro ((he | hin) | hin)
        · exact .inr (.inl he.symm)
        · exact .inl hin
        · exact .inr (.inr hin)
      · rintro (hin | he | hin)
        · exact .inl (.inr hin)
        · exact .inl (.inl he.symm)
        · exact .inr hin

/-- The relay of a state stands on an unbroken chain, and its hash index agrees. -/
def Relayed (s : State) : Prop :=
  ∃ full es, s.relay.Shape full es ∧ s.relay.Tags es

omit [Primitives] in
theorem relayed_genesis [Primitives] : Relayed .genesis := ⟨_, _, shape_genesis, tags_genesis⟩

theorem BlockSteps.relay_changes (b : BlockSteps s batch ts skip) (h : Relayed s)
    (hlinks : ∀ relayed, batch.relay = some relayed → NoClash relayed.links) :
    Relayed b.next ∧ b.next.relay.revertChange b.next.effects.relayRemoved
        b.next.effects.relayAdded = s.relay ∧
      s.relay.applyChange b.next.effects.relayRemoved b.next.effects.relayAdded =
        b.next.relay := by
  obtain ⟨full, es, hs, ht⟩ := h
  have hnext : b.next.relay = b.base.relay := by rw [b.next_eq]
  have hadded : b.next.effects.relayAdded = b.change.added := by rw [b.next_eq]
  have hremoved : b.next.effects.relayRemoved = b.change.removed := by rw [b.next_eq]
  rw [Relayed, hnext, hadded, hremoved]
  rcases applyRelay_eq_ok.mp b.relayed with ⟨-, hc, -, hbase⟩ | ⟨relayed, r, hr, hx, -, hbase⟩
  · have hsame : b.base.relay = s.relay := by
      rw [hbase]
      rfl
    rw [hsame, hc]
    exact ⟨⟨full, es, hs, ht⟩, rfl, rfl⟩
  · have hr' : b.base.relay = r := by rw [hbase]
    rw [hr']
    obtain ⟨x⟩ := hs.extend hx
    have ht' := x.tagged hs ht (hlinks relayed hr)
    exact ⟨⟨_, _, x.shape, ht'⟩, x.revert hs ht ht', x.redo hs ht ht'⟩

end Midwimble
