import Midwimble.Storage.Groups

namespace Midwimble
open Fallible OrderedMap
set_option autoImplicit true

variable [Primitives]

/-- The range-proof groups of a ledger hold exactly its unspent outputs, each once and where
`members` says. -/
structure Ledger.Grouped (l : Ledger) : Prop where
  place : ∀ (c : Point32) (gid : Bytes32) (i : Nat), l.members[c]? = some (gid, i) →
    ∃ (g : StoredGroup) (o : Output), l.groups[gid]? = some g ∧ g.members[i]? = some (.unspent o) ∧ o.commitment = c
  covered : ∀ (gid : Bytes32) (g : StoredGroup) (i : Nat) (o : Output), l.groups[gid]? = some g →
    g.members[i]? = some (.unspent o) → l.members[o.commitment]? = some (gid, i)
  live : ∀ (gid : Bytes32) (g : StoredGroup), l.groups[gid]? = some g → g.isFullySpent = false
  members : ∀ c : Point32, c ∈ l.members ↔ c ∈ l.utxos
  record : ∀ (gid : Bytes32) (g : StoredGroup) (i : Nat) (o : Output) (e : UtxoEntry),
    l.groups[gid]? = some g → g.members[i]? = some (.unspent o) → l.utxos[o.commitment]? = some e →
      e.outputHash = o.metadataHash ∧ e.ownerKey = o.ownerKey ∧
        e.recoveryCommitment = o.recoveryCommitment

/-- Moreover each group came with a block of the chain. -/
structure Ledger.Covers (l : Ledger) (chain : List Batch) : Prop extends l.Grouped where
  origin : ∀ (gid : Bytes32) (g : StoredGroup), l.groups[gid]? = some g →
    ∃ b ∈ chain, ∃ p ∈ blockGroups b, (StoredGroup.fromGroup p.1).id = gid ∧ ∃ spent, g = (StoredGroup.fromGroup p.1).after spent

/-- The scan of a block's inputs once some outputs are spent. -/
structure SpendScan.Shows (s : SpendScan) (l : Ledger) (done : List Point32) : Prop where
  utxos : ∀ c : Point32, s.utxos[c]? = if c ∈ done then none else l.utxos[c]?
  members : ∀ c : Point32, s.members[c]? = if c ∈ done then none else l.members[c]?
  spent_keys : s.spent.map Prod.fst = done
  spent : ∀ p ∈ s.spent, l.utxos[p.1]? = some p.2
  spentMembers_keys : s.spentMembers.map Prod.fst = done
  spentMembers : ∀ p ∈ s.spentMembers, l.members[p.1]? = some p.2
  working : ∀ (gid : Bytes32) g, s.working[gid]? = some g ↔ ∃ g₀, l.groups[gid]? = some g₀ ∧
    g = g₀.after done ∧ ∃ c ∈ done, ∃ i, l.members[c]? = some (gid, i)
  touched_keys : ∀ gid, gid ∈ s.touched.map Prod.fst ↔
    ∃ c ∈ done, ∃ i, l.members[c]? = some (gid, i)
  touched : ∀ p ∈ s.touched, l.groups[p.1]? = some p.2

namespace SpendScan

theorem shows_start (l : Ledger) : Shows ⟨l.utxos, l.members, ∅, [], [], []⟩ l [] where
  utxos c := by simp
  members c := by simp
  spent_keys := rfl
  spent p hp := nomatch hp
  spentMembers_keys := rfl
  spentMembers p hp := nomatch hp
  working gid g := by simp
  touched_keys gid := by simp
  touched p hp := nomatch hp

variable {s : SpendScan} {l : Ledger} {done : List Point32} {chain : List Batch}

theorem Shows.touch (h : s.Shows l done) {g : StoredGroup}
    (hg : l.groups[gid]? = some g) (huntouched : s.working[gid]? = none → g.after done = g) :
    ∃ touched, s.touch l.groups gid = .ok (g.after done, touched) ∧
      (∀ id, id ∈ touched.map Prod.fst ↔ id ∈ s.touched.map Prod.fst ∨ id = gid) ∧
      ∀ p ∈ touched, l.groups[p.1]? = some p.2 := by
  cases hw : s.working[gid]? with
  | some g' =>
    obtain ⟨g₀, hg₀, rfl, c, hc, i, hi⟩ := (h.working gid g').mp hw
    obtain rfl := Option.some.inj (hg₀.symm.trans hg)
    refine ⟨s.touched, ?_, ?_, h.touched⟩
    · simp only [SpendScan.touch, hw]
    · intro id
      constructor
      · exact .inl
      · rintro (hid | rfl)
        · exact hid
        · exact (h.touched_keys id).mpr ⟨c, hc, i, hi⟩
  | none =>
    refine ⟨s.touched ++ [(gid, g)], ?_, ?_, ?_⟩
    · simp only [SpendScan.touch, hw, hg, orBail_some, bind_ok, huntouched hw]
    · intro id
      simp
    · intro p hp
      rcases List.mem_append.mp hp with hp | hp
      · exact h.touched p hp
      · rw [List.mem_singleton.mp hp]
        exact hg

omit [Primitives] in
theorem getElem?_erase_done {ν : Type} {t t₀ : Std.ExtTreeMap Point32 ν} (spent : Point32)
    (ht : ∀ c : Point32, t[c]? = if c ∈ done then none else t₀[c]?) (c : Point32) :
    (t.erase spent)[c]? = if c ∈ done ++ [spent] then none else t₀[c]? := by
  rw [Std.ExtTreeMap.getElem?_erase, ht]
  by_cases hc : spent = c
  · simp [hc]
  · have hne : ¬ compare spent c = .eq := mt Std.LawfulEqCmp.eq_of_compare hc
    simp [hne, Ne.symm hc]

section Member

variable {gid : Bytes32} {i : Nat} {g : StoredGroup} {c : Point32} {o : Output}

theorem spend_member (hl : l.Covers chain) (hg : l.groups[gid]? = some g)
    (hi : g.members[i]? = some (.unspent o)) (hnew : o.commitment ∉ done) :
    (g.after done).spend i = .ok (g.after (done ++ [o.commitment])) := by
  have hi' : (g.after done).members[i]? = some (.unspent o) :=
    StoredGroup.getElem?_after_eq_unspent.mpr ⟨hi, hnew⟩
  rw [StoredGroup.spend_eq_ok hi', StoredGroup.after_append]
  intro j o' hj hc
  obtain ⟨hj, -⟩ := StoredGroup.getElem?_after_eq_unspent.mp hj
  have hplace := hl.covered _ _ _ _ hg hj
  rw [hc, hl.covered _ _ _ _ hg hi] at hplace
  simp only [Option.some.injEq, Prod.mk.injEq, true_and] at hplace
  exact hplace.symm

theorem after_elsewhere {id : Bytes32} (hl : l.Covers chain)
    (hm : l.members[c]? = some (gid, i)) (hg : l.groups[id]? = some g) (hne : gid ≠ id) :
    g.after (done ++ [c]) = g.after done := by
  rw [← StoredGroup.after_append]
  apply StoredGroup.after_eq_self
  intro j o' hj
  obtain ⟨hj, -⟩ := StoredGroup.getElem?_after_eq_unspent.mp hj
  rw [List.mem_singleton]
  intro hsame
  have hplace := hl.covered _ _ _ _ hg hj
  rw [hsame, hm] at hplace
  exact hne (Prod.mk.inj (Option.some.inj hplace)).1

omit [Primitives] in
theorem mentioned_append (hm : l.members[c]? = some (gid, i)) (id : Bytes32) :
    (∃ d ∈ done ++ [c], ∃ j, l.members[d]? = some (id, j)) ↔
      (∃ d ∈ done, ∃ j, l.members[d]? = some (id, j)) ∨ id = gid := by
  constructor
  · rintro ⟨d, hd, j, hj⟩
    rcases List.mem_append.mp hd with hd | hd
    · exact .inl ⟨d, hd, j, hj⟩
    · rw [List.mem_singleton.mp hd, hm] at hj
      exact .inr (Prod.mk.inj (Option.some.inj hj)).1.symm
  · rintro (⟨d, hd, j, hj⟩ | rfl)
    · exact ⟨d, List.mem_append_left _ hd, j, hj⟩
    · exact ⟨_, List.mem_append_right _ (List.mem_singleton_self _), i, hm⟩

end Member

theorem Shows.untouched (hl : l.Covers chain) (h : s.Shows l done) {gid : Bytes32}
    {g : StoredGroup} (hg : l.groups[gid]? = some g) (hnone : s.working[gid]? = none) :
    g.after done = g := by
  apply StoredGroup.after_eq_self
  intro j o hj hdone
  have hw := (h.working gid (g.after done)).mpr
    ⟨g, hg, rfl, _, hdone, j, hl.covered _ _ _ _ hg hj⟩
  rw [hnone] at hw
  cases hw

/-- Spending one more output. -/
theorem Shows.step (hl : l.Covers chain) (h : s.Shows l done) {input : Input}
    (hnew : input.commitment ∉ done) (hin : l.utxos[input.commitment]? = some e) (height : Nat) :
    ∃ s', spendRecord l.groups height s input = .ok s' ∧
      s'.Shows l (done ++ [input.commitment]) := by
  obtain ⟨⟨gid, i⟩, hm⟩ := mem_iff_exists.mp ((hl.members _).mpr (mem_iff_exists.mpr ⟨e, hin⟩))
  obtain ⟨g, o, hg, hi, ho⟩ := hl.place _ _ _ hm
  obtain ⟨touched, htouch, hkeys, htouched⟩ := h.touch hg (h.untouched hl hg)
  have hspend : (g.after done).spend i = .ok (g.after (done ++ [input.commitment])) := by
    have hspend := spend_member hl hg hi (ho ▸ hnew)
    rwa [ho] at hspend
  have hutxo : s.utxos[input.commitment]? = some e := by rw [h.utxos, if_neg hnew, hin]
  have hmember : s.members[input.commitment]? = some (gid, i) := by
    rw [h.members, if_neg hnew, hm]
  refine ⟨{
    utxos := s.utxos.erase input.commitment
    members := s.members.erase input.commitment
    working := s.working.insert gid (g.after (done ++ [input.commitment]))
    spent := s.spent ++ [(input.commitment, e)]
    touched := touched
    spentMembers := s.spentMembers ++ [(input.commitment, gid, i)] }, ?_, ?_⟩
  · simp only [spendRecord, hutxo, hmember, orBail_some, bind_ok, htouch, hspend]
  · constructor
    · exact getElem?_erase_done _ h.utxos
    · exact getElem?_erase_done _ h.members
    · rw [List.map_append, h.spent_keys]
      rfl
    · intro p hp
      rcases List.mem_append.mp hp with hp | hp
      · exact h.spent p hp
      · rw [List.mem_singleton.mp hp]
        exact hin
    · rw [List.map_append, h.spentMembers_keys]
      rfl
    · intro p hp
      rcases List.mem_append.mp hp with hp | hp
      · exact h.spentMembers p hp
      · rw [List.mem_singleton.mp hp]
        exact hm
    · intro id g'
      rw [getElem?_insert_eq_some, mentioned_append hm]
      constructor
      · rintro (⟨rfl, rfl⟩ | ⟨hne, hg'⟩)
        · exact ⟨g, hg, rfl, .inr rfl⟩
        · obtain ⟨g₀, hg₀, rfl, hc⟩ := (h.working id g').mp hg'
          exact ⟨g₀, hg₀, (after_elsewhere hl hm hg₀ hne).symm, .inl hc⟩
      · rintro ⟨g₀, hg₀, rfl, hc⟩
        by_cases hid : gid = id
        · subst hid
          obtain rfl := Option.some.inj (hg₀.symm.trans hg)
          exact .inl ⟨rfl, rfl⟩
        · refine .inr ⟨hid, ?_⟩
          rcases hc with hc | hc
          · rw [after_elsewhere hl hm hg₀ hid]
            exact (h.working id (g₀.after done)).mpr ⟨g₀, hg₀, rfl, hc⟩
          · exact absurd hc.symm hid
    · intro id
      rw [hkeys, h.touched_keys, mentioned_append hm]
    · exact htouched

theorem Shows.run (hl : l.Covers chain) (h : s.Shows l done) (inputs : List Input)
    (hnodup : (done ++ inputs.map Input.commitment).Nodup)
    (hin : ∀ i ∈ inputs, i.commitment ∈ l.utxos) (height : Nat) :
    ∃ s', inputs.foldlM (spendRecord l.groups height) s = .ok s' ∧
      s'.Shows l (done ++ inputs.map Input.commitment) := by
  induction inputs generalizing s done with
  | nil => exact ⟨s, rfl, by rwa [List.map_nil, List.append_nil]⟩
  | cons i inputs ih =>
    have hnew : i.commitment ∉ done := by
      intro hc
      exact (List.nodup_append.mp hnodup).2.2 _ hc _ List.mem_cons_self rfl
    obtain ⟨e, he⟩ := mem_iff_exists.mp (hin i List.mem_cons_self)
    obtain ⟨mid, hok, hmid⟩ := h.step hl hnew he height
    rw [List.map_cons, List.append_cons] at hnodup
    obtain ⟨s', hrun, hs'⟩ := ih hmid hnodup fun j hj => hin j (List.mem_cons_of_mem _ hj)
    refine ⟨s', foldlM_cons_eq_ok.mpr ⟨mid, hok, hrun⟩, ?_⟩
    rwa [List.map_cons, List.append_cons]

end SpendScan

omit [Primitives] in
/-- Writing the touched groups back. -/
theorem getElem?_putGroups (groups : Std.ExtTreeMap Bytes32 StoredGroup)
    {l : List (Bytes32 × StoredGroup)} (hl : l.Pairwise fun a b => a.1 ≠ b.1) (gid : Bytes32) :
    (gid ∉ l.map Prod.fst → (l.foldl putGroup groups)[gid]? = groups[gid]?) ∧
      ∀ g, (gid, g) ∈ l → (l.foldl putGroup groups)[gid]? =
        if g.isFullySpent then none else some g := by
  induction l generalizing groups with
  | nil => exact ⟨fun _ => rfl, fun g hg => nomatch hg⟩
  | cons p l ih =>
    obtain ⟨hp, hrest⟩ := List.pairwise_cons.mp hl
    obtain ⟨hout, hin⟩ := ih (putGroup groups p) hrest
    have hput : ∀ id, p.1 ≠ id → (putGroup groups p)[id]? = groups[id]? := by
      intro id hne
      have hcmp : ¬ compare p.1 id = .eq := mt Std.LawfulEqCmp.eq_of_compare hne
      unfold putGroup
      split
      · rw [Std.ExtTreeMap.getElem?_erase, if_neg hcmp]
      · rw [Std.ExtTreeMap.getElem?_insert, if_neg hcmp]
    constructor
    · intro hgid
      rw [List.map_cons, List.mem_cons, not_or] at hgid
      rw [List.foldl_cons, hout hgid.2, hput gid (Ne.symm hgid.1)]
    · intro g hg
      rcases List.mem_cons.mp hg with rfl | hg
      · have hnot : gid ∉ l.map Prod.fst := by
          intro hmem
          obtain ⟨q, hq, he⟩ := List.mem_map.mp hmem
          exact hp q hq he.symm
        rw [List.foldl_cons, hout hnot, putGroup]
        split
        · simp
        · simp
      · exact hin g hg

end Midwimble
