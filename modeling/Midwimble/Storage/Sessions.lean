import Midwimble.Chain.Solved
import Midwimble.Storage.Rewinds

namespace Midwimble
open Fallible OrderedMap SlidingWindow
set_option autoImplicit true

section
variable [Primitives]

/-- What a node makes of a new database: it commits accepted blocks with their effects and state (on
top, or in place of others), records finality and prunes bodies. -/
inductive Database.Made (S : Set Batch) : Database → List Batch → Nat → Prop where
  | empty : Made S .empty [] 0
  | commit {db db' : Database} {chain new : List Batch} {s : State} (first : Nat) :
      Made S db chain peak → (∀ c ∈ new, c ∈ S) → Built (chain.take first ++ new) s →
        EffectsOf (chain.take first) new effects →
          db.commitChain first new effects s = .ok db' →
            Made S db' (chain.take first ++ new) (max peak s.height)
  | setFinality {db : Database} {chain : List Batch} (info : FinalityInfo) :
      Made S db chain peak → Made S (db.setFinality info) chain peak
  | prune {db : Database} {chain : List Batch} (height : Nat) : Made S db chain peak →
      Made S (db.pruneBodiesBelow height) chain peak

namespace Database

variable {S : Set Batch} {db : Database} {chain : List Batch} {s : State} {kept peak : Nat}

theorem Keeps.setFinality (h : db.Keeps chain s kept) (info : FinalityInfo) :
    (db.setFinality info).Keeps chain s kept := by
  have hroot : (db.setFinality info).rootRelay = db.rootRelay.setFinality info := by
    unfold Database.setFinality rootRelay
    split <;> rfl
  refine ⟨h.built, ?_, ?_⟩
  · rw [hroot]
    exact ⟨h.holds.ledger, h.holds.headers, h.holds.signers, h.holds.bodies, h.holds.weights,
      h.holds.undo, h.holds.logged, h.holds.base, h.holds.kept_le⟩
  · rw [hroot]
    exact h.scalars.imp_right fun ⟨hmeta, hrooted⟩ => ⟨hmeta, by rw [hrooted]⟩

theorem Keeps.pruneBodiesBelow (h : db.Keeps chain s kept) (height : Nat) :
    (db.pruneBodiesBelow height).Keeps chain s kept := by
  have hroot : (db.pruneBodiesBelow height).rootRelay =
      db.rootRelay.pruneBodiesBelow height := by
    unfold Database.pruneBodiesBelow rootRelay
    split <;> rfl
  refine ⟨h.built, ?_, ?_⟩
  · rw [hroot]
    exact ⟨h.holds.ledger, h.holds.headers, h.holds.signers,
      fun k b hk => h.holds.bodies k b (getElem?_filter_eq_some.mp hk).1, h.holds.weights,
      h.holds.undo, h.holds.logged, h.holds.base, h.holds.kept_le⟩
  · rw [hroot]
    exact h.scalars.imp_right fun ⟨hmeta, hrooted⟩ => ⟨hmeta, by rw [hrooted]⟩

theorem Made.keeps (h : Made S db chain peak) (ha : StoredApart S) :
    ∃ s kept, db.Keeps chain s kept ∧ kept ≤ peak - undoKeep ∧ chain.length ≤ peak ∧
      ∀ c ∈ chain, c ∈ S := by
  induction h with
  | empty => exact ⟨_, _, keeps_empty, Nat.zero_le _, Nat.le_refl _,
      fun c hc => absurd hc List.not_mem_nil⟩
  | commit first _ hnew hbuilt heffects hok ih =>
    obtain ⟨s, kept, hkeeps, hkept, hlen, hsub⟩ := ih
    obtain ⟨-, -, hnext⟩ := (hkeeps.commit first ha hsub hnew hbuilt heffects).1 _ hok
    refine ⟨_, _, hnext, ?_, ?_, ?_⟩
    · unfold keptAfter
      omega
    · rw [← hbuilt.height]
      exact Nat.le_max_right _ _
    · intro c hc
      exact (List.mem_append.mp hc).elim (fun hc => hsub c (List.mem_of_mem_take hc)) (hnew c)
  | setFinality info _ ih =>
    obtain ⟨s, kept, hkeeps, hrest⟩ := ih
    exact ⟨s, kept, hkeeps.setFinality info, hrest⟩
  | prune height _ ih =>
    obtain ⟨s, kept, hkeeps, hrest⟩ := ih
    exact ⟨s, kept, hkeeps.pruneBodiesBelow height, hrest⟩

end Database

theorem record_of_accepts {batch : Batch} {s s' : State} (h : Accepts s batch s')
    {p : Point32 × UtxoEntry} (hp : s'.utxos[p.1]? = some p.2) :
    s.utxos[p.1]? = some p.2 ∨ p ∈ createdRecords s.height batch := by
  have hturns := turns_of_accepts h
  by_cases hin : p.1 ∈ batch.body.inputCommitments
  · rw [hturns.spent _ hin] at hp
    cases hp
  · by_cases hcreated : ∃ o ∈ batch.created, o.1.commitment = p.1
    · obtain ⟨o, ho, hkey⟩ := hcreated
      have hmade := hturns.made o ho
      rw [hkey, hp] at hmade
      right
      rw [createdRecords_eq]
      exact List.mem_map.mpr ⟨o, ho, Prod.ext hkey (Option.some.inj hmade).symm⟩
    · left
      rwa [hturns.rest _ hin fun o ho hkey => hcreated ⟨o, ho, hkey⟩] at hp

section Sessions

variable {S : Set Batch} {db : Database} {chain batches : List Batch} {s : State} {peak : Nat}
  {effects : List BlockEffects}

/-- However a database came to hold a chain, its tables tell the chain's state, its range-proof
groups cover exactly the unspent outputs, its headers and signers are the chain's, and they are the
same in every database that holds the chain. -/
theorem tables_follow_chain (ha : StoredApart S) (h : Database.Made S db chain peak) :
    ∃ s, Built chain s ∧ db.rootRelay.ledger.Tells s ∧ db.rootRelay.ledger.Covers chain ∧
      Rows db.headers chain (fun h b => b.headerAt h) ∧ Rows db.signers chain (fun _ b => b.signer) ∧
      (chain ≠ [] → db.stateMeta = some (.of s)) ∧
        ∀ db' peak', Database.Made S db' chain peak' →
          db'.rootRelay.ledger = db.rootRelay.ledger := by
  obtain ⟨s, kept, hkeeps, -, -, hsub⟩ := h.keeps ha
  have hstands := hkeeps.holds.ledger.stands ha hkeeps.built hsub
  have hrows : db.rootRelay.headers = db.headers ∧ db.rootRelay.signers = db.signers := by
    unfold Database.rootRelay
    split <;> exact ⟨rfl, rfl⟩
  refine ⟨s, hkeeps.built, hstands.tells, hstands.covers, ?_, ?_, ?_, ?_⟩
  · rw [← hrows.1]
    exact hkeeps.holds.headers
  · rw [← hrows.2]
    exact hkeeps.holds.signers
  · intro hne
    rcases hkeeps.scalars with ⟨-, hnil⟩ | ⟨hmeta, -⟩
    · exact absurd hnil hne
    · exact hmeta
  · intro db' peak' h'
    obtain ⟨s', kept', hkeeps', -⟩ := h'.keeps ha
    exact hkeeps'.holds.ledger.unique hkeeps.holds.ledger

/-- Accepted blocks are never refused for a chain that forks above the floor and no deeper than
the undo records always kept, while its work fits. -/
theorem reorganisations_commit (first : Nat) (ha : StoredApart S) (h : Database.Made S db chain peak)
    (hnew : ∀ c ∈ batches, c ∈ S) (hb : Built (chain.take first ++ batches) s)
    (heffects : EffectsOf (chain.take first) batches effects)
    (hfits : WorkFits (chain.take first ++ batches)) (hfirst : first ≤ chain.length)
    (hfloor : (db.finality.getD .default).floor ≤ first) (hdepth : peak ≤ first + undoKeep) :
    ∃ db', db.commitChain first batches effects s = .ok db' ∧
      Database.Made S db' (chain.take first ++ batches) (max peak s.height) := by
  obtain ⟨t, kept, hkeeps, hkept, -, hsub⟩ := h.keeps ha
  obtain ⟨db', hok⟩ := (hkeeps.commit first ha hsub hnew hb heffects).2 hfloor (by omega) hfirst hfits
  exact ⟨db', hok, h.commit first hnew hb heffects hok⟩

/-- A node that restarts finds the state it stopped with, its last block's diff apart. -/
theorem restart_restores_state (ha : StoredApart S) (hr : RecordsApart (chainRecords S))
    (h : Database.Made S db chain peak) (hne : chain ≠ []) :
    ∃ s, Built chain s ∧ db.loadState = .ok (some { s with effects := .empty }) := by
  obtain ⟨s, kept, hkeeps, -, -, hsub⟩ := h.keeps ha
  exact ⟨s, hkeeps.built, hkeeps.loadState ha hr hsub hne⟩

/-- A past state is derived exactly while the chain it was taken on is still the bottom of the
stored one, as deep as undo records are kept; it is that chain's state there. -/
theorem past_states_derived (ha : StoredApart S) (hr : RecordsApart (chainRecords S))
    (hids : Set.InjOn (fun b : Batch => b.extension.finalHash) S)
    (h : Database.Made S db chain peak) {tips : List Batch} {current : State}
    (hcurrent : Built tips current) (htips : ∀ c ∈ tips, c ∈ S) (hlen : tips.length < 2 ^ 63) :
    ∃ kept ≤ peak - undoKeep, (∀ h, h ∈ db.undo ↔ kept ≤ h ∧ h < chain.length) ∧
      ∀ (n : Nat) (x : State), db.stateAt current n = .ok x ↔
        tips <+: chain ∧ n ≤ tips.length ∧ (n = tips.length ∨ kept ≤ n) ∧
          ∃ t, Built (tips.take n) t ∧ x = { t with effects := current.effects } := by
  obtain ⟨s, kept, hkeeps, hkept, -, hsub⟩ := h.keeps ha
  have hundo : db.rootRelay.undo = db.undo := by
    unfold Database.rootRelay
    split <;> rfl
  refine ⟨kept, hkept, ?_, fun n x => hkeeps.stateAt_iff ha hr hids hsub hcurrent htips hlen n x⟩
  rw [← hundo]
  exact hkeeps.holds.undo

end Sessions
end

section Forked

local instance forkedWords : Primitives := racedPrimitives

/-- Genesis and the blocks of two branches above it. -/
def forkedBlocks : Set Batch :=
  {b | b ∈ [.genesis, oldBlock, oldTop, newBlock, newMiddle, newTop]}

/-- The chains of these blocks, and their states. -/
def forkedPlaces : List (List Batch × State) :=
  [([], .genesis), ([.genesis], racedFirst), ([.genesis, oldBlock], oldState),
    ([.genesis, oldBlock, oldTop], oldTopState), ([.genesis, newBlock], newState),
    ([.genesis, newBlock, newMiddle], newMiddleState),
    ([.genesis, newBlock, newMiddle, newTop], newTopState)]

theorem forked_cases {b : Batch} (hb : b ∈ forkedBlocks) :
    b = .genesis ∨ b = oldBlock ∨ b = oldTop ∨ b = newBlock ∨ b = newMiddle ∨ b = newTop := by
  simpa [forkedBlocks] using hb

theorem forked_first : Built [.genesis] racedFirst := (racedFirst_chain 0).built

theorem forked_built : ∀ p ∈ forkedPlaces, Built p.1 p.2 := by
  intro p hp
  simp only [forkedPlaces, List.mem_cons, List.not_mem_nil, or_false] at hp
  obtain rfl | rfl | rfl | rfl | rfl | rfl | rfl := hp
  · exact .genesis
  · exact forked_first
  · exact oldState_chain.built
  · exact oldTopState_chain.built
  · exact newState_chain.built
  · exact newMiddleState_chain.built
  · exact newTopState_chain.built

theorem oldState_hash : oldState.headerHash = wordOf (Bytes.le 8 1) := by
  have hbuilt : Built ([.genesis] ++ [oldBlock]) oldState := oldState_chain.built
  have hhash := hbuilt.headerHash
  exact hhash

theorem oldTopState_hash : oldTopState.headerHash = wordOf (Bytes.le 8 2) := by
  have hbuilt : Built ([.genesis, oldBlock] ++ [oldTop]) oldTopState := oldTopState_chain.built
  have hhash := hbuilt.headerHash
  exact hhash

theorem newState_hash : newState.headerHash = wordOf (Bytes.le 8 3) := by
  have hbuilt : Built ([.genesis] ++ [newBlock]) newState := newState_chain.built
  have hhash := hbuilt.headerHash
  exact hhash

theorem newMiddleState_hash : newMiddleState.headerHash = wordOf (Bytes.le 8 4) := by
  have hbuilt : Built ([.genesis, newBlock] ++ [newMiddle]) newMiddleState := newMiddleState_chain.built
  have hhash := hbuilt.headerHash
  exact hhash

theorem newTopState_hash : newTopState.headerHash = wordOf (Bytes.le 8 5) := by
  have hbuilt : Built ([.genesis, newBlock, newMiddle] ++ [newTop]) newTopState := newTopState_chain.built
  have hhash := hbuilt.headerHash
  exact hhash

/-- The blocks that may follow a header with the hash of the block mined at nonce `n`. -/
def forkedAfter : Nat → List Batch
  | 0 => [.genesis, oldBlock, newBlock]
  | 1 => [oldTop]
  | 3 => [newMiddle]
  | 4 => [newTop]
  | _ => []

theorem mem_forkedAfter {b : Batch} (hb : b ∈ forkedBlocks) {n : Nat} (hn : n ≤ 5)
    (hprev : b.prevHeaderHash = wordOf (Bytes.le 8 n)) : b ∈ forkedAfter n := by
  have hapart : ∀ {m}, m ≤ 5 → wordOf (Bytes.le 8 m) = wordOf (Bytes.le 8 n) → m = n := by
    have hall : ∀ m ≤ 5, ∀ n ≤ 5, wordOf (Bytes.le 8 m) = wordOf (Bytes.le 8 n) → m = n := by
      decide
    exact fun {m} hm he => hall m hm n hn he
  have hzero : (0 : Bytes32) = wordOf (Bytes.le 8 0) := by decide
  rcases forked_cases hb with rfl | rfl | rfl | rfl | rfl | rfl
  · have hfirst : Batch.genesis.prevHeaderHash = 0 := by decide +kernel
    obtain rfl := hapart (by decide) (hzero.symm.trans (hfirst.symm.trans hprev))
    exact List.mem_cons_self
  · obtain rfl := hapart (by decide) (hzero.symm.trans hprev)
    simp [forkedAfter]
  · obtain rfl := hapart (by decide) (oldState_hash.symm.trans hprev)
    exact List.mem_cons_self
  · obtain rfl := hapart (by decide) (hzero.symm.trans hprev)
    simp [forkedAfter]
  · obtain rfl := hapart (by decide) (newState_hash.symm.trans hprev)
    exact List.mem_cons_self
  · obtain rfl := hapart (by decide) (newMiddleState_hash.symm.trans hprev)
    exact List.mem_cons_self

/-- The group and the record a block of these creates at height `n`. -/
def forkedGroup (n : Nat) : OutputGroup := (rushedCoinbase n (blockReward n)).outputs

def forkedRecord (n : Nat) : Point32 × UtxoEntry :=
  ((rushedOutput n (blockReward n)).commitment, utxoEntry n true (rushedOutput n (blockReward n)))

theorem forked_groups {b : Batch} (hb : b ∈ forkedBlocks) {p : OutputGroup × Bool}
    (hp : p ∈ blockGroups b) : ∃ n ∈ [1, 2, 3], p = (forkedGroup n, true) := by
  have hmined : ∀ {s : State} {n : Nat}, s.height = n → n ∈ [1, 2, 3] →
      p ∈ [((rushedCoinbase s.height (blockReward s.height)).outputs, true)] →
        ∃ n ∈ [1, 2, 3], p = (forkedGroup n, true) := by
    rintro s n rfl hn hp
    exact ⟨_, hn, List.mem_singleton.mp hp⟩
  rcases forked_cases hb with rfl | rfl | rfl | rfl | rfl | rfl
  · exact absurd hp List.not_mem_nil
  · exact hmined forked_first.height (by decide) hp
  · exact hmined oldState_chain.built.height (by decide) hp
  · exact hmined forked_first.height (by decide) hp
  · exact hmined newState_chain.built.height (by decide) hp
  · exact hmined newMiddleState_chain.built.height (by decide) hp

theorem forked_next {q : List Batch × State} (hq : q ∈ forkedPlaces) {s : State}
    (h : Built q.1 s) : (q.1, s) ∈ forkedPlaces := by
  rwa [h.unique (forked_built q hq)]

/-- These blocks build no other chains: each names its parent. -/
theorem forked_chains {chain : List Batch} {s : State} (h : Built chain s)
    (hsub : ∀ c ∈ chain, c ∈ forkedBlocks) : (chain, s) ∈ forkedPlaces := by
  induction h with
  | genesis => exact List.mem_cons_self
  | @block blocks s batch now pre skip s' hb hok ih =>
    have hplace := ih fun c hc => hsub c (List.mem_append_left _ hc)
    have hbatch := hsub batch (List.mem_append_right _ (List.mem_singleton_self _))
    have hnext : Built (blocks ++ [batch]) s' := hb.block hok
    obtain ⟨hlink, hheader, -⟩ := applyBatchInternal_eq_ok.mp hok
    obtain ⟨-, hprev, htarget⟩ := checkLinkage_eq_ok.mp hlink
    simp only [forkedPlaces, List.mem_cons, List.not_mem_nil, or_false, Prod.mk.injEq] at hplace
    obtain ⟨rfl, rfl⟩ | ⟨rfl, rfl⟩ | ⟨rfl, rfl⟩ | ⟨rfl, rfl⟩ | ⟨rfl, rfl⟩ | ⟨rfl, rfl⟩ | ⟨rfl, rfl⟩ :=
      hplace
    · have hgenesis : batch = .genesis := by
        rw [checkHeader, if_pos (show State.genesis.height = 0 from rfl), bailIf_eq_ok,
          not_not] at hheader
        exact hheader
      subst hgenesis
      exact @forked_next ([.genesis], racedFirst) (by simp [forkedPlaces]) _ hnext
    · have hmem := mem_forkedAfter hbatch (Nat.zero_le 5) (hprev.trans (by decide))
      simp only [forkedAfter, List.mem_cons, List.not_mem_nil, or_false] at hmem
      obtain rfl | rfl | rfl := hmem
      · exact absurd htarget (by decide +kernel)
      · exact @forked_next ([.genesis, oldBlock], oldState) (by simp [forkedPlaces]) _ hnext
      · exact @forked_next ([.genesis, newBlock], newState) (by simp [forkedPlaces]) _ hnext
    · have hmem := mem_forkedAfter hbatch (by decide) (hprev.trans oldState_hash)
      obtain rfl := List.mem_singleton.mp hmem
      exact @forked_next ([.genesis, oldBlock, oldTop], oldTopState) (by simp [forkedPlaces]) _ hnext
    · have hmem := mem_forkedAfter hbatch (by decide) (hprev.trans oldTopState_hash)
      exact absurd hmem List.not_mem_nil
    · have hmem := mem_forkedAfter hbatch (by decide) (hprev.trans newState_hash)
      obtain rfl := List.mem_singleton.mp hmem
      exact forked_next (q := ([.genesis, newBlock, newMiddle], newMiddleState))
        (by simp [forkedPlaces]) hnext
    · have hmem := mem_forkedAfter hbatch (by decide) (hprev.trans newMiddleState_hash)
      obtain rfl := List.mem_singleton.mp hmem
      exact forked_next (q := ([.genesis, newBlock, newMiddle, newTop], newTopState))
        (by simp [forkedPlaces]) hnext
    · have hmem := mem_forkedAfter hbatch (by decide) (hprev.trans newTopState_hash)
      exact absurd hmem List.not_mem_nil

theorem forked_bonds {p : Bytes32 × BondEntry} (hp : p ∈ registeredBonds forkedBlocks) :
    p ∈ newMiddleState.effects.bondsAdded := by
  obtain ⟨chain, s, hsub, hbuilt, hp⟩ := hp
  have hnone : ∀ {blocks : List Batch} {batch : Batch} {t : State},
      Built (blocks ++ [batch]) t → batch.registrations = [] → p ∉ t.effects.bondsAdded := by
    intro blocks batch t ht hregistrations hmem
    obtain ⟨s, -, now, pre, skip, hok⟩ := ht.last
    obtain ⟨r, hr, -⟩ := (apply_bond_effects hok).2.2 p hmem
    rw [hregistrations] at hr
    exact absurd hr List.not_mem_nil
  have hplace := forked_chains hbuilt hsub
  simp only [forkedPlaces, List.mem_cons, List.not_mem_nil, or_false, Prod.mk.injEq] at hplace
  obtain ⟨rfl, rfl⟩ | ⟨rfl, rfl⟩ | ⟨rfl, rfl⟩ | ⟨rfl, rfl⟩ | ⟨rfl, rfl⟩ | ⟨rfl, rfl⟩ | ⟨rfl, rfl⟩ :=
    hplace
  · exact absurd hp List.not_mem_nil
  · exact absurd hp (@hnone [] .genesis _ hbuilt rfl)
  · exact absurd hp (@hnone [.genesis] oldBlock _ hbuilt rfl)
  · exact absurd hp (@hnone [.genesis, oldBlock] oldTop _ hbuilt rfl)
  · exact absurd hp (@hnone [.genesis] newBlock _ hbuilt rfl)
  · exact hp
  · exact absurd hp (@hnone [.genesis, newBlock, newMiddle] newTop _ hbuilt rfl)

/-- The groups and the records these blocks create hash apart. -/
instance forked_hashes :
    Fact (([1, 2, 3].map fun n => blake3 (groupPreimage (forkedGroup n))).Nodup ∧
      ([1, 2, 3].map fun n => blake3 (recordPreimage (forkedRecord n))).Nodup) where
  out := by decide +kernel

theorem forked_apart : StoredApart forkedBlocks where
  groups := by
    have hnodup := forked_hashes.out.1
    rintro x ⟨b, hb, p, hp, rfl⟩ y ⟨b', hb', p', hp', rfl⟩ he
    obtain ⟨n, hn, rfl⟩ := forked_groups hb hp
    obtain ⟨m, hm, rfl⟩ := forked_groups hb' hp'
    rw [List.inj_on_of_nodup_map hnodup hn hm he]
  bonds := by
    obtain ⟨entry, hone, hvalue, huntil, hheight⟩ := newMiddle_registers
    have hall : ∀ p ∈ registeredBonds forkedBlocks, p = (0, entry) := by
      intro p hp
      have hmem := forked_bonds hp
      rw [hone] at hmem
      exact List.mem_singleton.mp hmem
    constructor
    · intro p hp
      rwa [hall p hp]
    · intro p hp
      rwa [hall p hp]
    · intro p hp
      rwa [hall p hp]
    · rintro x ⟨p, hp, rfl⟩ y ⟨q, hq, rfl⟩ -
      rw [hall p hp, hall q hq]
  links := by
    intro b hb relayed hrelay
    have hlinks : ((⟨midstateBlockHash, minedLinks (fun height => wordOf (Bytes.le 8 height)) 61
        (midstateBlockHeight + 1) 0⟩ : RelayHeaders).links.map fun l => l.2.finalHash).Nodup := by
      decide +kernel
    rcases forked_cases hb with rfl | rfl | rfl | rfl | rfl | rfl
    · cases hrelay
    · cases hrelay
    · cases hrelay
    · cases hrelay
    · obtain rfl := Option.some.inj hrelay
      exact fun x hx y hy he => List.inj_on_of_nodup_map hlinks hx hy he
    · cases hrelay

theorem forked_mined {blocks : List Batch} {batch : Batch} {t : State}
    (h : Built (blocks ++ [batch]) t) (hsub : ∀ c ∈ blocks ++ [batch], c ∈ forkedBlocks)
    {p : OutputGroup × Bool} (hp : p ∈ blockGroups batch) :
    blocks.length ∈ [1, 2, 3] ∧ p = (forkedGroup blocks.length, true) := by
  have hplace := forked_chains h hsub
  have hsplit : ∀ {front : List Batch} {last : Batch},
      blocks ++ [batch] = front ++ [last] → blocks = front ∧ batch = last := by
    intro front last heq
    obtain ⟨hfront, hone⟩ := List.append_inj' heq rfl
    exact ⟨hfront, List.head_eq_of_cons_eq hone⟩
  have hlast : ∀ {front : List Batch} {last : Batch} {s : State}, Built front s →
      blocks ++ [batch] = front ++ [last] → front.length ∈ [1, 2, 3] →
        blockGroups last = [((rushedCoinbase s.height (blockReward s.height)).outputs, true)] →
          blocks.length ∈ [1, 2, 3] ∧ p = (forkedGroup blocks.length, true) := by
    intro front last s hs heq hlen hgroups
    obtain ⟨rfl, rfl⟩ := hsplit heq
    rw [hgroups, hs.height] at hp
    exact ⟨hlen, List.mem_singleton.mp hp⟩
  simp only [forkedPlaces, List.mem_cons, List.not_mem_nil, or_false, Prod.mk.injEq] at hplace
  obtain ⟨heq, -⟩ | ⟨heq, -⟩ | ⟨heq, -⟩ | ⟨heq, -⟩ | ⟨heq, -⟩ | ⟨heq, -⟩ | ⟨heq, -⟩ := hplace
  · exact absurd heq (List.append_ne_nil_of_right_ne_nil _ (List.cons_ne_nil _ _))
  · rw [(@hsplit [] .genesis heq).2] at hp
    exact absurd hp List.not_mem_nil
  · exact @hlast [.genesis] oldBlock _ forked_first heq (by decide) rfl
  · exact @hlast [.genesis, oldBlock] oldTop _ oldState_chain.built heq (by decide) rfl
  · exact @hlast [.genesis] newBlock _ forked_first heq (by decide) rfl
  · exact @hlast [.genesis, newBlock] newMiddle _ newState_chain.built heq (by decide) rfl
  · exact @hlast [.genesis, newBlock, newMiddle] newTop _ newMiddleState_chain.built heq
      (by decide) rfl

theorem forked_utxos {chain : List Batch} {s : State} (h : Built chain s)
    (hsub : ∀ c ∈ chain, c ∈ forkedBlocks) {p : Point32 × UtxoEntry}
    (hp : s.utxos[p.1]? = some p.2) : ∃ n ∈ [1, 2, 3], p = forkedRecord n := by
  induction h with
  | genesis =>
    rw [show State.genesis.utxos = ∅ from rfl, Std.ExtTreeMap.getElem?_empty] at hp
    cases hp
  | @block blocks s batch now pre skip s' hb hok ih =>
    rcases record_of_accepts ⟨_, _, _, _, hok⟩ hp with hp | hp
    · exact ih (fun c hc => hsub c (List.mem_append_left _ hc)) hp
    · obtain ⟨g, hg, ho⟩ := List.mem_flatMap.mp hp
      obtain ⟨hn, rfl⟩ := forked_mined (hb.block hok) hsub hg
      rw [hb.height] at ho
      exact ⟨_, hn, List.mem_singleton.mp ho⟩

theorem forked_records : RecordsApart (chainRecords forkedBlocks) where
  height := by
    rintro p ⟨chain, s, hsub, hb, hp⟩
    obtain ⟨n, hn, rfl⟩ := forked_utxos hb hsub hp
    have hall : ∀ n ∈ [1, 2, 3], (forkedRecord n).2.height < 2 ^ 64 := by decide
    exact hall n hn
  inj := by
    have hnodup := forked_hashes.out.2
    rintro x ⟨p, ⟨chain, s, hsub, hb, hp⟩, rfl⟩ y ⟨q, ⟨chain', s', hsub', hb', hq⟩, rfl⟩ he
    obtain ⟨n, hn, rfl⟩ := forked_utxos hb hsub hp
    obtain ⟨m, hm, rfl⟩ := forked_utxos hb' hsub' hq
    rw [List.inj_on_of_nodup_map hnodup hn hm he]

theorem forked_ids : Set.InjOn (fun b : Batch => b.extension.finalHash) forkedBlocks := by
  have hnodup : ([Batch.genesis, oldBlock, oldTop, newBlock, newMiddle, newTop].map
      fun b => b.extension.finalHash).Nodup := by
    have hfirst := raced_blocks.2.2.2.2.2
    rw [← genesis_hash_raced] at hfirst
    exact hfirst
  exact fun b hb c hc he => List.inj_on_of_nodup_map hnodup hb hc he

theorem forked_commits {db : Database} {chain batches : List Batch} {s : State} {peak : Nat}
    {effects : List BlockEffects} (first : Nat) (h : Database.Made forkedBlocks db chain peak)
    (hfloor : (db.finality.getD .default).floor ≤ first) (hpeak : peak ≤ undoKeep)
    (hfirst : first ≤ chain.length) (hnew : ∀ c ∈ batches, c ∈ forkedBlocks)
    (hb : Built (chain.take first ++ batches) s)
    (heffects : EffectsOf (chain.take first) batches effects)
    (hfits : WorkFits (chain.take first ++ batches)) :
    ∃ db', db.commitChain first batches effects s = .ok db' ∧
      (db'.setFinality .default).finality = some .default ∧
        Database.Made forkedBlocks (db'.setFinality .default) (chain.take first ++ batches)
          (max peak s.height) := by
  obtain ⟨t, kept, hkeeps, hkept, -, hsub⟩ := h.keeps forked_apart
  obtain ⟨db', hok⟩ := (hkeeps.commit first forked_apart hsub hnew hb heffects).2 hfloor (by omega)
    hfirst hfits
  exact ⟨db', hok, rfl, (h.commit first hnew hb heffects hok).setFinality .default⟩

theorem oldBranch_effects : EffectsOf [] [.genesis, oldBlock, oldTop]
    [racedFirst.effects, oldState.effects, oldTopState.effects] :=
  .of_cons forked_first rfl
    (.of_cons oldState_chain.built rfl (.of_cons oldTopState_chain.built rfl .nil))

theorem newBranch_effects : EffectsOf [.genesis] [newBlock, newMiddle, newTop]
    [newState.effects, newMiddleState.effects, newTopState.effects] :=
  .of_cons newState_chain.built rfl
    (.of_cons newMiddleState_chain.built rfl (.of_cons newTopState_chain.built rfl .nil))

theorem oldBranch_mem : ∀ c ∈ [.genesis, oldBlock, oldTop], c ∈ forkedBlocks :=
  fun _ hc => List.mem_append_left [newBlock, newMiddle, newTop] hc

theorem newBranch_mem : ∀ c ∈ [newBlock, newMiddle, newTop], c ∈ forkedBlocks :=
  fun _ hc => List.mem_append_right [Batch.genesis, oldBlock, oldTop] hc

instance branches_fit : Fact (WorkFits [.genesis, oldBlock, oldTop] ∧
    WorkFits [.genesis, newBlock, newMiddle, newTop]) where
  out := by
    unfold WorkFits
    decide +kernel

theorem forked_made : ∃ db, db.finality = some .default ∧
    Database.Made forkedBlocks db [.genesis, oldBlock, oldTop] 3 := by
  obtain ⟨db, -, hfinality, hmade⟩ := forked_commits 0 .empty (Nat.le_refl 0) (Nat.zero_le _)
    (Nat.le_refl 0) oldBranch_mem oldTopState_chain.built oldBranch_effects branches_fit.out.1
  have hheight : oldTopState.height = 3 := oldTopState_chain.built.height
  rw [hheight] at hmade
  exact ⟨_, hfinality, hmade⟩

theorem reorganisations_commit_forked : ∃ db db' : Database, ∃ peak,
    Database.Made forkedBlocks db [.genesis, oldBlock, oldTop] 3 ∧
      db.commitChain 1 [newBlock, newMiddle, newTop]
        [newState.effects, newMiddleState.effects, newTopState.effects] newTopState = .ok db' ∧
        Database.Made forkedBlocks db' [.genesis, newBlock, newMiddle, newTop] peak := by
  obtain ⟨db, hfinality, hmade⟩ := forked_made
  obtain ⟨db', hok, hmade'⟩ := reorganisations_commit 1 forked_apart hmade newBranch_mem
    newTopState_chain.built newBranch_effects branches_fit.out.2 (by decide)
    (by rw [hfinality]; decide) (by decide)
  exact ⟨db, db', _, hmade, hok, hmade'⟩

theorem forked_stored : ∃ db, Database.Made forkedBlocks db
    [.genesis, newBlock, newMiddle, newTop] 4 ∧ ∀ h < 4, h ∈ db.batches := by
  obtain ⟨db, hok, hfinality, hmade⟩ := forked_commits 0 .empty (Nat.le_refl 0) (Nat.zero_le _)
    (Nat.le_refl 0) oldBranch_mem oldTopState_chain.built oldBranch_effects branches_fit.out.1
  have hheight : oldTopState.height = 3 := oldTopState_chain.built.height
  have hheight' : newTopState.height = 4 := newTopState_chain.built.height
  rw [hheight] at hmade
  obtain ⟨db', hok', -, hmade'⟩ := forked_commits 1 hmade (by rw [hfinality]; decide) (by decide)
    (by decide) newBranch_mem newTopState_chain.built newBranch_effects branches_fit.out.2
  rw [hheight'] at hmade'
  refine ⟨_, hmade', ?_⟩
  have hstored : (do
      let db ← Database.empty.commitChain 0 [.genesis, oldBlock, oldTop]
        [racedFirst.effects, oldState.effects, oldTopState.effects] oldTopState
      let db' ← (db.setFinality .default).commitChain 1 [newBlock, newMiddle, newTop]
        [newState.effects, newMiddleState.effects, newTopState.effects] newTopState
      .ok ((List.range 4).all fun h => db'.batches.contains h)) = (.ok true : Result Bool) := by
    decide +kernel
  rw [hok, bind_ok, hok', bind_ok, Except.ok.injEq, List.all_eq_true] at hstored
  exact fun h hh => hstored h (List.mem_range.mpr hh)

theorem forked_reorganised : ∃ db, Database.Made forkedBlocks db
    [.genesis, newBlock, newMiddle, newTop] 4 :=
  forked_stored.imp fun _ h => h.1

theorem forked_behind : ∃ db, Database.Made forkedBlocks db [.genesis, newBlock, newMiddle] 3 := by
  have hnew : ∀ c ∈ [.genesis, newBlock, newMiddle], c ∈ forkedBlocks := by
    intro c hc
    rcases List.mem_cons.mp hc with rfl | hc
    · exact oldBranch_mem _ List.mem_cons_self
    · exact newBranch_mem c (List.mem_append_left [newTop] hc)
  have heffects : EffectsOf [] [.genesis, newBlock, newMiddle]
      [racedFirst.effects, newState.effects, newMiddleState.effects] :=
    .of_cons forked_first rfl
      (.of_cons newState_chain.built rfl (.of_cons newMiddleState_chain.built rfl .nil))
  have hwhole : WorkFits ([.genesis, newBlock, newMiddle] ++ [newTop]) := branches_fit.out.2
  obtain ⟨db, -, -, hmade⟩ := forked_commits 0 .empty (Nat.le_refl 0) (Nat.zero_le _)
    (Nat.le_refl 0) hnew newMiddleState_chain.built heffects hwhole.of_append
  have hheight : newMiddleState.height = 3 := newMiddleState_chain.built.height
  rw [hheight] at hmade
  exact ⟨_, hmade⟩

theorem tables_follow_forked : ∃ db : Database,
    Database.Made forkedBlocks db [.genesis, newBlock, newMiddle, newTop] 4 ∧
      db.rootRelay.ledger.Tells newTopState ∧
        db.rootRelay.ledger.Covers [.genesis, newBlock, newMiddle, newTop] ∧
          db.stateMeta = some (.of newTopState) := by
  obtain ⟨db, hmade⟩ := forked_reorganised
  obtain ⟨s, hbuilt, htells, hcovers, -, -, hmeta, -⟩ := tables_follow_chain forked_apart hmade
  obtain rfl := newTopState_chain.built.unique hbuilt
  exact ⟨db, hmade, htells, hcovers, hmeta (List.cons_ne_nil _ _)⟩

theorem restart_restores_forked : ∃ db : Database,
    Database.Made forkedBlocks db [.genesis, newBlock, newMiddle, newTop] 4 ∧
      db.loadState = .ok (some { newTopState with effects := .empty }) := by
  obtain ⟨db, hmade⟩ := forked_reorganised
  obtain ⟨s, hbuilt, hload⟩ := restart_restores_state forked_apart forked_records hmade
    (List.cons_ne_nil _ _)
  obtain rfl := newTopState_chain.built.unique hbuilt
  exact ⟨db, hmade, hload⟩

/-- The state of the first block of the second branch, from that of its last; the state of the
first branch is gone. -/
theorem past_states_derived_forked : ∃ db : Database,
    Database.Made forkedBlocks db [.genesis, newBlock, newMiddle, newTop] 4 ∧
      db.stateAt newTopState 2 = .ok { newState with effects := newTopState.effects } ∧
        ∀ x, db.stateAt oldTopState 2 ≠ .ok x := by
  obtain ⟨db, hmade⟩ := forked_reorganised
  obtain ⟨kept, hkept, -, hnew⟩ := past_states_derived forked_apart forked_records forked_ids hmade
    newTopState_chain.built (fun c hc => (List.mem_cons.mp hc).elim
      (fun h => h ▸ oldBranch_mem _ List.mem_cons_self) (newBranch_mem c)) (by decide)
  obtain ⟨kept', -, -, hold⟩ := past_states_derived forked_apart forked_records forked_ids hmade
    oldTopState_chain.built oldBranch_mem (by decide)
  have hzero : kept ≤ 2 := Nat.le_trans hkept (by decide)
  refine ⟨db, hmade, (hnew 2 _).mpr ⟨List.prefix_refl _, by decide, .inr hzero, newState,
    newState_chain.built, rfl⟩, ?_⟩
  intro x hx
  obtain ⟨hbelow, -⟩ := (hold 2 x).mp hx
  obtain ⟨-, hbelow⟩ := List.cons_prefix_cons.mp hbelow
  obtain ⟨heq, -⟩ := List.cons_prefix_cons.mp hbelow
  have hhash : oldBlock.extension.finalHash = newBlock.extension.finalHash := by rw [heq]
  exact absurd hhash (by decide)

end Forked

end Midwimble
