import Midwimble.Relay.Shape

namespace Midwimble
open Fallible Indexed
set_option autoImplicit true

/-- The headers a run relays, each with the hash it builds on. -/
def RelayHeaders.links (r : RelayHeaders) : List (Bytes32 × HeaderLink) :=
  linksFrom r.prev r.headers

theorem hashes_nodup {es : List RelayEntry}
    (hchain : es.IsChain fun below e => e.prev = below.hash)
    (hprev : ∀ a ∈ es.tail, ∀ b ∈ es.tail, a.hash = b.hash → a.prev = b.prev)
    (hfirst : ∀ first ∈ es.head?, ∀ e ∈ es.tail, e.hash ≠ first.hash) :
    (es.map RelayEntry.hash).Nodup := by
  have hlink : ∀ i (hi : i + 1 < es.length), es[i + 1].prev = es[i].hash :=
    List.isChain_iff_getElem.mp hchain
  have htail : ∀ i (hi : i + 1 < es.length), es[i + 1] ∈ es.tail := by
    intro i hi
    rw [← List.getElem_tail (by rw [List.length_tail]; omega)]
    exact List.getElem_mem _
  rw [List.Nodup, List.pairwise_map, List.pairwise_iff_getElem]
  intro i j hi hj hij heq
  -- Two equal hashes step down together until the lower one is the first.
  induction i generalizing j with
  | zero =>
    obtain ⟨j, rfl⟩ : ∃ j', j = j' + 1 := ⟨j - 1, by omega⟩
    refine hfirst es[0] ?_ _ (htail j hj) heq.symm
    rw [List.head?_eq_getElem?, List.getElem?_eq_getElem hi]
    rfl
  | succ i ih =>
    obtain ⟨j, rfl⟩ : ∃ j', j = j' + 1 := ⟨j - 1, by omega⟩
    refine ih j (by omega) (by omega) (by omega) ?_
    rw [← hlink i hi, ← hlink j hj]
    exact hprev _ (htail i hi) _ (htail j hj) heq

theorem Relay.Tags.hash_nodup {r : Relay} {es : List RelayEntry} (ht : r.Tags es)
    (hr : Rises es) : (es.map RelayEntry.hash).Nodup := by
  rw [List.Nodup, List.pairwise_map]
  refine hr.pairwise.imp_of_mem ?_
  intro a b ha hb hab heq
  exact absurd (Tagged.inj ht ha hb heq) (Nat.ne_of_lt hab)

theorem Relay.Holds.byHash {r : Relay} {es : List RelayEntry} {x : Bytes32} (h : r.Holds es)
    (ht : r.Tags es) (hb : r.byHash x = some e) : e ∈ es ∧ e.hash = x := by
  obtain ⟨k, hk, he⟩ := Option.bind_eq_some_iff.mp hb
  obtain ⟨e', hm', hx, hk'⟩ := (ht x k).mp hk
  obtain ⟨hm, hek⟩ := (h k e).mp he
  have hee : e' = e := Keyed.inj h hm' hm (hk'.trans hek.symm)
  exact ⟨hm, hee ▸ hx⟩

theorem NoClash.mono {links links' : List (Bytes32 × HeaderLink)} (h : NoClash links')
    (hsub : ∀ x ∈ links, x ∈ links') : NoClash links :=
  fun x hx y hy heq => h x (hsub x hx) y (hsub y hy) heq

section Runs

variable [Primitives]

/-- One call of `extend`. -/
structure RelayCall where
  relay : Relay
  relayed : RelayHeaders

/-- The relay after some successful calls of `extend` on genesis. -/
inductive RelayRun : List RelayCall → Relay → Prop where
  | genesis : RelayRun [] .genesis
  | extend {calls r relayed blockTimestamp change r'} : RelayRun calls r →
      r.extend relayed blockTimestamp = (.ok change, r') →
      RelayRun (calls ++ [⟨r, relayed⟩]) r'

/-- Every header ever relayed. -/
def relayedLinks (calls : List RelayCall) : List (Bytes32 × HeaderLink) :=
  calls.flatMap fun c => c.relayed.links

variable {r r' : Relay} {full es : List RelayEntry}

theorem Relay.Extended.mem_links (x : r.Extended relayed full es change r')
    (hs : r.Shape full es) (ht : r.Tags es) (ha : a ∈ change.added) :
    ∃ p ∈ relayed.links, p.1 = a.prev ∧ p.2.finalHash = a.hash := by
  have hbase := (hs.holds.byHash ht x.attaches).2
  have hm : (a.prev, a.hash) ∈ change.added.map fun e => (e.prev, e.hash) :=
    List.mem_map_of_mem ha
  rw [x.run, nextRun_links, hbase] at hm
  obtain ⟨p, hp, heq⟩ := List.mem_map.mp hm
  rw [Prod.mk.injEq] at heq
  exact ⟨p, hp, heq⟩

/-- Headers that do not clash keep the hash index in step. -/
theorem Relay.Extended.tagged (x : r.Extended relayed full es change r') (hs : r.Shape full es)
    (ht : r.Tags es) (hn : NoClash relayed.links) :
    r'.Tags (x.kept ++ x.base :: change.added) := by
  have hrises : Rises (x.stale ++ x.kept ++ x.base :: x.replaced) := x.entries ▸ hs.rises
  have hlow : ∀ e ∈ x.stale ++ x.kept ++ [x.base], e ∈ es ∧ e.height ≤ x.base.height := by
    intro e he
    refine ⟨?_, ?_⟩
    · rw [x.entries, List.append_cons]
      exact List.mem_append_left _ he
    · rcases List.mem_append.mp he with he | he
      · exact ((List.pairwise_append.mp hrises.pairwise).2.2 e he _ List.mem_cons_self).le
      · rw [List.mem_singleton.mp he]
  have hfresh : ∀ e ∈ x.stale ++ x.kept ++ [x.base], ∀ a ∈ change.added, e.hash ≠ a.hash := by
    intro e he a ha heq
    obtain ⟨hm, hle⟩ := hlow e he
    have hlt := x.fresh a ha e.height (heq ▸ Tagged.get ht hm)
    omega
  have hold : ((x.stale ++ x.kept ++ [x.base]).map RelayEntry.hash).Nodup := by
    have hnd := ht.hash_nodup hs.rises
    rw [x.entries, List.append_cons, List.map_append] at hnd
    exact (List.nodup_append.mp hnd).1
  have hadded : ((x.base :: change.added).map RelayEntry.hash).Nodup := by
    apply hashes_nodup
    · exact (List.isChain_split.mp x.shape.follows).2.imp fun _ _ hf => hf.prev
    · intro a ha b hb heq
      obtain ⟨p, hp, hpa, hph⟩ := x.mem_links hs ht ha
      obtain ⟨q, hq, hqb, hqh⟩ := x.mem_links hs ht hb
      rw [← hpa, ← hqb, hn p hp q hq (by rw [hph, hqh, heq])]
    · intro first hfirst e he
      have hb : x.base = first := by simpa using hfirst
      exact hb ▸ (hfresh x.base (by simp) e he).symm
  apply x.tags ht
  rw [List.append_cons, List.map_append, List.nodup_append]
  refine ⟨hold, (List.nodup_cons.mp hadded).2, ?_⟩
  intro h hh h' hh' heq
  obtain ⟨e, he, rfl⟩ := List.mem_map.mp hh
  obtain ⟨a, ha, rfl⟩ := List.mem_map.mp hh'
  exact hfresh e he a ha heq

theorem RelayRun.shape (h : RelayRun calls r) (hn : NoClash (relayedLinks calls)) :
    ∃ full es, r.Shape full es ∧ r.Tags es := by
  induction h with
  | genesis => exact ⟨_, _, shape_genesis, tags_genesis⟩
  | extend _ hext ih =>
    obtain ⟨full, es, hs, ht⟩ := ih (hn.mono fun x hx => by
      rw [relayedLinks, List.flatMap_append]
      exact List.mem_append_left _ hx)
    obtain ⟨x⟩ := hs.extend hext
    refine ⟨_, _, x.shape, x.tagged hs ht (hn.mono fun y hy => ?_)⟩
    rw [relayedLinks, List.flatMap_append]
    exact List.mem_append_right _ (by simpa using hy)

/-- The loop of `from_entries` accepts exactly the linked entries without a repeated hash. -/
theorem linkEntries_eq_ok {relay : Relay} {pre rest : List RelayEntry} {below : RelayEntry}
    (hh : relay.Holds (pre ++ [below])) (ht : relay.Tags (pre ++ [below]))
    (hr : Rises (pre ++ [below])) :
    Relay.linkEntries relay below rest = .ok r ↔
      (below :: rest).IsChain RelayEntry.Links ∧
        ((pre ++ below :: rest).map RelayEntry.hash).Nodup ∧ r = relay.insertAll rest := by
  induction rest generalizing relay pre below with
  | nil =>
    simp only [Relay.linkEntries, Except.ok.injEq, List.isChain_singleton, true_and,
      ht.hash_nodup hr, Relay.insertAll, List.foldl_nil]
    exact eq_comm
  | cons e rest ih =>
    have hlinks : ¬ (e.height ≠ below.height + 1 ∨ e.prev ≠ below.hash ∨
        e.chainWork ≠ satAdd128 below.chainWork e.work ∨
        e.digest ≠ e.digestAfter below.digest) ↔ below.Links e := by
      simp only [not_or, not_not, ne_eq]
      constructor
      · rintro ⟨h1, h2, h3, h4⟩
        exact ⟨h1, h2, h3, h4⟩
      · rintro ⟨h1, h2, h3, h4⟩
        exact ⟨h1, h2, h3, h4⟩
    have hknown : ¬ relay.heights.contains e.hash ↔ ∀ x ∈ pre ++ [below], x.hash ≠ e.hash := by
      rw [Std.ExtTreeMap.contains_eq_isSome_getElem?, Option.isSome_iff_exists]
      constructor
      · intro hn x hx heq
        exact hn ⟨x.height, heq ▸ Tagged.get ht hx⟩
      · rintro hn ⟨k, hk⟩
        obtain ⟨x, hx, hxe, -⟩ := (ht _ _).mp hk
        exact hn x hx hxe
    have hstep (hl : below.Links e) (hf : ∀ x ∈ pre ++ [below], x.hash ≠ e.hash) :=
      @ih (relay.insert e) (pre ++ [below]) e
        (Keyed.insert hh fun x hx => by
          have hp := List.pairwise_append.mp hr.pairwise
          have hle : x.height ≤ below.height := by
            rcases List.mem_append.mp hx with hx | hx
            · exact (hp.2.2 x hx _ (by simp)).le
            · rw [List.mem_singleton.mp hx]
          rw [hl.height]
          omega)
        (Tagged.insert ht hf)
        (by
          rw [← List.append_cons]
          exact List.isChain_append_cons_cons.mpr ⟨hr, hl.height, .singleton e⟩)
    simp only [Relay.linkEntries, bind_eq_ok, bailIf_eq_ok, hlinks, hknown]
    rw [List.isChain_cons_cons, List.append_cons pre below (e :: rest)]
    constructor
    · rintro ⟨_, hl, _, hf, h⟩
      obtain ⟨hc, hn, hrr⟩ := (hstep hl hf).mp h
      exact ⟨⟨hl, hc⟩, hn, hrr⟩
    · rintro ⟨⟨hl, hc⟩, hn, hrr⟩
      have hf : ∀ x ∈ pre ++ [below], x.hash ≠ e.hash := by
        rw [List.map_append, List.nodup_append] at hn
        exact fun x hx => hn.2.2 _ (List.mem_map_of_mem hx) _ (by simp)
      exact ⟨(), hl, (), hf, (hstep hl hf).mpr ⟨hc, hn, hrr⟩⟩

theorem links_rises (h : es.IsChain RelayEntry.Links) : Rises es :=
  h.imp fun _ _ hl => hl.height

theorem fromEntries_eq_ok :
    Relay.fromEntries es = .ok r ↔ es ≠ [] ∧ es.length ≤ relayWindow + 1 ∧
      es.IsChain RelayEntry.Links ∧ (es.map RelayEntry.hash).Nodup ∧
      r = Relay.empty.insertAll es := by
  cases es with
  | nil => simp [Relay.fromEntries]
  | cons first rest =>
    have hh : (Relay.empty.insert first).Holds ([] ++ [first]) :=
      Keyed.insert keyed_empty (by simp)
    have ht : (Relay.empty.insert first).Tags ([] ++ [first]) :=
      Tagged.insert tagged_empty (by simp)
    simp only [Relay.fromEntries, bind_eq_ok, bailIf_eq_ok, not_lt, gt_iff_lt,
      linkEntries_eq_ok hh ht (.singleton first)]
    constructor
    · rintro ⟨_, hl, hc, hn, hr⟩
      exact ⟨by simp, hl, hc, hn, hr⟩
    · rintro ⟨-, hl, hc, hn, hr⟩
      exact ⟨(), hl, hc, hn, hr⟩

theorem fromEntries_holds (h : Relay.fromEntries es = .ok r) : r.Holds es ∧ r.Tags es := by
  obtain ⟨-, -, hc, hn, rfl⟩ := fromEntries_eq_ok.mp h
  have hh : Relay.empty.Holds [] := keyed_empty
  have ht : Relay.empty.Tags [] := tagged_empty
  exact ⟨hh.insertAll (links_rises hc).nodup, ht.insertAll hn⟩

theorem Relay.Shape.fromEntries (h : r.Shape full es) (ht : r.Tags es) :
    Relay.fromEntries es = .ok r := by
  have hlinks : es.IsChain RelayEntry.Links :=
    (h.follows.suffix h.window).imp fun _ _ hf => hf.toLinks
  have hok := fromEntries_eq_ok.mpr
    ⟨h.nonempty, h.bounded, hlinks, ht.hash_nodup h.rises, rfl⟩
  obtain ⟨hh', ht'⟩ := fromEntries_holds hok
  rw [hok, hh'.eq h.holds ht' ht]

theorem Relay.Extended.perm (x : r.Extended relayed full es change r') :
    (x.kept ++ [x.base] ++ change.removed).Perm es := by
  have hp : (x.kept ++ [x.base] ++ change.removed).Perm
      (x.stale ++ x.kept ++ x.base :: x.replaced) := by
    rw [x.removed]
    have hc : (x.kept ++ x.base :: x.replaced ++ x.stale).Perm
        (x.stale ++ (x.kept ++ x.base :: x.replaced)) := List.perm_append_comm
    simpa using hc
  rwa [← x.entries] at hp

theorem Relay.Extended.revert (x : r.Extended relayed full es change r') (hs : r.Shape full es)
    (ht : r.Tags es) (ht' : r'.Tags (x.kept ++ x.base :: change.added)) :
    r'.revertChange change.removed change.added = r := by
  have hsplit : ∀ e, e ∈ x.kept ++ x.base :: change.added ↔
      e ∈ change.added ∨ e ∈ x.kept ++ [x.base] := by
    intro e
    simp only [List.mem_append, List.mem_cons, List.not_mem_nil, or_false]
    tauto
  have hapart : ∀ a ∈ change.added, ∀ b ∈ x.kept ++ [x.base], a.height ≠ b.height := by
    intro a ha b hb
    have hp := x.shape.rises.pairwise
    rw [List.append_cons, List.pairwise_append] at hp
    exact Nat.ne_of_gt (hp.2.2 b hb a ha)
  have hcleared := (x.shape.holds.removeAll (change.added.map RelayEntry.height)).congr
    fun e => mem_filter_apart hsplit hapart
  have htcleared := (ht'.removeAll x.shape.holds
    (change.added.map RelayEntry.height)).congr fun e => mem_filter_apart hsplit hapart
  have hheights := (x.perm.map RelayEntry.height).nodup_iff.mpr hs.rises.nodup
  have hhashes := (x.perm.map RelayEntry.hash).nodup_iff.mpr (ht.hash_nodup hs.rises)
  exact ((hcleared.insertAll hheights).congr fun e => x.perm.mem_iff).eq hs.holds
    ((htcleared.insertAll hhashes).congr fun e => x.perm.mem_iff) ht

theorem Relay.Extended.redo (x : r.Extended relayed full es change r') (hs : r.Shape full es)
    (ht : r.Tags es) (ht' : r'.Tags (x.kept ++ x.base :: change.added)) :
    r.applyChange change.removed change.added = r' := by
  have hsplit : ∀ e, e ∈ es ↔ e ∈ change.removed ∨ e ∈ x.kept ++ [x.base] := by
    intro e
    rw [← x.perm.mem_iff, List.mem_append, or_comm]
  have hapart : ∀ a ∈ change.removed, ∀ b ∈ x.kept ++ [x.base], a.height ≠ b.height := by
    have hn := (x.perm.map RelayEntry.height).nodup_iff.mpr hs.rises.nodup
    rw [List.map_append, List.nodup_append] at hn
    exact fun a ha b hb =>
      (hn.2.2 _ (List.mem_map_of_mem hb) _ (List.mem_map_of_mem ha)).symm
  have hcleared := (hs.holds.removeAll (change.removed.map RelayEntry.height)).congr
    fun e => mem_filter_apart hsplit hapart
  have htcleared := (ht.removeAll hs.holds (change.removed.map RelayEntry.height)).congr
    fun e => mem_filter_apart hsplit hapart
  have hheights := x.shape.rises.nodup
  have hhashes := ht'.hash_nodup x.shape.rises
  have hh' := x.shape.holds
  rw [List.append_cons] at hheights hhashes hh' ht'
  exact (hcleared.insertAll hheights).eq hh' (htcleared.insertAll hhashes) ht'

/-- The relay invariant. -/
theorem relay_invariant (h : RelayRun calls r) (hn : NoClash (relayedLinks calls)) :
    (r.values ≠ [] ∧ r.values.length ≤ relayWindow + 1 ∧
      r.values.IsChain (fun below e => e.height = below.height + 1 ∧ e.prev = below.hash ∧
        e.chainWork = satAdd128 below.chainWork e.work ∧
        e.digest = e.digestAfter below.digest)) ∧
    (∀ k e, r.entries[k]? = some e ↔ e ∈ r.values ∧ e.height = k) ∧
    (∀ x k, r.heights[x]? = some k ↔ ∃ e : RelayEntry, r.entries[k]? = some e ∧ e.hash = x) ∧
    (∃ full, full.head? = some .root ∧ full.IsChain RelayEntry.Follows ∧
      r.values <:+ full) ∧
    Relay.fromEntries r.values = .ok r ∧
    (∀ relayed blockTimestamp e r',
      r.extend relayed blockTimestamp = (.error e, r') → r' = r) ∧
    ∀ relayed blockTimestamp change r',
      r.extend relayed blockTimestamp = (.ok change, r') →
      NoClash (relayedLinks (calls ++ [⟨r, relayed⟩])) →
      r'.revertChange change.removed change.added = r ∧
        r.applyChange change.removed change.added = r' := by
  obtain ⟨full, es, hs, ht⟩ := h.shape hn
  rw [hs.values]
  refine ⟨⟨hs.nonempty, hs.bounded, ?_⟩, hs.holds, ?_, ⟨full, hs.root, hs.follows, hs.window⟩,
    hs.fromEntries ht, fun _ _ _ _ => extend_error, ?_⟩
  · exact (hs.follows.suffix hs.window).imp fun _ _ hf =>
      ⟨hf.height, hf.prev, hf.chainWork, hf.digest⟩
  · intro x k
    rw [ht x k]
    constructor
    · rintro ⟨e, he, hx, hk⟩
      exact ⟨e, (hs.holds k e).mpr ⟨he, hk⟩, hx⟩
    · rintro ⟨e, he, hx⟩
      obtain ⟨hm, hk⟩ := (hs.holds k e).mp he
      exact ⟨e, hm, hx, hk⟩
  · intro relayed blockTimestamp change r' hext hn'
    obtain ⟨x⟩ := hs.extend hext
    have ht' := x.tagged hs ht (hn'.mono fun y hy => by
      rw [relayedLinks, List.flatMap_append]
      exact List.mem_append_right _ (by simpa using hy))
    exact ⟨x.revert hs ht ht', x.redo hs ht ht'⟩

theorem extend_of_isOk (h : (r.extend relayed blockTimestamp).1.isOk = true) :
    ∃ change, r.extend relayed blockTimestamp =
      (.ok change, (r.extend relayed blockTimestamp).2) := by
  cases he : r.extend relayed blockTimestamp with
  | mk outcome r' =>
    rw [he] at h
    cases outcome with
    | ok change => exact ⟨change, rfl⟩
    | error e => cases h

end Runs

section Branched

/-- Midstate headers from a height on, each hash worked out from the height, stamped five days
behind their schedule. -/
def minedLinks (finalHash : Nat → Bytes32) :
    (n height parentTimestamp : Nat) → List HeaderLink
  | 0, _, _ => []
  | n + 1, height, parentTimestamp =>
    let target :=
      if height = midstateBlockHeight + 1 then 1#256 <<< 214
      else midstateTarget height parentTimestamp
    let timestamp := midstateAsertTime + 60 * height - 432000
    ⟨0, 0, timestamp, target, height, finalHash height⟩ ::
      minedLinks finalHash n (height + 1) timestamp

/-- Three headers on the root. -/
def minedRun : RelayHeaders :=
  ⟨midstateBlockHash, minedLinks (BitVec.ofNat 256) 3 (midstateBlockHeight + 1) 0⟩

/-- Three others on the first of them. -/
def minedBranch : RelayHeaders :=
  ⟨BitVec.ofNat 256 (midstateBlockHeight + 1),
    minedLinks (fun height => BitVec.ofNat 256 (2 * height)) 3 (midstateBlockHeight + 2)
      (midstateAsertTime + 60 * (midstateBlockHeight + 1) - 432000)⟩

/-- Words under a hash that keeps of a relay entry its own hash. -/
@[reducible] def Primitives.relaying : Primitives :=
  { Primitives.words with
    blake3 := fun data => if data.length = 272 then wordOf (data.drop 96) else 0 }

local instance relayingWords : Primitives := Primitives.relaying

/-- The relay after the first headers. -/
def minedRelay : Relay := (Relay.genesis.extend minedRun genesisTimestamp).2

/-- The relay after the branch. -/
def branchedRelay : Relay := (minedRelay.extend minedBranch genesisTimestamp).2

theorem minedRelay_run : RelayRun [⟨.genesis, minedRun⟩] minedRelay := by
  obtain ⟨change, hext⟩ : ∃ change, Relay.genesis.extend minedRun genesisTimestamp =
      (.ok change, (Relay.genesis.extend minedRun genesisTimestamp).2) :=
    extend_of_isOk (by decide +kernel)
  exact RelayRun.genesis.extend hext

theorem branch_extends : ∃ change,
    minedRelay.extend minedBranch genesisTimestamp = (.ok change, branchedRelay) :=
  extend_of_isOk (by decide +kernel)

theorem mined_noClash :
    NoClash (relayedLinks [⟨.genesis, minedRun⟩, ⟨minedRelay, minedBranch⟩]) := by
  unfold NoClash
  decide +kernel

/-- A branch from the first header replaces the two above it. -/
theorem relay_invariant_branched : ∃ change,
    minedRelay.extend minedBranch genesisTimestamp = (.ok change, branchedRelay) ∧
      change.forkFrom = some (midstateBlockHeight + 1) ∧
      (change.removed.length, change.added.length) = (2, 3) ∧
      branchedRelay.values.length = 5 ∧
      Relay.fromEntries branchedRelay.values = .ok branchedRelay ∧
      branchedRelay.revertChange change.removed change.added = minedRelay ∧
      minedRelay.applyChange change.removed change.added = branchedRelay := by
  have hsome : (minedRelay.extend minedBranch genesisTimestamp).1.toOption.map (fun change =>
      (change.forkFrom, change.removed.length, change.added.length)) =
        some (some (midstateBlockHeight + 1), 2, 3) := by
    decide +kernel
  obtain ⟨change, hext⟩ := branch_extends
  rw [hext] at hsome
  obtain ⟨hfork, hcounts⟩ := Prod.mk.inj (Option.some.inj hsome)
  have hone : NoClash (relayedLinks [⟨.genesis, minedRun⟩]) :=
    fun x hx y hy => mined_noClash x (List.mem_append_left _ hx) y (List.mem_append_left _ hy)
  obtain ⟨-, -, -, -, -, -, hundo⟩ := relay_invariant minedRelay_run hone
  obtain ⟨-, -, -, -, hrebuilt, -⟩ :=
    relay_invariant (minedRelay_run.extend hext) mined_noClash
  obtain ⟨hrevert, happly⟩ := hundo _ _ _ _ hext mined_noClash
  exact ⟨change, hext, hfork, hcounts, by decide +kernel, hrebuilt, hrevert, happly⟩

end Branched

end Midwimble
