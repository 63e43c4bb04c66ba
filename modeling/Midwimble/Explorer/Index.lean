import Midwimble.Core.Explorer
import Midwimble.Storage.Bootstraps

namespace Midwimble
open Fallible OrderedMap
set_option autoImplicit true

section Reading

variable {size : Batch → Nat} {chain : List Batch}

theorem readBatches_prefix {rows : List (Nat × Batch)}
    (hrows : ∀ r ∈ rows, chain[r.1]? = some r.2) (expect bytes : Nat) (any : Bool) :
    Database.readBatches size byteLimit expect bytes any rows <+: chain.drop expect := by
  induction rows generalizing expect bytes any with
  | nil => exact List.nil_prefix
  | cons r rows ih =>
    obtain ⟨k, b⟩ := r
    rw [Database.readBatches]
    split
    · exact List.nil_prefix
    · rename_i hgo
      have hk : k = expect := by
        by_contra hne
        exact hgo (.inl hne)
      subst hk
      have hat := hrows _ List.mem_cons_self
      obtain ⟨hlt, hb⟩ := List.getElem?_eq_some_iff.mp hat
      rw [List.drop_eq_getElem_cons hlt, hb]
      exact (List.prefix_cons_inj b).mpr
        (ih (fun r hr => hrows r (List.mem_cons_of_mem _ hr)) (k + 1) _ true)

theorem loadBatches_prefix {db : Database}
    (hbodies : ∀ (h : Nat) b, db.batches[h]? = some b → chain[h]? = some b) (start count : Nat) :
    db.loadBatches size start count byteLimit <+: chain.drop start := by
  apply readBatches_prefix
  rintro ⟨k, b⟩ hr
  exact hbodies k b (Std.ExtTreeMap.mem_toList_iff_getElem?_eq_some.mp (List.mem_filter.mp hr).1)

/-- A stored block is read. -/
theorem loadBatches_ne_nil {db : Database} {start count : Nat} (hstart : start ∈ db.batches)
    (hcount : start < satAdd64 start count) :
    db.loadBatches size start count byteLimit ≠ [] := by
  obtain ⟨b, hb⟩ := mem_iff_exists.mp hstart
  rw [Database.loadBatches]
  have hmem : (start, b) ∈ db.batches.toList.filter
      fun p => start ≤ p.1 ∧ p.1 < satAdd64 start count := by
    rw [List.mem_filter]
    exact ⟨Std.ExtTreeMap.mem_toList_iff_getElem?_eq_some.mpr hb,
      decide_eq_true ⟨Nat.le_refl start, hcount⟩⟩
  have hsorted := Std.ExtTreeMap.ordered_keys_toList (t := db.batches) |>.filter
    fun p => start ≤ p.1 ∧ p.1 < satAdd64 start count
  cases hrows : db.batches.toList.filter
      fun p => start ≤ p.1 ∧ p.1 < satAdd64 start count with
  | nil =>
    rw [hrows] at hmem
    cases hmem
  | cons r rows =>
    obtain ⟨k, b'⟩ := r
    have hle : start ≤ k := by
      have hin : (k, b') ∈ db.batches.toList.filter
          fun p => start ≤ p.1 ∧ p.1 < satAdd64 start count := by
        rw [hrows]
        exact List.mem_cons_self
      exact (of_decide_eq_true (List.mem_filter.mp hin).2).1
    have hk : k = start := by
      rw [hrows] at hmem hsorted
      rcases List.mem_cons.mp hmem with he | hin
      · exact (congrArg Prod.fst he).symm
      · have hlt := (List.pairwise_cons.mp hsorted).1 _ hin
        rw [Nat.compare_eq_lt] at hlt
        omega
    rw [Database.readBatches, if_neg]
    · exact List.cons_ne_nil _ _
    · rintro (hne | ⟨hany, -⟩)
      · exact hne hk
      · cases hany

end Reading

/-- The heights of the blocks a bond signed. -/
def signedHeights (blocks : List Batch) (bond : Bytes32) : List Nat :=
  (blocks.zipIdx.filter fun b => b.1.signer = some bond).map Prod.snd

theorem signedHeights_append (blocks : List Batch) (b : Batch) (bond : Bytes32) :
    signedHeights (blocks ++ [b]) bond =
      signedHeights blocks bond ++ if b.signer = some bond then [blocks.length] else [] := by
  rw [signedHeights, List.zipIdx_append, List.filter_append, List.map_append]
  congr 1
  rw [List.zipIdx_singleton, List.filter_singleton, Nat.zero_add]
  by_cases h : b.signer = some bond
  · simp [h]
  · simp [h]

section Explorer

variable [Primitives]

/-- The logs of a chain, newest first. -/
def chainLogs (blocks : List Batch) : List BlockLog :=
  (blocks.zipIdx.map fun b => BlockLog.of b.2 b.1).reverse

theorem chainLogs_append (blocks : List Batch) (b : Batch) :
    chainLogs (blocks ++ [b]) = BlockLog.of blocks.length b :: chainLogs blocks := by
  rw [chainLogs, List.zipIdx_append, List.map_append, List.reverse_append, Nat.zero_add]
  rfl

namespace ExplorerIndex

/-- An index of some blocks: what it says is so, a key of one block only is found, and a bond's
heights are exactly the blocks it signed. -/
structure Indexes (idx : ExplorerIndex) (S : Set Batch) (blocks : List Batch) : Prop where
  next : idx.next = blocks.length
  hashes : Places (fun b => [b.extension.finalHash]) S idx.hashes blocks
  created : Places Batch.createdKeys S idx.created blocks
  spent : Places Batch.spentKeys S idx.spent blocks
  kernels : Places Batch.kernelKeys S idx.kernels blocks
  registered : Places Batch.bondKeys S idx.registered blocks
  signed : ∀ bond, idx.signedBy bond = signedHeights blocks bond
  log : idx.log <+: chainLogs blocks

variable {S : Set Batch} {idx : ExplorerIndex} {blocks chain : List Batch} {b : Batch}

theorem indexes_empty (S : Set Batch) : empty.Indexes S [] where
  next := rfl
  hashes := places_empty _ S
  created := places_empty _ S
  spent := places_empty _ S
  kernels := places_empty _ S
  registered := places_empty _ S
  signed bond := by simp [signedBy, empty, signedHeights]
  log := List.prefix_refl _

theorem signedBy_add (idx : ExplorerIndex) (height : Nat) (b : Batch) (bond : Bytes32) :
    (idx.add height b).signedBy bond =
      idx.signedBy bond ++ if b.signer = some bond then [height] else [] := by
  cases hs : b.signer with
  | none => simp [signedBy, add, hs]
  | some id =>
    simp only [signedBy, add, hs, Option.some.injEq]
    by_cases he : id = bond
    · subst he
      rw [Std.ExtTreeMap.getElem?_insert_self, if_pos rfl]
      rfl
    · rw [Std.ExtTreeMap.getElem?_insert, if_neg, if_neg he, List.append_nil]
      rwa [Std.LawfulEqCmp.compare_eq_iff_eq]

theorem Indexes.add (h : idx.Indexes S blocks) (hb : b ∈ S) (hnew : b ∉ blocks) :
    (idx.add idx.next b).Indexes S (blocks ++ [b]) := by
  rw [h.next]
  constructor
  · rw [ExplorerIndex.add, List.length_append, List.length_singleton]
  · exact h.hashes.record hb hnew
  · exact h.created.record hb hnew
  · exact h.spent.record hb hnew
  · exact h.kernels.record hb hnew
  · exact h.registered.record hb hnew
  · intro bond
    rw [signedBy_add, h.signed, signedHeights_append]
  · rw [chainLogs_append]
    exact (List.take_prefix _ _).trans ((List.prefix_cons_inj _).mpr h.log)

omit [Primitives] in
theorem signedBy_unwind {log : BlockLog} {rest : List BlockLog}
    (hsigned : ∀ bond, idx.signedBy bond = signedHeights (blocks ++ [b]) bond)
    (hheight : log.height = blocks.length) (hsigner : log.signer = b.signer) (bond : Bytes32) :
    (idx.unwind log rest).signedBy bond = signedHeights blocks bond := by
  have hall := hsigned bond
  rw [signedHeights_append] at hall
  cases hs : b.signer with
  | none =>
    rw [hs, if_neg (Option.some_ne_none bond).symm, List.append_nil] at hall
    simpa [signedBy, unwind, hsigner, hs] using hall
  | some id =>
    by_cases he : id = bond
    · subst he
      rw [hs, if_pos rfl] at hall
      cases hat : idx.signed[id]? with
      | none =>
        rw [signedBy, hat] at hall
        have hlen := congrArg List.length hall
        simp at hlen
      | some heights =>
        rw [signedBy, hat, Option.getD_some] at hall
        subst hall
        simp only [signedBy, unwind, hsigner, hs, hat, hheight, List.getLast?_concat, if_true,
          Std.ExtTreeMap.getElem?_insert_self, Option.getD_some, List.dropLast_concat]
    · rw [hs, if_neg (fun h => he (Option.some.inj h)), List.append_nil] at hall
      rw [← hall]
      simp only [signedBy, unwind, hsigner, hs]
      cases hat : idx.signed[id]? with
      | none => rfl
      | some heights =>
        simp only
        split
        · rw [Std.ExtTreeMap.getElem?_insert, if_neg]
          rwa [Std.LawfulEqCmp.compare_eq_iff_eq]
        · rfl

theorem Indexes.unwind {log : BlockLog} {rest : List BlockLog}
    (h : idx.Indexes S (blocks ++ [b])) (hlog : idx.log = log :: rest) :
    log = BlockLog.of blocks.length b ∧ (idx.unwind log rest).Indexes S blocks := by
  have hlogs := h.log
  rw [hlog, chainLogs_append, List.cons_prefix_cons] at hlogs
  obtain ⟨rfl, hrest⟩ := hlogs
  refine ⟨rfl, rfl, h.hashes.forget, h.created.forget, h.spent.forget, h.kernels.forget,
    h.registered.forget, ?_, hrest⟩
  exact signedBy_unwind h.signed rfl rfl

/-- Unwinding stops at blocks the node's chain has too. -/
theorem Indexes.unwindReplaced {log : List BlockLog} {s t : State} (h : idx.Indexes S blocks)
    (stored : Nat → Option Bytes32) (hlog : idx.log = log) (hb : Built blocks t)
    (hS : ∀ b ∈ blocks, b ∈ S) (hids : Set.InjOn (fun b : Batch => b.extension.finalHash) S)
    (hc : Built chain s) (hsub : ∀ b ∈ chain, b ∈ S)
    (hstored : ∀ h id, stored h = some id → ∃ b, chain[h]? = some b ∧ b.extension.finalHash = id) :
    ∃ n ≤ chain.length, (idx.unwindReplaced stored log).Indexes S (chain.take n) := by
  induction log generalizing idx blocks t with
  | nil =>
    rw [ExplorerIndex.unwindReplaced]
    refine ⟨0, Nat.zero_le _, ?_⟩
    rw [List.take_zero]
    split
    · rename_i hzero
      rw [h.next, List.length_eq_zero_iff] at hzero
      rwa [hzero] at h
    · exact indexes_empty S
  | cons l rest ih =>
    rw [ExplorerIndex.unwindReplaced]
    rcases List.eq_nil_or_concat blocks with rfl | ⟨below, last, rfl⟩
    · refine ⟨0, Nat.zero_le _, ?_⟩
      rw [List.take_zero, if_pos (.inl h.next)]
      exact h
    · rw [List.concat_eq_append] at h hb hS
      have hnext : idx.next = below.length + 1 := by
        rw [h.next, List.length_append, List.length_singleton]
      obtain ⟨hl, hunwound⟩ := h.unwind hlog
      split
      · rename_i hstop
        have hmatch : stored below.length = some last.extension.finalHash := by
          rcases hstop with hzero | hmatch
          · rw [hnext] at hzero
            exact absurd hzero (Nat.succ_ne_zero _)
          · rwa [hnext, Nat.add_sub_cancel, hl] at hmatch
        obtain ⟨b, hat, hid⟩ := hstored _ _ hmatch
        have htake := hb.take_eq hids hc hS hsub List.getElem?_concat_length hat hid.symm
        obtain ⟨hlt, -⟩ := List.getElem?_eq_some_iff.mp hat
        refine ⟨below.length + 1, hlt, ?_⟩
        rw [← htake, List.take_of_length_le (by rw [List.length_append, List.length_singleton])]
        exact h
      · obtain ⟨t', ht', -⟩ := hb.last
        exact ih hunwound rfl ht' fun b hb => hS b (List.mem_append_left _ hb)

theorem Indexes.adds (h : idx.Indexes S blocks) (more : List Batch)
    (hS : ∀ b ∈ blocks ++ more, b ∈ S) (hnodup : (blocks ++ more).Nodup) :
    (more.foldl (fun idx b => idx.add idx.next b) idx).Indexes S (blocks ++ more) := by
  induction more generalizing idx blocks with
  | nil =>
    rw [List.append_nil]
    exact h
  | cons b more ih =>
    have hmoved : blocks ++ b :: more = (blocks ++ [b]) ++ more := by
      rw [List.append_assoc, List.singleton_append]
    have hnew : b ∉ blocks := fun hin =>
      (List.nodup_append.mp hnodup).2.2 b hin b List.mem_cons_self rfl
    have hb : b ∈ S := hS b (List.mem_append_right _ List.mem_cons_self)
    rw [hmoved] at hS hnodup ⊢
    exact ih (h.add hb hnew) hS hnodup

/-- Reading on keeps the index on the node's chain, and gets to its tip where all is stored. -/
theorem Indexes.addStored {db : Database} {n : Nat} (h : idx.Indexes S (chain.take n))
    (size : Batch → Nat) (hn : n ≤ chain.length) (hsub : ∀ b ∈ chain, b ∈ S)
    (hnodup : chain.Nodup)
    (hbodies : ∀ (h : Nat) b, db.batches[h]? = some b → chain[h]? = some b) (tip rounds : Nat) :
    ∃ m ≤ chain.length, (addStored db size tip rounds idx).Indexes S (chain.take m) ∧
      ((∀ h < chain.length, h ∈ db.batches) → tip = chain.length → chain.length < 2 ^ 63 →
        tip - n ≤ rounds → m = chain.length) := by
  induction rounds generalizing idx n with
  | zero => exact ⟨n, hn, h, fun _ he _ hr => by omega⟩
  | succ rounds ih =>
    have hnext : idx.next = n := by
      rw [h.next, List.length_take, Nat.min_eq_left hn]
    rw [ExplorerIndex.addStored]
    by_cases hlt : idx.next < tip
    · rw [if_pos hlt]
      have hread : db.loadBatches size idx.next 256 (64 * 2 ^ 20) <+: _ :=
        loadBatches_prefix hbodies idx.next 256
      cases hbatches : db.loadBatches size idx.next 256 (64 * 2 ^ 20) with
      | nil =>
        refine ⟨n, hn, h, ?_⟩
        intro hall he hlen hr
        by_contra hne
        refine loadBatches_ne_nil (hall idx.next (by omega)) ?_ hbatches
        rw [satAdd64]
        omega
      | cons b batches =>
        rw [hbatches, hnext] at hread
        obtain ⟨rest, hrest⟩ := hread
        have hlong : n + (b :: batches).length ≤ chain.length := by
          have hcount := congrArg List.length hrest
          rw [List.length_append, List.length_drop] at hcount
          omega
        have hgrown : chain.take n ++ b :: batches = chain.take (n + (b :: batches).length) := by
          rw [List.take_add, ← hrest, List.take_left]
        have hadded := h.adds (b :: batches)
          (by rw [hgrown]; exact fun c hc => hsub c (List.mem_of_mem_take hc))
          (by rw [hgrown]; exact hnodup.sublist (List.take_sublist _ _))
        rw [hgrown] at hadded
        obtain ⟨m, hm, hdone, hall⟩ := ih hadded hlong
        refine ⟨m, hm, hdone, ?_⟩
        intro hstored he hlen hr
        apply hall hstored he hlen
        rw [List.length_cons]
        omega
    · rw [if_neg hlt]
      exact ⟨n, hn, h, fun _ he _ _ => by omega⟩

end ExplorerIndex

theorem Built.nodup {blocks : List Batch} {s : State} (h : Built blocks s) (hfits : WorkFits blocks) :
    blocks.Nodup := by
  have hrising : (blocks.zipIdx.map fun b => b.1.headerAt b.2).IsChain
      fun a b => a.chainWeight < b.chainWeight :=
    (h.follows hfits).imp fun _ _ hf => Nat.lt_of_succ_le hf.heavier
  have : Std.Irrefl fun a b : BatchHeader => a.chainWeight < b.chainWeight :=
    ⟨fun a h => Nat.lt_irrefl _ h⟩
  have : Trans (fun a b : BatchHeader => a.chainWeight < b.chainWeight)
      (fun a b : BatchHeader => a.chainWeight < b.chainWeight)
      (fun a b : BatchHeader => a.chainWeight < b.chainWeight) := ⟨Nat.lt_trans⟩
  have hpairs := List.pairwise_map.mp (List.isChain_iff_pairwise.mp hrising)
  rw [← List.zipIdx_map_fst 0 blocks, List.Nodup, List.pairwise_map]
  apply hpairs.imp
  rintro x y hlt he
  have hsame : x.1.chainWeight = y.1.chainWeight := congrArg Batch.chainWeight he
  have hless : x.1.chainWeight < y.1.chainWeight := hlt
  omega

/-- An index as syncs with a node leave it, whatever chain the node had at each. -/
inductive ExplorerIndex.Synced (S : Set Batch) (size : Batch → Nat) : ExplorerIndex → Prop
  | empty : Synced S size .empty
  | sync {idx : ExplorerIndex} {db : Database} {chain : List Batch} {peak : Nat} (tip : Nat) :
    Synced S size idx → Database.Made S db chain peak → WorkFits chain →
      Synced S size (idx.sync db size tip)

section Synced

variable {S : Set Batch} {size : Batch → Nat} {idx : ExplorerIndex} {db : Database}
  {chain : List Batch} {peak : Nat}

theorem ExplorerIndex.Indexes.sync {blocks : List Batch} {t : State} (hidx : idx.Indexes S blocks)
    (hb : Built blocks t) (hS : ∀ b ∈ blocks, b ∈ S) (ha : StoredApart S)
    (hids : Set.InjOn (fun b : Batch => b.extension.finalHash) S)
    (h : Database.Made S db chain peak) (hfits : WorkFits chain) (size : Batch → Nat) (tip : Nat) :
    ∃ s, Built chain s ∧ (∀ b ∈ chain, b ∈ S) ∧
      ∃ n ≤ chain.length, (idx.sync db size tip).Indexes S (chain.take n) ∧
        ((∀ h < chain.length, h ∈ db.batches) → tip = chain.length → chain.length < 2 ^ 63 →
          n = chain.length) := by
  obtain ⟨s, kept, hkeeps, -, -, hsub⟩ := h.keeps ha
  have hbodies : ∀ (h : Nat) b, db.batches[h]? = some b → chain[h]? = some b := by
    have hall := hkeeps.holds.bodies
    unfold Database.rootRelay at hall
    split at hall <;> exact hall
  obtain ⟨n, hn, hunwound⟩ := hidx.unwindReplaced
    (fun h => db.batches[h]?.map fun b => b.extension.finalHash) rfl hb hS hids
    hkeeps.built hsub (by
      intro h id hid
      obtain ⟨b, hat, he⟩ := Option.map_eq_some_iff.mp hid
      exact ⟨b, hbodies h b hat, he⟩)
  have hnext := hunwound.next
  rw [List.length_take, Nat.min_eq_left hn] at hnext
  obtain ⟨m, hm, hdone, hall⟩ := hunwound.addStored size hn hsub
    (hkeeps.built.nodup hfits) hbodies tip (tip - n)
  refine ⟨s, hkeeps.built, hsub, m, hm, ?_, fun hstored he hlen => hall hstored he hlen (Nat.le_refl _)⟩
  rw [ExplorerIndex.sync, hnext]
  exact hdone

theorem ExplorerIndex.Synced.indexes (hidx : ExplorerIndex.Synced S size idx) (ha : StoredApart S)
    (hids : Set.InjOn (fun b : Batch => b.extension.finalHash) S) :
    ∃ blocks t, Built blocks t ∧ (∀ b ∈ blocks, b ∈ S) ∧ idx.Indexes S blocks := by
  induction hidx with
  | empty => exact ⟨[], .genesis, .genesis, fun b hb => absurd hb List.not_mem_nil, indexes_empty S⟩
  | sync tip _ h hfits ih =>
    obtain ⟨blocks, t, hb, hS, hidx⟩ := ih
    obtain ⟨s, hc, hsub, n, -, hdone, -⟩ := hidx.sync hb hS ha hids h hfits size tip
    obtain ⟨t', ht'⟩ := hc.take n
    exact ⟨_, t', ht', fun b hb => hsub b (List.mem_of_mem_take hb), hdone⟩

/-- However often the node reorganised between syncs, a sync leaves the index of its chain: what
it says of outputs, spends, kernels, bonds and block ids is so, what only one block has is found,
and a bond's blocks are exactly those it signed; where all blocks are stored it reaches the tip. -/
theorem explorer_follows_chain (ha : StoredApart S)
    (hids : Set.InjOn (fun b : Batch => b.extension.finalHash) S)
    (hidx : ExplorerIndex.Synced S size idx) (h : Database.Made S db chain peak)
    (hfits : WorkFits chain) (tip : Nat) :
    ∃ n ≤ chain.length, (idx.sync db size tip).Indexes S (chain.take n) ∧
      ((∀ h < chain.length, h ∈ db.batches) → tip = chain.length → chain.length < 2 ^ 63 →
        n = chain.length) := by
  obtain ⟨blocks, t, hb, hS, hindexes⟩ := hidx.indexes ha hids
  obtain ⟨-, -, -, hdone⟩ := hindexes.sync hb hS ha hids h hfits size tip
  exact hdone

end Synced

end Explorer

section Indexed

local instance indexedWords : Primitives := racedPrimitives

/-- An index of the first branch, synced again after the node reorganised to the second: it
reaches the new tip. -/
theorem explorer_follows_forked : ∃ (db db' : Database),
    Database.Made forkedBlocks db [.genesis, oldBlock, oldTop] 3 ∧
      Database.Made forkedBlocks db' [.genesis, newBlock, newMiddle, newTop] 4 ∧
        ((ExplorerIndex.empty.sync db (fun _ => 0) 3).sync db' (fun _ => 0) 4).Indexes forkedBlocks
          [.genesis, newBlock, newMiddle, newTop] := by
  obtain ⟨db, -, hmade⟩ := forked_made
  obtain ⟨db', hmade', hstored⟩ := forked_stored
  have hsynced : ExplorerIndex.Synced forkedBlocks (fun _ => 0) _ :=
    ExplorerIndex.Synced.empty.sync 3 hmade branches_fit.out.1
  obtain ⟨n, -, hindexes, htip⟩ := explorer_follows_chain forked_apart forked_ids hsynced hmade'
    branches_fit.out.2 4
  obtain rfl := htip hstored rfl (by decide)
  exact ⟨db, db', hmade, hmade', hindexes⟩

end Indexed

end Midwimble
