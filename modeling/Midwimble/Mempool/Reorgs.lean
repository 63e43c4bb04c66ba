import Midwimble.Mempool.Entries

namespace Midwimble
open OrderedMap
set_option autoImplicit true

variable [Primitives]

/-- A block spends, creates or carries a part of what the transaction does, without mining it. -/
def Clash (batch : Batch) (tx : Transaction) : Prop :=
  Mempool.mines batch tx = false ∧
    (Mempool.dooms batch tx = true ∨
      ∃ c ∈ tx.outputCommitments, c ∈ batch.body.outputCommitments)

namespace ReorgCache

variable {cache : ReorgCache} {tx : Transaction} {height first : Nat} {txs : List Transaction}

/-- The cache's blocks are in order of their heights, below `height`. -/
structure Sorted (cache : ReorgCache) (height : Nat) : Prop where
  ordered : cache.blocks.Pairwise fun a b => a.1 < b.1
  below : ∀ b ∈ cache.blocks, b.1 < height
  relayable : ∀ b ∈ cache.blocks, ∀ tx ∈ b.2, Mempool.Relayable tx

/-- The transaction is kept as mined at `height`. -/
def Keeps (cache : ReorgCache) (height : Nat) (tx : Transaction) : Prop :=
  ∃ txs, (height, txs) ∈ cache.blocks ∧ tx ∈ txs

omit [Primitives] in
theorem add_length_le {l : List (Nat × List Transaction)} {low high : Nat}
    (hl : l.Pairwise fun a b => a.1 < b.1) (hlow : ∀ b ∈ l, low < b.1)
    (hhigh : ∀ b ∈ l, b.1 ≤ high) (h : low ≤ high) : low + l.length ≤ high := by
  induction l generalizing low with
  | nil => exact h
  | cons a l ih =>
    obtain ⟨ha, hl⟩ := List.pairwise_cons.mp hl
    have := ih hl ha (fun b hb => hhigh b (List.mem_cons_of_mem _ hb))
      (hhigh a List.mem_cons_self)
    have := hlow a List.mem_cons_self
    rw [List.length_cons]
    omega

theorem Sorted.mono (hc : cache.Sorted height) (h : height ≤ later) : cache.Sorted later :=
  ⟨hc.ordered, fun b hb => Nat.lt_of_lt_of_le (hc.below b hb) h, hc.relayable⟩

theorem Sorted.record (hc : cache.Sorted height) (htxs : ∀ tx ∈ txs, Mempool.Relayable tx) :
    (cache.record height txs).Sorted (height + 1) := by
  rw [ReorgCache.record]
  split
  · exact hc.mono (Nat.le_succ _)
  · have hall : (ReorgCache.mk (cache.blocks ++ [(height, txs)])).Sorted (height + 1) := by
      constructor
      · refine List.pairwise_append.mpr ⟨hc.ordered, List.pairwise_singleton _ _, ?_⟩
        intro a ha b hb
        rw [List.mem_singleton.mp hb]
        exact hc.below a ha
      · intro b hb
        rcases List.mem_append.mp hb with hb | hb
        · exact Nat.lt_succ_of_lt (hc.below b hb)
        · rw [List.mem_singleton.mp hb]
          exact Nat.lt_succ_self _
      · intro b hb tx htx
        rcases List.mem_append.mp hb with hb | hb
        · exact hc.relayable b hb tx htx
        · rw [List.mem_singleton.mp hb] at htx
          exact htxs tx htx
    dsimp only
    generalize (cache.blocks ++ [(height, txs)]).length - reorgCacheBlocks = dropped
    constructor
    · exact hall.ordered.sublist (List.drop_sublist _ _)
    · exact fun b hb => hall.below b (List.mem_of_mem_drop hb)
    · exact fun b hb => hall.relayable b (List.mem_of_mem_drop hb)

/-- What recording drops lies as many blocks back as the cache keeps. -/
theorem Sorted.keeps_record {h : Nat} (hc : cache.Sorted height) (hk : cache.Keeps h tx)
    (txs : List Transaction) :
    (cache.record height txs).Keeps h tx ∨ h + reorgCacheBlocks ≤ height := by
  obtain ⟨mined, hmem, htx⟩ := hk
  rw [ReorgCache.record]
  split
  · exact .inl ⟨mined, hmem, htx⟩
  · dsimp only
    generalize hdropped : (cache.blocks ++ [(height, txs)]).length - reorgCacheBlocks = dropped
    have hsplit := List.take_append_drop dropped (cache.blocks ++ [(height, txs)])
    have hall : (cache.blocks ++ [(height, txs)]).Pairwise fun a b => a.1 < b.1 := by
      refine List.pairwise_append.mpr ⟨hc.ordered, List.pairwise_singleton _ _, ?_⟩
      intro a ha b hb
      rw [List.mem_singleton.mp hb]
      exact hc.below a ha
    have hle : ∀ b ∈ cache.blocks ++ [(height, txs)], b.1 ≤ height := by
      intro b hb
      rcases List.mem_append.mp hb with hb | hb
      · exact Nat.le_of_lt (hc.below b hb)
      · rw [List.mem_singleton.mp hb]
    have hin : (h, mined) ∈ cache.blocks ++ [(height, txs)] := List.mem_append_left _ hmem
    rw [← hsplit] at hin
    rcases List.mem_append.mp hin with hin | hin
    · right
      rw [← hsplit] at hall
      obtain ⟨-, hlate, hcross⟩ := List.pairwise_append.mp hall
      have hlen := add_length_le hlate (fun b hb => hcross _ hin b hb)
        (fun b hb => hle b (List.mem_of_mem_drop hb)) (Nat.le_of_lt (hc.below _ hmem))
      have hpos : 0 < dropped := by
        by_contra hzero
        rw [Nat.eq_zero_of_not_pos hzero] at hin
        cases hin
      rw [List.length_drop] at hlen
      dsimp only at hlen
      omega
    · exact .inl ⟨mined, hin, htx⟩

omit [Primitives] in
theorem keeps_record_self (htx : tx ∈ txs) : (cache.record height txs).Keeps height tx := by
  rw [record]
  split
  · rename_i hempty
    rw [List.isEmpty_iff.mp hempty] at htx
    cases htx
  · refine ⟨txs, ?_, htx⟩
    dsimp only
    rw [List.drop_append_of_le_length (by
      rw [List.length_append, List.length_singleton, reorgCacheBlocks]
      omega)]
    exact List.mem_append_right _ List.mem_cons_self

omit [Primitives] in
theorem dropWhile_below (first : Nat) {l : List (Nat × List Transaction)}
    (hl : l.Pairwise fun a b => b.1 < a.1) :
    ∀ b ∈ l.dropWhile fun b => b.1 ≥ first, b.1 < first := by
  induction l with
  | nil => exact fun b hb => nomatch hb
  | cons a l ih =>
    obtain ⟨ha, hl⟩ := List.pairwise_cons.mp hl
    by_cases hge : a.1 ≥ first
    · rw [List.dropWhile_cons_of_pos (by simpa using hge)]
      exact ih hl
    · rw [List.dropWhile_cons_of_neg (by simpa using hge)]
      intro b hb
      rcases List.mem_cons.mp hb with rfl | hb
      · exact Nat.not_le.mp hge
      · exact Nat.lt_trans (ha b hb) (Nat.not_le.mp hge)

theorem Sorted.takeFrom (hc : cache.Sorted height) (first : Nat) :
    (cache.takeFrom first).1.Sorted first ∧
      (∀ tx ∈ (cache.takeFrom first).2, Mempool.Relayable tx) ∧
      ∀ h tx, cache.Keeps h tx →
        h < first ∧ (cache.takeFrom first).1.Keeps h tx ∨
          first ≤ h ∧ tx ∈ (cache.takeFrom first).2 := by
  have hrev : cache.blocks.reverse.Pairwise fun a b => b.1 < a.1 :=
    List.pairwise_reverse.mpr hc.ordered
  have hbelow := dropWhile_below first hrev
  have hsub : (cache.takeFrom first).1.blocks.Sublist cache.blocks := by
    have := (List.dropWhile_sublist (fun b => decide (b.1 ≥ first))
      (l := cache.blocks.reverse)).reverse
    rwa [List.reverse_reverse] at this
  refine ⟨⟨hc.ordered.sublist hsub, ?_, fun b hb => hc.relayable b (hsub.subset hb)⟩, ?_, ?_⟩
  · intro b hb
    exact hbelow b (List.mem_reverse.mp hb)
  · intro tx htx
    obtain ⟨b, hb, htx⟩ := List.mem_flatMap.mp htx
    exact hc.relayable b (List.mem_reverse.mp ((List.takeWhile_sublist _).subset hb)) tx htx
  · rintro h tx ⟨txs, hmem, htx⟩
    have hin : (h, txs) ∈ cache.blocks.reverse := List.mem_reverse.mpr hmem
    rw [← List.takeWhile_append_dropWhile (p := fun b => decide (b.1 ≥ first))
      (l := cache.blocks.reverse)] at hin
    rcases List.mem_append.mp hin with hin | hin
    · right
      have hge := List.mem_takeWhile_imp hin
      exact ⟨of_decide_eq_true hge, List.mem_flatMap.mpr ⟨_, hin, htx⟩⟩
    · left
      exact ⟨hbelow _ hin, txs, List.mem_reverse.mpr hin, htx⟩

end ReorgCache

namespace PoolNode
open Mempool

variable {p q : PoolNode} {pool : Mempool} {cache : ReorgCache} {state : State}
  {tx : Transaction} {height first peak : Nat} {batch : Batch} {blocks : List Batch}

theorem mineBlocks_sound (state : State) (blocks : List Batch) (hp : pool.Sound)
    (hc : cache.Sorted height) :
    (mineBlocks state height blocks (pool, cache)).1.Sound ∧
      (mineBlocks state height blocks (pool, cache)).1.totalWeight ≤ pool.totalWeight ∧
      (∀ (l : Bytes32) (e : Entry),
        (mineBlocks state height blocks (pool, cache)).1.entries[l]? = some e →
          pool.entries[l]? = some e) ∧
      (mineBlocks state height blocks (pool, cache)).2.Sorted (height + blocks.length) ∧
      ∀ h tx, cache.Keeps h tx →
        (mineBlocks state height blocks (pool, cache)).2.Keeps h tx ∨
          h + reorgCacheBlocks < height + blocks.length := by
  induction blocks generalizing pool cache height with
  | nil => exact ⟨hp, Nat.le_refl _, fun l e h => h, hc, fun h tx hk => .inl hk⟩
  | cons b blocks ih =>
    obtain ⟨hp', hweight⟩ := hp.onBlock b state
    have hmined : ∀ tx ∈ (pool.onBlock b state).2, Relayable tx := by
      intro tx htx
      obtain ⟨l, e, he, -, rfl⟩ := mem_mined.mp htx
      exact hp.relayable l e he
    obtain ⟨hsound, hle, hsub, hsorted, hkeeps⟩ := ih hp' (hc.record hmined)
    refine ⟨hsound, Nat.le_trans hle hweight, fun l e h => (getElem?_onBlock.mp (hsub l e h)).1,
      ?_, fun h tx hk => ?_⟩
    · rw [List.length_cons, Nat.add_comm blocks.length, ← Nat.add_assoc]
      exact hsorted
    · rw [List.length_cons]
      rcases hc.keeps_record hk (pool.onBlock b state).2 with hk | hdeep
      · rcases hkeeps h tx hk with hk | hdeep
        · exact .inl hk
        · right
          omega
      · right
        omega

/-- A pool transaction that adopted blocks do not clash with stays, or is kept as mined. -/
theorem mineBlocks_tracks (hp : pool.Sound) (hc : cache.Sorted height)
    (hapart : ∀ b ∈ blocks, ¬ Clash b tx)
    (hstays : (∀ b ∈ blocks.head?, mines b tx = false) → applies state tx = true)
    (hold : pool.Holds tx) :
    (mineBlocks state height blocks (pool, cache)).1.Holds tx ∧ applies state tx = true ∨
      ∃ i b, blocks[i]? = some b ∧ mines b tx = true ∧
        ((mineBlocks state height blocks (pool, cache)).2.Keeps (height + i) tx ∨
          height + i + reorgCacheBlocks < height + blocks.length) := by
  induction blocks generalizing pool cache height with
  | nil => exact .inl ⟨hold, hstays nofun⟩
  | cons b blocks ih =>
    obtain ⟨e, he, rfl⟩ := hold
    have hp' := (hp.onBlock b state).1
    have hc' := hc.record fun tx (htx : tx ∈ (pool.onBlock b state).2) => by
      obtain ⟨l, e, he, -, rfl⟩ := mem_mined.mp htx
      exact hp.relayable l e he
    by_cases hm : mines b e.tx = true
    · have hmem : e.tx ∈ (pool.onBlock b state).2 := mem_mined.mpr ⟨_, e, he, hm, rfl⟩
      have hkeeps := (mineBlocks_sound state blocks hp' hc').2.2.2.2 _ _
        (ReorgCache.keeps_record_self hmem)
      refine .inr ⟨0, b, rfl, hm, ?_⟩
      rw [List.length_cons, Nat.add_comm blocks.length, ← Nat.add_assoc]
      exact hkeeps
    · have hm' : mines b e.tx = false := Bool.eq_false_iff.mpr hm
      have happ : applies state e.tx = true := hstays fun b' hb' => by
        obtain rfl : b = b' := Option.some.inj hb'
        exact hm'
      have hd : dooms b e.tx = false := Bool.eq_false_iff.mpr fun hd =>
        hapart b List.mem_cons_self ⟨hm', .inl hd⟩
      have hnext : (pool.onBlock b state).1.Holds e.tx :=
        ⟨e, getElem?_onBlock.mpr ⟨he, hm', hd, happ⟩, rfl⟩
      rcases ih hp' hc' (fun b' hb' => hapart b' (List.mem_cons_of_mem _ hb')) (fun _ => happ)
        hnext with hstill | ⟨i, b', hi, hm, hkeeps⟩
      · exact .inl hstill
      · refine .inr ⟨i + 1, b', hi, hm, ?_⟩
        have hstep : height + (i + 1) = height + 1 + i := by omega
        rw [hstep, List.length_cons, Nat.add_comm blocks.length, ← Nat.add_assoc]
        exact hkeeps

/-- The node's pool and cache are in order, and the chain was never longer than `peak`. -/
structure Kept (peak : Nat) (p : PoolNode) : Prop where
  sound : p.mempool.Sound
  sorted : p.reorgCache.Sorted p.chain.length
  peak : p.chain.length ≤ peak

/-- The transaction is in the pool, or mined on the chain and kept or too deep to come back. -/
def Tracked (tx : Transaction) (peak : Nat) (p : PoolNode) : Prop :=
  p.mempool.Holds tx ∨ ∃ h b, p.chain[h]? = some b ∧ mines b tx = true ∧
    (p.reorgCache.Keeps h tx ∨ h + reorgCacheBlocks < peak)

/-- The pool never fills, and no reorganisation reaches deeper than the cache. -/
def Within (peak : Nat) (p : PoolNode) : Event → Prop
  | .submit tx => p.mempool.totalWeight + tx.weight ≤ maxPoolWeight
  | .adoptBlock _ _ => True
  | .adoptChain _ first _ reorg => reorg = true → peak ≤ first + reorgCacheBlocks ∧
    p.mempool.totalWeight + ((p.reorgCache.takeFrom first).2.map Transaction.weight).sum ≤
      maxPoolWeight

/-- A pool transaction that the first block does not mine and that no block clashes with applies
on the new state. -/
def PoolStays (p : PoolNode) (state : State) (blocks : List Batch) : Prop :=
  ∀ tx, p.mempool.Holds tx → (∀ b ∈ blocks.head?, mines b tx = false) →
    (∀ b ∈ blocks, ¬ Clash b tx) → applies state tx = true

/-- A transaction taken out of the cache that no block clashes with applies on the new state,
apart from the pool's and from the others taken out. -/
def CacheReturns (p : PoolNode) (state : State) (first : Nat) (blocks : List Batch) : Prop :=
  ∀ tx ∈ (p.reorgCache.takeFrom first).2, (∀ b ∈ blocks, ¬ Clash b tx) →
    applies state tx = true ∧ (∀ u, p.mempool.Holds u → Apart tx u) ∧
      ∀ u ∈ (p.reorgCache.takeFrom first).2, u ≠ tx → Apart tx u

/-- The condition under which an event loses no transaction. -/
def Spares (p : PoolNode) : Event → Prop
  | .submit _ => True
  | .adoptBlock state batch => p.PoolStays state [batch]
  | .adoptChain state first blocks reorg =>
    p.PoolStays state blocks ∧ (reorg = true → p.CacheReturns state first blocks)

def Event.adopted : Event → List Batch
  | .submit _ => []
  | .adoptBlock _ batch => [batch]
  | .adoptChain _ _ blocks _ => blocks

theorem kept_submit (hp : p.Kept peak) (hwithin : p.Within peak (.submit tx)) :
    { p with mempool := (p.mempool.add tx p.state).1 }.Kept peak :=
  ⟨(hp.sound.add hwithin _).1, hp.sorted, hp.peak⟩

theorem tracked_submit {t : Transaction} (hp : p.Kept peak)
    (hwithin : p.Within peak (.submit t)) (ht : p.Tracked tx peak) :
    { p with mempool := (p.mempool.add t p.state).1 }.Tracked tx peak := by
  rcases ht with ⟨e, he, rfl⟩ | hmined
  · exact .inl ⟨e, (hp.sound.add hwithin _).2.2.1 _ e he, rfl⟩
  · exact .inr hmined

theorem kept_adoptBlock (hp : p.Kept peak) :
    (p.adoptBlock state batch).Kept (max peak (p.adoptBlock state batch).chain.length) := by
  obtain ⟨hsound, -, -, hsorted, -⟩ := mineBlocks_sound state [batch]
    hp.sound hp.sorted
  refine ⟨hsound, ?_, Nat.le_max_right _ _⟩
  rw [adoptBlock, List.length_append]
  exact hsorted

theorem tracked_adoptBlock (hp : p.Kept peak) (hspares : p.PoolStays state [batch])
    (hapart : ¬ Clash batch tx) (ht : p.Tracked tx peak) :
    (p.adoptBlock state batch).Tracked tx
      (max peak (p.adoptBlock state batch).chain.length) := by
  have hlen : (p.adoptBlock state batch).chain.length = p.chain.length + 1 := by
    rw [adoptBlock, List.length_append]
    rfl
  have hall : ∀ b ∈ [batch], ¬ Clash b tx := by
    intro b hb
    rwa [List.mem_singleton.mp hb]
  rcases ht with hold | ⟨h, b, hb, hm, hkeeps⟩
  · rcases mineBlocks_tracks hp.sound hp.sorted hall (fun hno => hspares tx hold hno hall) hold
      with ⟨hstill, -⟩ | ⟨i, b, hi, hm, hkeeps⟩
    · exact .inl hstill
    · refine .inr ⟨p.chain.length + i, b, ?_, hm, ?_⟩
      · rw [adoptBlock, List.getElem?_append_right (Nat.le_add_right _ _), Nat.add_sub_cancel_left]
        exact hi
      · rcases hkeeps with hkeeps | hdeep
        · exact .inl hkeeps
        · right
          rw [hlen]
          exact Nat.lt_of_lt_of_le hdeep (Nat.le_max_right _ _)
  · refine .inr ⟨h, b, ?_, hm, ?_⟩
    · rw [adoptBlock, List.getElem?_append_left (List.getElem?_eq_some_iff.mp hb).1]
      exact hb
    · rcases hkeeps with hkeeps | hdeep
      · rcases (mineBlocks_sound state [batch] hp.sound
          hp.sorted).2.2.2.2 h tx hkeeps with hkeeps | hdeep
        · exact .inl hkeeps
        · right
          rw [hlen]
          exact Nat.lt_of_lt_of_le hdeep (Nat.le_max_right _ _)
      · exact .inr (Nat.lt_of_lt_of_le hdeep (Nat.le_max_left _ _))

theorem adoptChain_chain {reorg : Bool} :
    (p.adoptChain state first blocks reorg).chain = p.chain.take first ++ blocks := by
  rw [adoptChain]

theorem adoptChain_extends :
    p.adoptChain state first blocks false =
      let after := mineBlocks state first blocks (p.mempool, p.reorgCache)
      ⟨state, p.chain.take first ++ blocks, after.1.revalidate state, after.2⟩ := rfl

theorem adoptChain_replaces :
    p.adoptChain state first blocks true =
      let taken := p.reorgCache.takeFrom first
      let after := mineBlocks state first blocks (p.mempool, taken.1)
      ⟨state, p.chain.take first ++ blocks, (after.1.revalidate state).addAll taken.2 state,
        after.2⟩ := rfl

theorem length_adoptChain {reorg : Bool} (hfirst : first ≤ p.chain.length) :
    (p.adoptChain state first blocks reorg).chain.length = first + blocks.length := by
  rw [adoptChain_chain, List.length_append, List.length_take, Nat.min_eq_left hfirst]

omit [Primitives] in
theorem getElem?_adopted {h i : Nat} (hfirst : first ≤ p.chain.length) :
    (h < first → (p.chain.take first ++ blocks)[h]? = p.chain[h]?) ∧
      (p.chain.take first ++ blocks)[first + i]? = blocks[i]? := by
  have hlen : (p.chain.take first).length = first := by
    rw [List.length_take, Nat.min_eq_left hfirst]
  constructor
  · intro hlt
    rw [List.getElem?_append_left (by rwa [hlen]), List.getElem?_take_of_lt hlt]
  · rw [List.getElem?_append_right (by rw [hlen]; exact Nat.le_add_right _ _), hlen,
      Nat.add_sub_cancel_left]

theorem kept_adoptChain {reorg : Bool} (hp : p.Kept peak) (hfirst : first ≤ p.chain.length)
    (htip : reorg = true ∨ first = p.chain.length)
    (hwithin : p.Within peak (.adoptChain state first blocks reorg)) :
    (p.adoptChain state first blocks reorg).Kept
      (max peak (p.adoptChain state first blocks reorg).chain.length) := by
  refine ⟨?_, ?_, Nat.le_max_right _ _⟩
  · cases reorg with
    | false =>
      obtain rfl := htip.resolve_left Bool.false_ne_true
      exact (mineBlocks_sound _ _ hp.sound hp.sorted).1.revalidate _ |>.1
    | true =>
      obtain ⟨-, hroom⟩ := hwithin rfl
      obtain ⟨hsound, hweight, -⟩ := mineBlocks_sound state blocks
        hp.sound (hp.sorted.takeFrom first).1
      obtain ⟨hvalid, hle⟩ := hsound.revalidate state
      rw [adoptChain_replaces]
      exact (hvalid.addAll (by omega) state).1
  · rw [length_adoptChain hfirst]
    cases reorg with
    | false =>
      obtain rfl := htip.resolve_left Bool.false_ne_true
      exact (mineBlocks_sound _ _ hp.sound hp.sorted).2.2.2.1
    | true =>
      exact (mineBlocks_sound _ _ hp.sound (hp.sorted.takeFrom first).1).2.2.2.1

theorem tracked_blocks (peak : Nat) (tx : Transaction) (hp : pool.Sound) (hc : cache.Sorted first)
    (hfirst : first ≤ p.chain.length) (hpool : p.mempool = pool)
    (hstays : p.PoolStays state blocks) (hapart : ∀ b ∈ blocks, ¬ Clash b tx)
    (ht : p.mempool.Holds tx ∨ ∃ h b, h < first ∧ p.chain[h]? = some b ∧ mines b tx = true ∧
      (cache.Keeps h tx ∨ h + reorgCacheBlocks < peak)) :
    (mineBlocks state first blocks (pool, cache)).1.Holds tx ∧ applies state tx = true ∨
      ∃ h b, (p.chain.take first ++ blocks)[h]? = some b ∧ mines b tx = true ∧
        ((mineBlocks state first blocks (pool, cache)).2.Keeps h tx ∨
          h + reorgCacheBlocks < max peak (first + blocks.length)) := by
  subst hpool
  rcases ht with hold | ⟨h, b, hlt, hb, hm, hkeeps⟩
  · rcases mineBlocks_tracks hp hc hapart (fun hno => hstays tx hold hno hapart) hold
      with hstill | ⟨i, b, hi, hm, hkeeps⟩
    · exact .inl hstill
    · refine .inr ⟨first + i, b, ?_, hm, ?_⟩
      · rw [(getElem?_adopted (h := 0) hfirst).2]
        exact hi
      · rcases hkeeps with hkeeps | hdeep
        · exact .inl hkeeps
        · exact .inr (Nat.lt_of_lt_of_le hdeep (Nat.le_max_right _ _))
  · refine .inr ⟨h, b, ?_, hm, ?_⟩
    · rw [(getElem?_adopted (i := 0) hfirst).1 hlt]
      exact hb
    · rcases hkeeps with hkeeps | hdeep
      · rcases (mineBlocks_sound state blocks hp hc).2.2.2.2 h tx hkeeps
          with hkeeps | hdeep
        · exact .inl hkeeps
        · exact .inr (Nat.lt_of_lt_of_le hdeep (Nat.le_max_right _ _))
      · exact .inr (Nat.lt_of_lt_of_le hdeep (Nat.le_max_left _ _))

theorem holds_revalidate (hold : pool.Holds tx) (ha : applies state tx = true) :
    (pool.revalidate state).Holds tx := by
  obtain ⟨e, he, rfl⟩ := hold
  exact ⟨e, getElem?_revalidate.mpr ⟨he, ha⟩, rfl⟩

theorem tracked_extends (hp : p.Kept peak) (hfirst : first = p.chain.length)
    (hstays : p.PoolStays state blocks) (hapart : ∀ b ∈ blocks, ¬ Clash b tx)
    (ht : p.Tracked tx peak) :
    (p.adoptChain state first blocks false).Tracked tx (max peak (first + blocks.length)) := by
  subst hfirst
  have hway := tracked_blocks peak tx hp.sound hp.sorted (Nat.le_refl _) rfl
    hstays hapart (ht.imp_right fun ⟨h, b, hb, hm, hkeeps⟩ =>
      ⟨h, b, (List.getElem?_eq_some_iff.mp hb).1, hb, hm, hkeeps⟩)
  rw [adoptChain_extends]
  rcases hway with ⟨hold, ha⟩ | hmined
  · exact .inl (holds_revalidate hold ha)
  · exact .inr hmined

theorem tracked_replaces (hp : p.Kept peak) (hfirst : first ≤ p.chain.length)
    (hwithin : p.Within peak (.adoptChain state first blocks true))
    (hstays : p.PoolStays state blocks) (hreturns : p.CacheReturns state first blocks)
    (hapart : ∀ b ∈ blocks, ¬ Clash b tx) (ht : p.Tracked tx peak) :
    (p.adoptChain state first blocks true).Tracked tx (max peak (first + blocks.length)) := by
  obtain ⟨hpeak, hroom⟩ := hwithin rfl
  obtain ⟨hc, hrelayable, htaken⟩ := hp.sorted.takeFrom first
  obtain ⟨hsound, hweight, hsub, -, -⟩ := mineBlocks_sound state blocks
    hp.sound hc
  obtain ⟨hvalid, hle⟩ := hsound.revalidate state
  have hfits : ((mineBlocks state first blocks
      (p.mempool, (p.reorgCache.takeFrom first).1)).1.revalidate state).totalWeight +
        ((p.reorgCache.takeFrom first).2.map Transaction.weight).sum ≤ maxPoolWeight := by
    omega
  -- mined below the fork, or given back
  have hway : (p.mempool.Holds tx ∨ ∃ h b, h < first ∧ p.chain[h]? = some b ∧
      mines b tx = true ∧ ((p.reorgCache.takeFrom first).1.Keeps h tx ∨
        h + reorgCacheBlocks < peak)) ∨ tx ∈ (p.reorgCache.takeFrom first).2 := by
    rcases ht with hold | ⟨h, b, hb, hm, hkeeps | hdeep⟩
    · exact .inl (.inl hold)
    · rcases htaken h tx hkeeps with ⟨hlt, hkeeps⟩ | ⟨-, hmem⟩
      · exact .inl (.inr ⟨h, b, hlt, hb, hm, .inl hkeeps⟩)
      · exact .inr hmem
    · exact .inl (.inr ⟨h, b, by omega, hb, hm, .inr hdeep⟩)
  rw [adoptChain_replaces]
  rcases hway with hway | hmem
  · rcases tracked_blocks _ _ hp.sound hc hfirst rfl hstays hapart hway with ⟨hold, ha⟩ | hmined
    · obtain ⟨e, he, rfl⟩ := holds_revalidate hold ha
      exact .inl ⟨e, (hvalid.addAll hfits state).2 _ e he, rfl⟩
    · exact .inr hmined
  · obtain ⟨ha, hpool, hothers⟩ := hreturns tx hmem hapart
    refine .inl (hvalid.holds_addAll hfits hmem (hrelayable tx hmem) ha ?_ hothers)
    intro l e he
    have hin := hsub l e (getElem?_revalidate.mp he).1
    exact hpool e.tx ⟨e, by rwa [hp.sound.hash l e hin], rfl⟩

theorem kept_step {event : Event} (hp : p.Kept peak) (hwithin : p.Within peak event)
    (h : p.step event = some q) : q.Kept (max peak q.chain.length) := by
  cases event with
  | submit t =>
    obtain rfl := Option.some.inj h
    have hq := kept_submit hp hwithin
    rwa [← Nat.max_eq_left hq.peak] at hq
  | adoptBlock state batch =>
    obtain rfl := Option.some.inj h
    exact kept_adoptBlock hp
  | adoptChain state first blocks reorg =>
    obtain ⟨⟨hfirst, htip⟩, h⟩ := Option.ite_none_right_eq_some.mp h
    obtain rfl := Option.some.inj h
    exact kept_adoptChain hp hfirst htip hwithin

theorem tracked_step {event : Event} (hp : p.Kept peak) (hwithin : p.Within peak event)
    (hspares : p.Spares event) (hapart : ∀ b ∈ event.adopted, ¬ Clash b tx)
    (h : p.step event = some q) (ht : p.Tracked tx peak) :
    q.Tracked tx (max peak q.chain.length) := by
  cases event with
  | submit t =>
    obtain rfl := Option.some.inj h
    have hq := tracked_submit hp hwithin ht
    rwa [← Nat.max_eq_left hp.peak] at hq
  | adoptBlock state batch =>
    obtain rfl := Option.some.inj h
    exact tracked_adoptBlock hp hspares (hapart batch List.mem_cons_self) ht
  | adoptChain state first blocks reorg =>
    obtain ⟨⟨hfirst, htip⟩, h⟩ := Option.ite_none_right_eq_some.mp h
    obtain rfl := Option.some.inj h
    obtain ⟨hstays, hreturns⟩ := hspares
    rw [length_adoptChain hfirst]
    cases reorg with
    | false => exact tracked_extends hp (htip.resolve_left Bool.false_ne_true) hstays hapart ht
    | true => exact tracked_replaces hp hfirst hwithin hstays (hreturns rfl) hapart ht

/-- Every step of a run meets a condition on the node before it, and on the greatest length that
its chain has had. -/
def Meets (condition : Nat → PoolNode → Event → Prop) : Nat → PoolNode → List Event → Prop
  | _, _, [] => True
  | peak, p, event :: events =>
    condition peak p event ∧
      ∀ next ∈ p.step event, Meets condition (max peak next.chain.length) next events

/-- The run stays within what the pool and the cache can hold, and spares the transactions. -/
def Spared (peak : Nat) (p : PoolNode) (event : Event) : Prop :=
  p.Within peak event ∧ p.Spares event

theorem run_cons {event : Event} {events : List Event} (h : p.run (event :: events) = some q) :
    ∃ next, p.step event = some next ∧ next.run events = some q :=
  Option.bind_eq_some_iff.mp h

theorem run_step {event : Event} {events : List Event} (h : p.step event = some q) :
    p.run (event :: events) = q.run events := by
  rw [run, List.foldlM_cons, h]
  rfl

theorem run_append {before after : List Event} (h : p.run before = some q) :
    p.run (before ++ after) = q.run after := by
  rw [run] at h ⊢
  rw [List.foldlM_append, h]
  rfl

theorem kept_run {before after : List Event} (hp : p.Kept peak)
    (hrun : Meets Spared peak p (before ++ after)) (h : p.run before = some q) :
    ∃ later, q.Kept later ∧ Meets Spared later q after := by
  induction before generalizing p peak with
  | nil =>
    obtain rfl := Option.some.inj h
    exact ⟨peak, hp, hrun⟩
  | cons event before ih =>
    obtain ⟨next, hstep, h⟩ := run_cons h
    obtain ⟨⟨hwithin, -⟩, hrest⟩ := hrun
    exact ih (kept_step hp hwithin hstep) (hrest next hstep) h

theorem tracked_run {events : List Event} (hp : p.Kept peak) (ht : p.Tracked tx peak)
    (hrun : Meets Spared peak p events) (hapart : ∀ b ∈ events.flatMap Event.adopted, ¬ Clash b tx)
    (h : p.run events = some q) : ∃ later, q.Tracked tx later := by
  induction events generalizing p peak with
  | nil =>
    obtain rfl := Option.some.inj h
    exact ⟨peak, ht⟩
  | cons event events ih =>
    obtain ⟨next, hstep, h⟩ := run_cons h
    obtain ⟨⟨hwithin, hspares⟩, hrest⟩ := hrun
    rw [List.flatMap_cons] at hapart
    refine ih (kept_step hp hwithin hstep) ?_ (hrest next hstep)
      (fun b hb => hapart b (List.mem_append_right _ hb)) h
    exact tracked_step hp hwithin hspares (fun b hb => hapart b (List.mem_append_left _ hb))
      hstep ht

/-- A transaction once in the pool is there, unless it is mined on the chain, no longer applies,
or conflicts with the pool or with what was mined since. -/
def NoneLost (p : PoolNode) (events : List Event) : Prop :=
  ∀ before after, before ++ after = events → ∀ q r, p.run before = some q →
    q.run after = some r → ∀ tx, q.mempool.Holds tx →
      (∀ b ∈ r.chain, mines b tx = false) → applies r.state tx = true →
      (∀ u, r.mempool.Holds u → u ≠ tx → Apart tx u) →
      (∀ b ∈ after.flatMap Event.adopted, ¬ Clash b tx) → r.mempool.Holds tx

theorem kept_start {state : State} {chain : List Batch} :
    (start state chain).Kept chain.length :=
  ⟨sound_new, ⟨.nil, nofun, nofun⟩, Nat.le_refl _⟩

/-- Reorganisations lose no pool transaction in a run that spares them. -/
theorem reorgs_lose_none {state : State} {chain : List Batch} {events : List Event}
    (hrun : Meets Spared chain.length (start state chain) events) :
    (start state chain).NoneLost events := by
  rintro before after rfl q r hbefore hafter tx hold hnone - - hapart
  obtain ⟨peak, hq, hrest⟩ := kept_run kept_start hrun hbefore
  obtain ⟨later, hr⟩ := tracked_run hq (.inl hold) hrest hapart hafter
  rcases hr with hold | ⟨h, b, hb, hm, -⟩
  · exact hold
  · have hno := hnone b (List.mem_of_getElem? hb)
    rw [hm] at hno
    cases hno

section Twice

/-- Spends an output, at the relay minimum. -/
def twiceMined : Transaction where
  body :=
    { inputs := [⟨1, 1, ⟨0, 0⟩⟩]
      outputs := [⟨[⟨2, 5, 1, 0, List.replicate 80 0, 0⟩], List.replicate 672 0⟩]
      kernels := [⟨.plain, 2500, 0, 1 + (2500 <<< 128), 1, ⟨0, 0, 0⟩⟩] }
  kernelOffset := 0
  ownerOffset := 0

/-- A tip at which the output is unspent. -/
def unspentTip (height : Nat) : State :=
  { State.genesis with height := height, utxos := State.genesis.utxos.insert 1 ⟨0, 1, 0, 0, false⟩ }

/-- A tip at which it is spent. -/
def spentTip (height : Nat) : State :=
  match applyBody (unspentTip height) twiceMined none 0 with
  | .ok next => { next with height := height + 1 }
  | .error _ => unspentTip height

def blockOf (body : Transaction) (nonce : Nat) : Batch :=
  ⟨0, 0, body, none, ⟨nonce, 0⟩, 0, 0, 0, none, [], none, none, 0⟩

/-- The transaction waits for a block, is mined by the next one, and a branch that mines nothing
replaces that one. -/
def minedOnce : List Event :=
  [.submit twiceMined, .adoptBlock (unspentTip 2) (blockOf .empty 1),
    .adoptBlock (spentTip 2) (blockOf twiceMined 2),
    .adoptChain (unspentTip 4) 2 [blockOf .empty 3, blockOf .empty 4] true]

theorem mines_blockOf {nonce : Nat} (h : tx.kernelIds ≠ []) :
    mines (blockOf tx nonce) tx = true := by
  rw [mines, Bool.and_eq_true, List.all_eq_true]
  exact ⟨by simpa using h, fun k hk => decide_eq_true hk⟩

/-- What the pool holds, what a reorganisation from a height puts back, and the chain's length. -/
def heldAt (q : PoolNode) (first : Nat) : List Transaction × List Transaction × Nat × Nat :=
  (q.mempool.entries.toList.map (·.2.tx), (q.reorgCache.takeFrom first).2, q.mempool.totalWeight,
    q.chain.length)

theorem mem_of_heldAt {txs : List Transaction} {rest : List Transaction × Nat × Nat}
    (hheld : heldAt q first = (txs, rest)) (h : q.mempool.Holds tx) : tx ∈ txs := by
  obtain ⟨e, he, rfl⟩ := h
  obtain ⟨rfl, -⟩ := Prod.mk.inj hheld
  exact List.mem_map_of_mem (Std.ExtTreeMap.mem_toList_iff_getElem?_eq_some.mpr he)

omit [Primitives] in
theorem spared_minedOnce :
    letI := Primitives.mixing
    Meets Spared [blockOf .empty 0].length (start (unspentTip 1) [blockOf .empty 0]) minedOnce := by
  let := Primitives.mixing
  have hfits : 0 + twiceMined.weight ≤ maxPoolWeight := by decide
  have happlies : ∀ height ∈ [2, 4], applies (unspentTip height) twiceMined = true := by
    decide +kernel
  refine ⟨⟨hfits, trivial⟩, fun q hq => ⟨⟨trivial, ?_⟩, fun r hr => ⟨⟨trivial, ?_⟩,
    fun s hs => ?_⟩⟩⟩
  · -- the block mines nothing, and what waits applies on its state
    have hheld : ((start (unspentTip 1) [blockOf .empty 0]).run (minedOnce.take 1)).map
        (heldAt · 0) = some ([twiceMined], [], twiceMined.weight, 1) := by decide +kernel
    have hrun : (start (unspentTip 1) [blockOf .empty 0]).run (minedOnce.take 1) = some q :=
      run_step hq
    rw [hrun, Option.map_some, Option.some.injEq] at hheld
    intro tx hold _ _
    rw [List.mem_singleton.mp (mem_of_heldAt hheld hold)]
    exact happlies 2 (by decide)
  · -- the block mines what waits
    have hheld : ((start (unspentTip 1) [blockOf .empty 0]).run (minedOnce.take 2)).map
        (heldAt · 0) = some ([twiceMined], [], twiceMined.weight, 2) := by decide +kernel
    have hrun : (start (unspentTip 1) [blockOf .empty 0]).run (minedOnce.take 2) = some r :=
      (run_step hq).trans (run_step hr)
    rw [hrun, Option.map_some, Option.some.injEq] at hheld
    intro tx hold hno _
    have hkernel : twiceMined.kernelIds ≠ [] := List.cons_ne_nil _ _
    have hmines := hno _ rfl
    rw [List.mem_singleton.mp (mem_of_heldAt hheld hold), mines_blockOf hkernel] at hmines
    cases hmines
  · -- the pool is empty, and the cache holds the one transaction
    have hheld : ((start (unspentTip 1) [blockOf .empty 0]).run (minedOnce.take 3)).map
        (heldAt · 2) = some ([], [twiceMined], 0, 3) := by decide +kernel
    have hrun : (start (unspentTip 1) [blockOf .empty 0]).run (minedOnce.take 3) = some s :=
      (run_step hq).trans ((run_step hr).trans (run_step hs))
    rw [hrun, Option.map_some, Option.some.injEq] at hheld
    have hfree : ∀ u, ¬ s.mempool.Holds u := fun u hold =>
      List.not_mem_nil (mem_of_heldAt hheld hold)
    obtain ⟨-, hrest⟩ := Prod.mk.inj hheld
    obtain ⟨hcache, hrest⟩ := Prod.mk.inj hrest
    obtain ⟨hweight, hlen⟩ := Prod.mk.inj hrest
    have hlens : q.chain.length ≤ 3 ∧ r.chain.length ≤ 3 := by
      obtain rfl := Option.some.inj hq
      obtain rfl := Option.some.inj hr
      exact ⟨by decide, by decide⟩
    refine ⟨⟨fun _ => ⟨?_, ?_⟩, ?_, fun _ => ?_⟩, fun _ _ => trivial⟩
    · rw [hlen]
      have : 3 ≤ 2 + reorgCacheBlocks ∧ [blockOf .empty 0].length = 1 := by decide
      omega
    · rw [hweight, hcache]
      decide
    · exact fun u hold => absurd hold (hfree u)
    · intro tx htx _
      rw [hcache] at htx
      obtain rfl := List.mem_singleton.mp htx
      refine ⟨happlies 4 (by decide), fun u hold => absurd hold (hfree u), fun u hu hne => ?_⟩
      rw [hcache] at hu
      exact absurd (List.mem_singleton.mp hu) hne

omit [Primitives] in
/-- Once the branch is adopted, the transaction waits again. -/
theorem reorgs_lose_none_replaced :
    letI := Primitives.mixing
    ((start (unspentTip 1) [blockOf .empty 0]).run minedOnce).map (heldAt · 0) =
        some ([twiceMined], [], twiceMined.weight, 4) ∧
      (start (unspentTip 1) [blockOf .empty 0]).NoneLost minedOnce := by
  let := Primitives.mixing
  have hlost := reorgs_lose_none spared_minedOnce
  exact ⟨by decide +kernel, hlost⟩

/-- The transaction is mined at height 1, then again by the branch that replaces its block. -/
def minedTwice : List Event :=
  [.adoptBlock (spentTip 1) (blockOf twiceMined 1),
    .adoptChain (spentTip 2) 1 [blockOf twiceMined 2, blockOf .empty 3] true,
    .adoptChain (unspentTip 4) 1 [blockOf .empty 4, blockOf .empty 5, blockOf .empty 6] true]

theorem minedTwice_apart : ∀ b ∈ minedTwice.flatMap Event.adopted, ¬ Clash b twiceMined := by
  have hmines : ∀ nonce, ¬ Clash (blockOf twiceMined nonce) twiceMined := by
    rintro nonce ⟨hno, -⟩
    have hkernel : twiceMined.kernelIds ≠ [] := List.cons_ne_nil _ _
    rw [mines_blockOf hkernel] at hno
    cases hno
  have hempty : ∀ nonce, ¬ Clash (blockOf .empty nonce) twiceMined := by
    rintro nonce ⟨-, hdooms | ⟨c, -, hc⟩⟩
    · simp [dooms, blockOf, Transaction.empty, Transaction.kernelIds,
        Transaction.inputCommitments] at hdooms
    · simp [blockOf, Transaction.empty, Transaction.outputCommitments, Transaction.outputs] at hc
  simp [minedTwice, Event.adopted, hmines, hempty]

omit [Primitives] in
/-- Back in the pool it would be, but the cache forgot it when it was mined again. -/
theorem reorgs_lose_twice_mined :
    letI := Primitives.mixing
    ¬ (start (unspentTip 1) [blockOf .empty 0]).NoneLost (.submit twiceMined :: minedTwice) := by
  let := Primitives.mixing
  intro hall
  obtain ⟨q, hq, hin⟩ : ∃ q, (start (unspentTip 1) [blockOf .empty 0]).run
      [.submit twiceMined] = some q ∧
        q.mempool.entries[twiceMined.hash]? = some ⟨twiceMined, 2500, 25⟩ :=
    Option.map_eq_some_iff.mp (by decide +kernel)
  obtain ⟨r, hr, hout⟩ : ∃ r, (start (unspentTip 1) [blockOf .empty 0]).run
      (.submit twiceMined :: minedTwice) = some r ∧
        (r.mempool.entries.toList, r.chain.any (fun b => mines b twiceMined),
          applies r.state twiceMined) = ([], false, true) :=
    Option.map_eq_some_iff.mp (by decide +kernel)
  obtain ⟨hempty, hout⟩ := Prod.mk.inj hout
  obtain ⟨hnone, happlies⟩ := Prod.mk.inj hout
  have hfree : ∀ u, ¬ r.mempool.Holds u := by
    rintro u ⟨e, he, -⟩
    rw [← Std.ExtTreeMap.mem_toList_iff_getElem?_eq_some, hempty] at he
    cases he
  have hafter : q.run minedTwice = some r := (run_append hq).symm.trans hr
  refine hfree _ (hall [.submit twiceMined] minedTwice rfl q r hq hafter twiceMined
    ⟨_, hin, rfl⟩ ?_ happlies (fun u hu => absurd hu (hfree u)) minedTwice_apart)
  simpa using hnone

end Twice

end PoolNode

end Midwimble
