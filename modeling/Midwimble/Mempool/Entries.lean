import Midwimble.Core.Mempool
import Midwimble.Lib.OrderedMap

namespace Midwimble
open OrderedMap
set_option autoImplicit true

namespace Mempool

variable [Primitives] {pool : Mempool} {tx : Transaction} {state : State} {hash : Bytes32}
  {e : Entry} {keys : List Bytes32}

/-- The pool holds the transaction itself. -/
def Holds (pool : Mempool) (tx : Transaction) : Prop :=
  ∃ e, pool.entries[tx.hash]? = some e ∧ e.tx = tx

/-- What relaying asks of a transaction whatever the state. -/
structure Relayable (tx : Transaction) : Prop where
  structured : tx.validateStructure .relay = .ok ()
  sums : tx.verifySums = .ok ()
  fee : ∃ fee, tx.fee = .ok fee ∧ min (tx.weight * minFeePerWeight) u64Max ≤ fee

/-- Entries are kept under their hashes, and only entries' inputs, outputs and kernels are
recorded. -/
structure Sound (pool : Mempool) : Prop where
  hash : ∀ (hash : Bytes32) (e : Entry), pool.entries[hash]? = some e → e.tx.hash = hash
  relayable : ∀ (hash : Bytes32) (e : Entry), pool.entries[hash]? = some e → Relayable e.tx
  spends : ∀ c, c ∈ pool.spends →
    ∃ (hash : Bytes32) (e : Entry), pool.entries[hash]? = some e ∧ c ∈ e.tx.inputCommitments
  creates : ∀ c, c ∈ pool.creates →
    ∃ (hash : Bytes32) (e : Entry), pool.entries[hash]? = some e ∧ c ∈ e.tx.outputCommitments
  kernels : ∀ k, k ∈ pool.kernels →
    ∃ (hash : Bytes32) (e : Entry), pool.entries[hash]? = some e ∧ k ∈ e.tx.kernelIds

theorem sound_new : new.Sound := by
  constructor
  · intro hash e h
    simp [new] at h
  · intro hash e h
    simp [new] at h
  · intro c h
    simp [new] at h
  · intro c h
    simp [new] at h
  · intro k h
    simp [new] at h

theorem getElem?_remove {l : Bytes32} :
    (pool.remove hash).entries[l]? = some e ↔ hash ≠ l ∧ pool.entries[l]? = some e := by
  rw [remove]
  cases h : pool.entries[hash]? with
  | none =>
    refine ⟨fun he => ⟨?_, he⟩, fun he => he.2⟩
    rintro rfl
    exact nomatch h.symm.trans he
  | some entry => exact getElem?_erase_eq_some

theorem Sound.remove (hp : pool.Sound) : (pool.remove hash).Sound := by
  have hkeep : ∀ (l : Bytes32) (e : Entry), (pool.remove hash).entries[l]? = some e →
      pool.entries[l]? = some e := fun l e h => (getElem?_remove.mp h).2
  cases hentry : pool.entries[hash]? with
  | none => rwa [Mempool.remove, hentry]
  | some entry =>
    -- an entry that leaves takes its own keys along, so each key left is another entry's
    have hother : ∀ (f : Transaction → List Bytes32) (c : Bytes32), c ∉ f entry.tx →
        (∃ (l : Bytes32) (e : Entry), pool.entries[l]? = some e ∧ c ∈ f e.tx) →
        ∃ (l : Bytes32) (e : Entry), (pool.remove hash).entries[l]? = some e ∧ c ∈ f e.tx := by
      rintro f c hc ⟨l, e, he, hmem⟩
      refine ⟨l, e, getElem?_remove.mpr ⟨?_, he⟩, hmem⟩
      rintro rfl
      obtain rfl : entry = e := Option.some.inj (hentry.symm.trans he)
      exact hc hmem
    constructor
    · intro l e h
      exact hp.hash l e (hkeep l e h)
    · intro l e h
      exact hp.relayable l e (hkeep l e h)
    · intro c h
      rw [Mempool.remove, hentry] at h
      obtain ⟨hc, h⟩ := mem_foldl_erase.mp h
      exact hother _ c hc (hp.spends c h)
    · intro c h
      rw [Mempool.remove, hentry] at h
      obtain ⟨hc, h⟩ := mem_foldl_erase.mp h
      exact hother _ c hc (hp.creates c h)
    · intro c h
      rw [Mempool.remove, hentry] at h
      obtain ⟨hc, h⟩ := mem_foldl_erase.mp h
      exact hother _ c hc (hp.kernels c h)

theorem totalWeight_remove : (pool.remove hash).totalWeight ≤ pool.totalWeight := by
  rw [remove]
  split
  · exact Nat.le_refl _
  · exact Nat.sub_le _ _

theorem getElem?_removeAll {l : Bytes32} :
    (keys.foldl remove pool).entries[l]? = some e ↔ l ∉ keys ∧ pool.entries[l]? = some e := by
  induction keys generalizing pool with
  | nil => simp
  | cons k keys ih =>
    rw [List.foldl_cons, ih, getElem?_remove, List.mem_cons, not_or, ne_comm]
    tauto

theorem Sound.removeAll (hp : pool.Sound) (keys : List Bytes32) :
    (keys.foldl Mempool.remove pool).Sound ∧
      (keys.foldl Mempool.remove pool).totalWeight ≤ pool.totalWeight := by
  induction keys generalizing pool with
  | nil => exact ⟨hp, Nat.le_refl _⟩
  | cons k keys ih =>
    obtain ⟨hsound, hweight⟩ := ih hp.remove
    exact ⟨hsound, Nat.le_trans hweight totalWeight_remove⟩

omit [Primitives] in
theorem mem_keys_filter {m : Std.ExtTreeMap Bytes32 Entry} {f : Bytes32 × Entry → Bool}
    {l : Bytes32} :
    l ∈ (m.toList.filter f).map Prod.fst ↔ ∃ e, m[l]? = some e ∧ f (l, e) = true := by
  rw [List.mem_map]
  constructor
  · rintro ⟨⟨k, e⟩, he, rfl⟩
    obtain ⟨he, hf⟩ := List.mem_filter.mp he
    exact ⟨e, Std.ExtTreeMap.mem_toList_iff_getElem?_eq_some.mp he, hf⟩
  · rintro ⟨e, he, hf⟩
    exact ⟨(l, e),
      List.mem_filter.mpr ⟨Std.ExtTreeMap.mem_toList_iff_getElem?_eq_some.mpr he, hf⟩, rfl⟩

theorem getElem?_revalidate {l : Bytes32} :
    (pool.revalidate state).entries[l]? = some e ↔
      pool.entries[l]? = some e ∧ applies state e.tx = true := by
  rw [revalidate, getElem?_removeAll, mem_keys_filter]
  constructor
  · rintro ⟨hno, he⟩
    refine ⟨he, ?_⟩
    by_contra hf
    exact hno ⟨e, he, by simpa using hf⟩
  · rintro ⟨he, hf⟩
    refine ⟨?_, he⟩
    rintro ⟨e', he', hf'⟩
    obtain rfl := Option.some.inj (he.symm.trans he')
    simp [hf] at hf'

theorem getElem?_onBlock {batch : Batch} {l : Bytes32} :
    (pool.onBlock batch state).1.entries[l]? = some e ↔
      pool.entries[l]? = some e ∧ mines batch e.tx = false ∧ dooms batch e.tx = false ∧
        applies state e.tx = true := by
  rw [onBlock]
  dsimp only
  rw [getElem?_revalidate, getElem?_removeAll, getElem?_removeAll, mem_keys_filter,
    mem_keys_filter]
  constructor
  · rintro ⟨⟨hdoom, hmine, he⟩, hf⟩
    have hm : mines batch e.tx = false :=
      Bool.eq_false_iff.mpr fun hm => hmine ⟨e, he, hm⟩
    refine ⟨he, hm, Bool.eq_false_iff.mpr fun hd => hdoom ⟨e, he, ?_⟩, hf⟩
    rw [hm, hd]
    rfl
  · rintro ⟨he, hm, hd, hf⟩
    refine ⟨⟨?_, ?_, he⟩, hf⟩
    · rintro ⟨e', he', hd'⟩
      obtain rfl := Option.some.inj (he.symm.trans he')
      simp [hd] at hd'
    · rintro ⟨e', he', hm'⟩
      obtain rfl := Option.some.inj (he.symm.trans he')
      simp [hm] at hm'

theorem mem_mined {batch : Batch} :
    tx ∈ (pool.onBlock batch state).2 ↔
      ∃ (l : Bytes32) (e : Entry),
        pool.entries[l]? = some e ∧ mines batch e.tx = true ∧ e.tx = tx := by
  rw [onBlock]
  dsimp only
  rw [List.mem_map]
  constructor
  · rintro ⟨⟨l, e⟩, he, rfl⟩
    obtain ⟨he, hm⟩ := List.mem_filter.mp he
    exact ⟨l, e, Std.ExtTreeMap.mem_toList_iff_getElem?_eq_some.mp he, hm, rfl⟩
  · rintro ⟨l, e, he, hm, rfl⟩
    exact ⟨(l, e),
      List.mem_filter.mpr ⟨Std.ExtTreeMap.mem_toList_iff_getElem?_eq_some.mpr he, hm⟩, rfl⟩

theorem Sound.revalidate (hp : pool.Sound) (state : State) : (pool.revalidate state).Sound ∧
    (pool.revalidate state).totalWeight ≤ pool.totalWeight :=
  hp.removeAll _

theorem Sound.onBlock (hp : pool.Sound) (batch : Batch) (state : State) :
    (pool.onBlock batch state).1.Sound ∧
      (pool.onBlock batch state).1.totalWeight ≤ pool.totalWeight := by
  obtain ⟨hmined, hmw⟩ := hp.removeAll
    ((pool.entries.toList.filter fun e => mines batch e.2.tx).map Prod.fst)
  obtain ⟨hdoomed, hdw⟩ := hmined.removeAll
    ((pool.entries.toList.filter fun e =>
      !mines batch e.2.tx && dooms batch e.2.tx).map Prod.fst)
  obtain ⟨hrest, hrw⟩ := hdoomed.revalidate state
  exact ⟨hrest, Nat.le_trans hrw (Nat.le_trans hdw hmw)⟩

/-- Two transactions that a pool can hold together. -/
structure Apart (t u : Transaction) : Prop where
  hash : t.hash ≠ u.hash
  spends : ∀ c ∈ t.inputCommitments, c ∉ u.inputCommitments
  unconfirmed : ∀ c ∈ t.inputCommitments, c ∉ u.outputCommitments
  creates : ∀ c ∈ t.outputCommitments, c ∉ u.outputCommitments
  kernels : ∀ k ∈ t.kernelIds, k ∉ u.kernelIds

theorem applies_eq_true : applies state tx = true ↔
    tx.lockHeight ≤ state.height ∧ ∃ next, applyBody state tx none 0 = .ok next := by
  rw [applies, Bool.and_eq_true, decide_eq_true_eq]
  cases applyBody state tx none 0 with
  | ok next => simp [Except.isOk, Except.toBool]
  | error e => simp [Except.isOk, Except.toBool]

theorem check_eq_ok : pool.check tx state = .ok () ↔
    tx.hash ∉ pool.entries ∧ Relayable tx ∧ applies state tx = true ∧
      (∀ c ∈ tx.inputCommitments, c ∉ pool.spends ∧ c ∉ pool.creates) ∧
      (∀ c ∈ tx.outputCommitments, c ∉ pool.creates) ∧
      ∀ k ∈ tx.kernelIds, k ∉ pool.kernels := by
  rw [check, applies_eq_true]
  simp only [Fallible.check_bind_eq_ok, Fallible.bailIf_eq_ok]
  rw [Fallible.bind_eq_ok]
  simp only [Fallible.check_bind_eq_ok, Fallible.bailIf_eq_ok, Fallible.checkAll_eq_ok, Nat.not_lt]
  simp only [Fallible.bind_eq_ok]
  constructor
  · rintro ⟨hnew, hstr, hsums, fee, hfee, hmin, hlock, hin, hout, hker, next, happ, -⟩
    exact ⟨hnew, ⟨hstr, hsums, fee, hfee, hmin⟩, ⟨hlock, next, happ⟩, hin, hout, hker⟩
  · rintro ⟨hnew, ⟨hstr, hsums, fee, hfee, hmin⟩, ⟨hlock, next, happ⟩, hin, hout, hker⟩
    exact ⟨hnew, hstr, hsums, fee, hfee, hmin, hlock, hin, hout, hker, next, happ, trivial⟩

theorem Sound.check (hp : pool.Sound) (hr : Relayable tx) (ha : applies state tx = true)
    (hapart : ∀ (l : Bytes32) (e : Entry), pool.entries[l]? = some e → Apart tx e.tx) :
    pool.check tx state = .ok () := by
  refine check_eq_ok.mpr ⟨?_, hr, ha, ?_, ?_, ?_⟩
  · intro hmem
    obtain ⟨e, he⟩ := mem_iff_exists.mp hmem
    exact (hapart _ e he).hash (hp.hash _ e he).symm
  · intro c hc
    constructor
    · intro hmem
      obtain ⟨l, e, he, hce⟩ := hp.spends c hmem
      exact (hapart l e he).spends c hc hce
    · intro hmem
      obtain ⟨l, e, he, hce⟩ := hp.creates c hmem
      exact (hapart l e he).unconfirmed c hc hce
  · intro c hc hmem
    obtain ⟨l, e, he, hce⟩ := hp.creates c hmem
    exact (hapart l e he).creates c hc hce
  · intro k hk hmem
    obtain ⟨l, e, he, hke⟩ := hp.kernels k hmem
    exact (hapart l e he).kernels k hk hke

theorem Sound.insert (hp : pool.Sound) (hr : Relayable e.tx) (hnew : e.tx.hash ∉ pool.entries) :
    (pool.insert e).Sound := by
  have hold : ∀ (l : Bytes32) (d : Entry), pool.entries[l]? = some d →
      (pool.insert e).entries[l]? = some d := by
    intro l d hd
    refine getElem?_insert_eq_some.mpr (.inr ⟨?_, hd⟩)
    rintro rfl
    exact hnew (mem_iff_exists.mpr ⟨d, hd⟩)
  have hself : (pool.insert e).entries[e.tx.hash]? = some e :=
    getElem?_insert_eq_some.mpr (.inl ⟨rfl, rfl⟩)
  have hof : ∀ (l : Bytes32) (d : Entry), (pool.insert e).entries[l]? = some d →
      e.tx.hash = l ∧ e = d ∨ pool.entries[l]? = some d := by
    intro l d hd
    rcases getElem?_insert_eq_some.mp hd with h | ⟨-, h⟩
    · exact .inl h
    · exact .inr h
  constructor
  · intro l d hd
    rcases hof l d hd with ⟨hl, rfl⟩ | hd
    · exact hl
    · exact hp.hash l d hd
  · intro l d hd
    rcases hof l d hd with ⟨-, rfl⟩ | hd
    · exact hr
    · exact hp.relayable l d hd
  · intro c hc
    rcases mem_foldl_insert.mp hc with hc | hc
    · exact ⟨_, e, hself, hc⟩
    · obtain ⟨l, d, hd, hcd⟩ := hp.spends c hc
      exact ⟨l, d, hold l d hd, hcd⟩
  · intro c hc
    rcases mem_foldl_insert.mp hc with hc | hc
    · exact ⟨_, e, hself, hc⟩
    · obtain ⟨l, d, hd, hcd⟩ := hp.creates c hc
      exact ⟨l, d, hold l d hd, hcd⟩
  · intro k hk
    rcases mem_foldl_insert.mp hk with hk | hk
    · exact ⟨_, e, hself, hk⟩
    · obtain ⟨l, d, hd, hkd⟩ := hp.kernels k hk
      exact ⟨l, d, hold l d hd, hkd⟩

theorem add_cases (hroom : pool.totalWeight + tx.weight ≤ maxPoolWeight) (state : State) :
    (pool.check tx state = .ok () ∧
        ∃ fee, (pool.add tx state).1 = pool.insert ⟨tx, fee, tx.weight⟩) ∨
      pool.check tx state ≠ .ok () ∧ (pool.add tx state).1 = pool := by
  have hevict : ∀ fee fuel, evict ⟨tx, fee, tx.weight⟩ fuel pool = (pool, true) := by
    intro fee fuel
    cases fuel with
    | zero => rw [evict, decide_eq_true hroom]
    | succ fuel => rw [evict, if_pos hroom]
  rw [add]
  cases hcheck : pool.check tx state with
  | error e => exact .inr ⟨nofun, rfl⟩
  | ok u =>
    obtain ⟨fee, hfee, -⟩ := (check_eq_ok.mp hcheck).2.1.fee
    refine .inl ⟨rfl, fee, ?_⟩
    rw [hfee]
    dsimp only
    rw [hevict]
    rfl

theorem Sound.add (hp : pool.Sound)
    (hroom : pool.totalWeight + tx.weight ≤ maxPoolWeight) (state : State) :
    (pool.add tx state).1.Sound ∧
      (pool.add tx state).1.totalWeight ≤ pool.totalWeight + tx.weight ∧
      (∀ (l : Bytes32) (e : Entry), pool.entries[l]? = some e →
        (pool.add tx state).1.entries[l]? = some e) ∧
      ∀ (l : Bytes32) (e : Entry), (pool.add tx state).1.entries[l]? = some e →
        pool.entries[l]? = some e ∨ e.tx = tx := by
  rcases add_cases hroom state with ⟨hcheck, fee, heq⟩ | ⟨-, heq⟩
  · obtain ⟨hnew, hr, -⟩ := check_eq_ok.mp hcheck
    rw [heq]
    refine ⟨hp.insert hr hnew, Nat.le_refl _, fun l e he => ?_, fun l e he => ?_⟩
    · refine getElem?_insert_eq_some.mpr (.inr ⟨?_, he⟩)
      rintro rfl
      exact hnew (mem_iff_exists.mpr ⟨e, he⟩)
    · rcases getElem?_insert_eq_some.mp he with ⟨-, rfl⟩ | ⟨-, he⟩
      · exact .inr rfl
      · exact .inl he
  · rw [heq]
    exact ⟨hp, Nat.le_add_right _ _, fun l e he => he, fun l e he => .inl he⟩

/-- What is offered back after a reorganisation. -/
def addAll (pool : Mempool) (txs : List Transaction) (state : State) : Mempool :=
  txs.foldl (fun pool tx => (pool.add tx state).1) pool

theorem Sound.addAll {txs : List Transaction} (hp : pool.Sound)
    (hroom : pool.totalWeight + (txs.map Transaction.weight).sum ≤ maxPoolWeight)
    (state : State) :
    (pool.addAll txs state).Sound ∧
      ∀ (l : Bytes32) (e : Entry), pool.entries[l]? = some e →
        (pool.addAll txs state).entries[l]? = some e := by
  induction txs generalizing pool with
  | nil => exact ⟨hp, fun l e he => he⟩
  | cons t txs ih =>
    rw [List.map_cons, List.sum_cons] at hroom
    have hfits : pool.totalWeight + t.weight ≤ maxPoolWeight := by omega
    obtain ⟨hsound, hweight, hkeep, -⟩ := hp.add hfits state
    obtain ⟨hrest, hkeeps⟩ := ih hsound (by omega)
    exact ⟨hrest, fun l e he => hkeeps l e (hkeep l e he)⟩

theorem Sound.holds_addAll {txs : List Transaction} (hp : pool.Sound)
    (hroom : pool.totalWeight + (txs.map Transaction.weight).sum ≤ maxPoolWeight)
    (htx : tx ∈ txs) (hr : Relayable tx) (ha : applies state tx = true)
    (hpool : ∀ (l : Bytes32) (e : Entry), pool.entries[l]? = some e → Apart tx e.tx)
    (htxs : ∀ u ∈ txs, u ≠ tx → Apart tx u) : (pool.addAll txs state).Holds tx := by
  induction txs generalizing pool with
  | nil => cases htx
  | cons t txs ih =>
    rw [List.map_cons, List.sum_cons] at hroom
    have hfits : pool.totalWeight + t.weight ≤ maxPoolWeight := by omega
    obtain ⟨hsound, hweight, hkeep, hof⟩ := hp.add hfits state
    by_cases ht : t = tx
    · subst ht
      have hrest : (pool.add t state).1.totalWeight + (txs.map Transaction.weight).sum ≤
          maxPoolWeight := by omega
      obtain ⟨-, hkeeps⟩ := hsound.addAll hrest state
      rcases add_cases hfits state with ⟨-, fee, heq⟩ | ⟨hcheck, -⟩
      · refine ⟨⟨t, fee, t.weight⟩, hkeeps _ _ ?_, rfl⟩
        rw [heq]
        exact getElem?_insert_eq_some.mpr (.inl ⟨rfl, rfl⟩)
      · exact absurd (hp.check hr ha hpool) hcheck
    · apply ih hsound (by omega) ((List.mem_cons.mp htx).resolve_left (Ne.symm ht))
      · intro l e he
        rcases hof l e he with he | rfl
        · exact hpool l e he
        · exact htxs _ List.mem_cons_self ht
      · intro u hu
        exact htxs u (List.mem_cons_of_mem _ hu)

end Mempool

end Midwimble
