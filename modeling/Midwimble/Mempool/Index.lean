import Midwimble.Chain.Accepted
import Midwimble.Mempool.Reorgs

namespace Midwimble
open OrderedMap
set_option autoImplicit true

variable [Primitives]

section Coins

variable {s s' : State} {height : Nat} {isCoinbase : Bool}

theorem spends_held {inputs : List Input}
    (h : inputs.foldlM (spendInput height) s = .ok s') :
    (∀ i ∈ inputs, i.commitment ∈ s.utxos) ∧
      ∀ c ∈ s.utxos, c ∉ inputs.map Input.commitment → c ∈ s'.utxos := by
  induction inputs generalizing s with
  | nil =>
    obtain rfl := Fallible.pure_eq_ok.mp h
    exact ⟨nofun, fun c hc _ => hc⟩
  | cons i inputs ih =>
    obtain ⟨t, hi, hrest⟩ := Fallible.foldlM_cons_eq_ok.mp h
    obtain ⟨entry, he, -, -, rfl⟩ := spendInput_eq_ok.mp hi
    obtain ⟨hheld, hkeep⟩ := ih hrest
    constructor
    · intro j hj
      rcases List.mem_cons.mp hj with rfl | hj
      · exact mem_iff_exists.mpr ⟨entry, he⟩
      · exact (Std.ExtTreeMap.mem_erase.mp (hheld j hj)).2
    · intro c hc hno
      rw [List.map_cons, List.mem_cons, not_or] at hno
      apply hkeep c _ hno.2
      exact Std.ExtTreeMap.mem_erase.mpr
        ⟨fun heq => hno.1 (Std.LawfulEqCmp.eq_of_compare heq).symm, hc⟩

theorem adds_fresh {outputs : List Output}
    (h : outputs.foldlM (addOutput height isCoinbase) s = .ok s') :
    ∀ o ∈ outputs, o.commitment ∉ s.utxos := by
  induction outputs generalizing s with
  | nil => exact nofun
  | cons o outputs ih =>
    obtain ⟨t, ho, hrest⟩ := Fallible.foldlM_cons_eq_ok.mp h
    obtain ⟨hnew, rfl⟩ := addOutput_eq_ok.mp ho
    intro p hp hmem
    rcases List.mem_cons.mp hp with rfl | hp
    · exact hnew hmem
    · exact ih hrest p hp (Std.ExtTreeMap.mem_insert.mpr (.inr hmem))

end Coins

namespace Mempool

variable {pool pool' : Mempool} {tx : Transaction} {state : State} {hash : Bytes32}
  {e : Entry} {keys : List Bytes32}

/-- An index maps exactly the keys of the entries, to their hashes. -/
def Indexes (index : Std.ExtTreeMap Bytes32 Bytes32) (entries : Std.ExtTreeMap Bytes32 Entry)
    (keysOf : Transaction → List Bytes32) : Prop :=
  ∀ k hash : Bytes32, index[k]? = some hash ↔
    ∃ e : Entry, entries[hash]? = some e ∧ k ∈ keysOf e.tx

section Indexes

variable {index : Std.ExtTreeMap Bytes32 Bytes32} {entries : Std.ExtTreeMap Bytes32 Entry}
  {keysOf : Transaction → List Bytes32}

omit [Primitives] in
theorem Indexes.erase (h : Indexes index entries keysOf) (he : entries[hash]? = some e) :
    Indexes ((keysOf e.tx).foldl (fun m k => m.erase k) index) (entries.erase hash) keysOf := by
  intro k l
  rw [getElem?_foldl_erase_eq_some, h k l]
  constructor
  · rintro ⟨hk, d, hd, hkd⟩
    refine ⟨d, getElem?_erase_eq_some.mpr ⟨?_, hd⟩, hkd⟩
    rintro rfl
    obtain rfl := Option.some.inj (he.symm.trans hd)
    exact hk hkd
  · rintro ⟨d, hd, hkd⟩
    obtain ⟨hne, hd⟩ := getElem?_erase_eq_some.mp hd
    refine ⟨fun hk => hne ?_, d, hd, hkd⟩
    -- one key has one hash
    have hown : index[k]? = some hash := (h k hash).mpr ⟨e, he, hk⟩
    have hother : index[k]? = some l := (h k l).mpr ⟨d, hd, hkd⟩
    exact Option.some.inj (hown.symm.trans hother)

omit [Primitives] in
theorem Indexes.insert (h : Indexes index entries keysOf) (hnew : hash ∉ entries)
    (hfresh : ∀ k ∈ keysOf e.tx, k ∉ index) :
    Indexes ((keysOf e.tx).foldl (fun m k => m.insert k hash) index) (entries.insert hash e)
      keysOf := by
  intro k l
  rw [getElem?_foldl_insert_eq_some]
  constructor
  · rintro (⟨hk, rfl⟩ | ⟨-, hl⟩)
    · exact ⟨e, getElem?_insert_eq_some.mpr (.inl ⟨rfl, rfl⟩), hk⟩
    · obtain ⟨d, hd, hkd⟩ := (h k l).mp hl
      refine ⟨d, getElem?_insert_eq_some.mpr (.inr ⟨?_, hd⟩), hkd⟩
      rintro rfl
      exact hnew (mem_iff_exists.mpr ⟨d, hd⟩)
  · rintro ⟨d, hd, hkd⟩
    rcases getElem?_insert_eq_some.mp hd with ⟨rfl, rfl⟩ | ⟨-, hd⟩
    · exact .inl ⟨hkd, rfl⟩
    · have hl : index[k]? = some l := (h k l).mpr ⟨d, hd, hkd⟩
      exact .inr ⟨fun hk => hfresh k hk (mem_iff_exists.mpr ⟨l, hl⟩), hl⟩

omit [Primitives] in
theorem Indexes.unique (h : Indexes index entries keysOf) {k l : Bytes32} {d : Entry}
    (he : entries[hash]? = some e) (hd : entries[l]? = some d) (hk : k ∈ keysOf e.tx)
    (hkd : k ∈ keysOf d.tx) : hash = l := by
  have hown : index[k]? = some hash := (h k hash).mpr ⟨e, he, hk⟩
  have hother : index[k]? = some l := (h k l).mpr ⟨d, hd, hkd⟩
  exact Option.some.inj (hown.symm.trans hother)

omit [Primitives] in
theorem Indexes.not_mem (h : Indexes index entries keysOf)
    {index' : Std.ExtTreeMap Bytes32 Bytes32} {entries' : Std.ExtTreeMap Bytes32 Entry}
    (h' : Indexes index' entries' keysOf)
    (hsub : ∀ (l : Bytes32) (d : Entry), entries'[l]? = some d → entries[l]? = some d)
    {k : Bytes32} (hk : k ∉ index) : k ∉ index' := by
  intro hmem
  obtain ⟨l, hl⟩ := mem_iff_exists.mp hmem
  obtain ⟨d, hd, hkd⟩ := (h' k l).mp hl
  exact hk (mem_iff_exists.mpr ⟨l, (h k l).mpr ⟨d, hsub l d hd, hkd⟩⟩)

end Indexes

/-- The three indices and the total weight say what the entries are. -/
structure Indexed (pool : Mempool) : Prop where
  hash : ∀ (hash : Bytes32) (e : Entry), pool.entries[hash]? = some e → e.tx.hash = hash
  weight : ∀ (hash : Bytes32) (e : Entry), pool.entries[hash]? = some e → e.weight = e.tx.weight
  spends : Indexes pool.spends pool.entries Transaction.inputCommitments
  creates : Indexes pool.creates pool.entries Transaction.outputCommitments
  kernels : Indexes pool.kernels pool.entries Transaction.kernelIds
  total : pool.totalWeight = valueSum Entry.weight pool.entries
  bounded : pool.totalWeight ≤ maxPoolWeight

theorem indexed_new : new.Indexed := by
  constructor
  · intro hash e h
    simp [new] at h
  · intro hash e h
    simp [new] at h
  · intro k hash
    simp [new]
  · intro k hash
    simp [new]
  · intro k hash
    simp [new]
  · exact (valueSum_empty _).symm
  · exact Nat.zero_le _

theorem Indexed.remove (h : pool.Indexed) : (pool.remove hash).Indexed := by
  cases he : pool.entries[hash]? with
  | none => rwa [Mempool.remove, he]
  | some e =>
    have hsum := valueSum_erase (f := Entry.weight) he
    have htotal := h.total
    have hkeep : ∀ (l : Bytes32) (d : Entry), (pool.remove hash).entries[l]? = some d →
        pool.entries[l]? = some d := fun l d hd => (getElem?_remove.mp hd).2
    have hbounded : (pool.remove hash).totalWeight ≤ maxPoolWeight :=
      Nat.le_trans totalWeight_remove h.bounded
    rw [Mempool.remove, he] at hkeep hbounded ⊢
    constructor
    · exact fun l d hd => h.hash l d (hkeep l d hd)
    · exact fun l d hd => h.weight l d (hkeep l d hd)
    · exact h.spends.erase he
    · exact h.creates.erase he
    · exact h.kernels.erase he
    · show pool.totalWeight - e.weight = valueSum Entry.weight (pool.entries.erase hash)
      omega
    · exact hbounded

theorem Indexed.removeAll (h : pool.Indexed) : (keys.foldl Mempool.remove pool).Indexed := by
  induction keys generalizing pool with
  | nil => exact h
  | cons k keys ih => exact ih h.remove

theorem Indexed.onBlock (h : pool.Indexed) (batch : Batch) (state : State) :
    (pool.onBlock batch state).1.Indexed :=
  h.removeAll.removeAll.removeAll

theorem Indexed.insert (h : pool.Indexed) (hnew : e.tx.hash ∉ pool.entries)
    (hweight : e.weight = e.tx.weight) (hspends : ∀ k ∈ e.tx.inputCommitments, k ∉ pool.spends)
    (hcreates : ∀ k ∈ e.tx.outputCommitments, k ∉ pool.creates)
    (hkernels : ∀ k ∈ e.tx.kernelIds, k ∉ pool.kernels)
    (hroom : pool.totalWeight + e.weight ≤ maxPoolWeight) : (pool.insert e).Indexed := by
  have hnone : pool.entries[e.tx.hash]? = none := Std.ExtTreeMap.getElem?_eq_none hnew
  have hof : ∀ (l : Bytes32) (d : Entry), (pool.insert e).entries[l]? = some d →
      e.tx.hash = l ∧ e = d ∨ pool.entries[l]? = some d := by
    intro l d hd
    rcases getElem?_insert_eq_some.mp hd with h | ⟨-, h⟩
    · exact .inl h
    · exact .inr h
  constructor
  · intro l d hd
    rcases hof l d hd with ⟨hl, rfl⟩ | hd
    · exact hl
    · exact h.hash l d hd
  · intro l d hd
    rcases hof l d hd with ⟨-, rfl⟩ | hd
    · exact hweight
    · exact h.weight l d hd
  · exact h.spends.insert hnew hspends
  · exact h.creates.insert hnew hcreates
  · exact h.kernels.insert hnew hkernels
  · show pool.totalWeight + e.weight = valueSum Entry.weight (pool.entries.insert e.tx.hash e)
    rw [valueSum_insert hnone, h.total, Nat.add_comm]
  · exact hroom

theorem Indexed.evicts (h : pool.Indexed) (hev : Evicts e pool pool') :
    pool'.Indexed ∧ ∀ (l : Bytes32) (d : Entry),
      pool'.entries[l]? = some d → pool.entries[l]? = some d := by
  induction hev with
  | done => exact ⟨h, fun l d hd => hd⟩
  | evict hash worst full held least lower rest ih =>
    obtain ⟨hindexed, hsub⟩ := ih h.remove
    exact ⟨hindexed, fun l d hd => (getElem?_remove.mp (hsub l d hd)).2⟩

theorem check_of_checkAs {alreadyValidated : Bool}
    (h : checkAs alreadyValidated pool tx state = .ok ()) : pool.check tx state = .ok () := by
  cases alreadyValidated with
  | true => exact h
  | false =>
    rw [checkAs, if_neg Bool.false_ne_true, checkUnverified] at h
    simp only [Fallible.check_bind_eq_ok] at h
    exact h.2.2.2.2

theorem Indexed.adds {alreadyValidated : Bool} (h : pool.Indexed)
    (hadd : Adds alreadyValidated tx state pool pool') :
    pool'.Indexed ∧ ∀ (l : Bytes32) (d : Entry), pool'.entries[l]? = some d →
      pool.entries[l]? = some d ∨ d.tx = tx ∧ pool.check tx state = .ok () := by
  cases hadd with
  | refused err bad => exact ⟨h, fun l d hd => .inl hd⟩
  | full fee ok paid evicted full stuck =>
    obtain ⟨hindexed, hsub⟩ := h.evicts evicted
    exact ⟨hindexed, fun l d hd => .inl (hsub l d hd)⟩
  | @inserted evictedPool fee ok paid evicted room =>
    have hcheck := check_of_checkAs ok
    obtain ⟨hnew, -, -, hin, hout, hker⟩ := check_eq_ok.mp hcheck
    obtain ⟨hindexed, hsub⟩ := h.evicts evicted
    constructor
    · apply hindexed.insert _ rfl _ _ _ room
      · intro hmem
        obtain ⟨d, hd⟩ := mem_iff_exists.mp hmem
        exact hnew (mem_iff_exists.mpr ⟨d, hsub _ d hd⟩)
      · exact fun k hk => h.spends.not_mem hindexed.spends hsub (hin k hk).1
      · exact fun k hk => h.creates.not_mem hindexed.creates hsub (hout k hk)
      · exact fun k hk => h.kernels.not_mem hindexed.kernels hsub (hker k hk)
    · intro l d hd
      rcases getElem?_insert_eq_some.mp hd with ⟨-, rfl⟩ | ⟨-, hd⟩
      · exact .inr ⟨rfl, hcheck⟩
      · exact .inl (hsub l d hd)

theorem Indexed.does {call : Call} (h : pool.Indexed) (hcall : Does pool call pool') :
    pool'.Indexed := by
  cases call with
  | add tx state alreadyValidated => exact (h.adds hcall).1
  | onBlock batch state =>
    obtain rfl : pool' = _ := hcall
    exact h.onBlock batch state
  | revalidate state =>
    obtain rfl : pool' = _ := hcall
    exact h.removeAll

theorem Indexed.calls {calls : List Call} (h : pool.Indexed) (hrun : Calls pool calls pool') :
    pool'.Indexed := by
  induction hrun with
  | nil => exact h
  | cons call calls first rest ih => exact ih (h.does first)

/-- Every entry could be in the next block after `state` by itself. -/
def AllApply (pool : Mempool) (state : State) : Prop :=
  ∀ (hash : Bytes32) (e : Entry), pool.entries[hash]? = some e → applies state e.tx = true

theorem allApply_revalidate : (pool.revalidate state).AllApply state :=
  fun _ _ he => (getElem?_revalidate.mp he).2

theorem allApply_onBlock {batch : Batch} : (pool.onBlock batch state).1.AllApply state :=
  fun _ _ he => (getElem?_onBlock.mp he).2.2.2

/-- No entry spends what an entry creates. -/
def Confirmed (pool : Mempool) : Prop :=
  ∀ (hash : Bytes32) (e : Entry), pool.entries[hash]? = some e →
    ∀ (other : Bytes32) (d : Entry), pool.entries[other]? = some d →
      ∀ c ∈ e.tx.inputCommitments, c ∉ d.tx.outputCommitments

theorem utxos_of_applies (h : applies state tx = true) :
    (∀ c ∈ tx.inputCommitments, c ∈ state.utxos) ∧
      ∀ c ∈ tx.outputCommitments, c ∉ tx.inputCommitments → c ∉ state.utxos := by
  obtain ⟨-, next, happ⟩ := applies_eq_true.mp h
  obtain ⟨b, -⟩ := applyBody_eq_ok.mp happ
  obtain ⟨hheld, hkeep⟩ := spends_held b.spends
  constructor
  · intro c hc
    obtain ⟨i, hi, rfl⟩ := List.mem_map.mp hc
    exact hheld i hi
  · intro c hc hno hmem
    obtain ⟨o, ho, rfl⟩ := List.mem_map.mp hc
    exact adds_fresh b.pays o ho (hkeep _ hmem hno)

theorem Relayable.apart (h : Relayable tx) :
    ∀ c ∈ tx.outputCommitments, c ∉ tx.inputCommitments := by
  have hstructured := h.structured
  simp only [Transaction.validateStructure, Fallible.check_bind_eq_ok, Fallible.bailIf_eq_ok]
    at hstructured
  obtain ⟨-, -, -, -, -, -, -, hno, -⟩ := hstructured
  intro c hc hin
  obtain ⟨i, hi, rfl⟩ := List.mem_map.mp hin
  exact hno (List.any_eq_true.mpr ⟨i, hi, decide_eq_true hc⟩)

omit [Primitives] in
theorem Confirmed.of_fewer (h : pool.Confirmed)
    (hsub : ∀ (l : Bytes32) (d : Entry), pool'.entries[l]? = some d → pool.entries[l]? = some d) :
    pool'.Confirmed :=
  fun hash e he other d hd => h hash e (hsub hash e he) other d (hsub other d hd)

theorem confirmed_adds {alreadyValidated : Bool} (h : pool.Indexed) (happly : pool.AllApply state)
    (hconf : pool.Confirmed) (hadd : Adds alreadyValidated tx state pool pool') :
    pool'.AllApply state ∧ pool'.Confirmed := by
  obtain ⟨-, hof⟩ := h.adds hadd
  constructor
  · intro l d hd
    rcases hof l d hd with hd | ⟨rfl, hcheck⟩
    · exact happly l d hd
    · exact (check_eq_ok.mp hcheck).2.2.1
  · intro l e he other d hd c hc hcd
    rcases hof other d hd with hd | ⟨rfl, hcheck⟩
    · rcases hof l e he with he | ⟨rfl, hcheck⟩
      · exact hconf l e he other d hd c hc hcd
      · have hfree := ((check_eq_ok.mp hcheck).2.2.2.1 c hc).2
        exact hfree (mem_iff_exists.mpr ⟨other, (h.creates c other).mpr ⟨d, hd, hcd⟩⟩)
    · obtain ⟨-, hrelay, happ, -⟩ := check_eq_ok.mp hcheck
      have hnew := (utxos_of_applies happ).2 c hcd (hrelay.apart c hcd)
      rcases hof l e he with he | ⟨heq, -⟩
      · exact hnew ((utxos_of_applies (happly l e he)).1 c hc)
      · rw [heq] at hc
        exact hrelay.apart c hcd hc

/-- Each `add` is made on the state the pool was last brought to, `current` at first. -/
def AddsOn (current : State) : List Call → Prop
  | [] => True
  | .add _ state _ :: calls => state = current ∧ AddsOn current calls
  | .onBlock _ state :: calls => AddsOn state calls
  | .revalidate state :: calls => AddsOn state calls

theorem confirmed_calls {calls : List Call} {current : State} (h : pool.Indexed)
    (happly : pool.AllApply current) (hconf : pool.Confirmed) (hon : AddsOn current calls)
    (hrun : Calls pool calls pool') : pool'.Confirmed := by
  induction hrun generalizing current with
  | nil => exact hconf
  | cons call calls first rest ih =>
    have hindexed := h.does first
    cases call with
    | add tx state alreadyValidated =>
      obtain ⟨rfl, hon⟩ := hon
      obtain ⟨happly, hconf⟩ := confirmed_adds h happly hconf first
      exact ih hindexed happly hconf hon
    | onBlock batch state =>
      obtain rfl := first
      exact ih hindexed allApply_onBlock
        (hconf.of_fewer fun l d hd => (getElem?_onBlock.mp hd).1) hon
    | revalidate state =>
      obtain rfl := first
      exact ih hindexed allApply_revalidate
        (hconf.of_fewer fun l d hd => (getElem?_revalidate.mp hd).1) hon

theorem calls_append {before after : List Call} (h : Calls pool (before ++ after) pool') :
    ∃ middle, Calls pool before middle ∧ Calls middle after pool' := by
  induction before generalizing pool with
  | nil => exact ⟨pool, .nil pool, h⟩
  | cons call before ih =>
    cases h with
    | cons _ _ first rest =>
      obtain ⟨middle, hbefore, hafter⟩ := ih rest
      exact ⟨middle, .cons call before first hbefore, hafter⟩

theorem calls_last {before : List Call} {call : Call}
    (h : Calls pool (before ++ [call]) pool') : ∃ middle, Does middle call pool' := by
  obtain ⟨middle, -, hlast⟩ := calls_append h
  cases hlast with
  | cons _ _ first rest =>
    cases rest with
    | nil => exact ⟨middle, first⟩

/-- The pool's indices say what its transactions are after any calls, and what is left after a block
applies. -/
theorem index_invariant (calls : List Call) (hrun : Calls new calls pool) :
    Indexes pool.spends pool.entries Transaction.inputCommitments ∧
    Indexes pool.creates pool.entries Transaction.outputCommitments ∧
    Indexes pool.kernels pool.entries Transaction.kernelIds ∧
    (∀ (hash : Bytes32) (e : Entry), pool.entries[hash]? = some e → e.tx.hash = hash ∧
      ∀ (other : Bytes32) (d : Entry), pool.entries[other]? = some d → hash ≠ other →
        (∀ c ∈ e.tx.inputCommitments, c ∉ d.tx.inputCommitments) ∧
        (∀ c ∈ e.tx.outputCommitments, c ∉ d.tx.outputCommitments) ∧
        ∀ k ∈ e.tx.kernelIds, k ∉ d.tx.kernelIds) ∧
    pool.totalWeight = valueSum (fun e => e.tx.weight) pool.entries ∧
    pool.totalWeight ≤ maxPoolWeight ∧
    (∀ (before : List Call) (batch : Batch) (state : State),
      calls = before ++ [.onBlock batch state] → pool.AllApply state) ∧
    (∀ (before : List Call) (state : State),
      calls = before ++ [.revalidate state] → pool.AllApply state) ∧
    ∀ current : State, AddsOn current calls → pool.Confirmed := by
  have h := indexed_new.calls hrun
  refine ⟨h.spends, h.creates, h.kernels, ?_, ?_, h.bounded, ?_, ?_, ?_⟩
  · intro hash e he
    refine ⟨h.hash hash e he, fun other d hd hne => ⟨?_, ?_, ?_⟩⟩
    · exact fun c hc hcd => hne (h.spends.unique he hd hc hcd)
    · exact fun c hc hcd => hne (h.creates.unique he hd hc hcd)
    · exact fun k hk hkd => hne (h.kernels.unique he hd hk hkd)
  · rw [h.total]
    exact valueSum_congr h.weight
  · rintro before batch state rfl
    obtain ⟨middle, rfl⟩ := calls_last hrun
    exact allApply_onBlock
  · rintro before state rfl
    obtain ⟨middle, rfl⟩ := calls_last hrun
    exact allApply_revalidate
  · intro current hon
    apply confirmed_calls indexed_new _ _ hon hrun
    · intro hash e he
      simp [new] at he
    · intro hash e he
      simp [new] at he

/-- `evict` is one of the orders in which entries of the lowest rate may go. -/
theorem evicts_evict (fuel : Nat) (hfuel : pool.entries.size ≤ fuel) :
    Evicts e pool (evict e fuel pool).1 ∧
      if (evict e fuel pool).2 then (evict e fuel pool).1.totalWeight + e.weight ≤ maxPoolWeight
      else maxPoolWeight < (evict e fuel pool).1.totalWeight + e.weight ∧
        ∀ (other : Bytes32) (d : Entry), (evict e fuel pool).1.entries[other]? = some d →
          e.rate ≤ d.rate := by
  induction fuel generalizing pool with
  | zero =>
    have hempty : pool.entries = ∅ :=
      Std.ExtTreeMap.eq_empty_iff_size_eq_zero.mpr (Nat.le_zero.mp hfuel)
    refine ⟨.done pool, ?_⟩
    simp only [evict, decide_eq_true_eq]
    split
    · assumption
    · refine ⟨by omega, fun other d hd => ?_⟩
      rw [hempty] at hd
      simp at hd
  | succ fuel ih =>
    rw [evict]
    split
    case isTrue hroom => exact ⟨.done pool, hroom⟩
    case isFalse hfull =>
      cases hmin : pool.entries.toList.argmin fun e => e.2.rate with
      | none =>
        have hempty := List.argmin_eq_none.mp hmin
        refine ⟨.done pool, Nat.lt_of_not_le hfull, fun other d hd => ?_⟩
        rw [← Std.ExtTreeMap.mem_toList_iff_getElem?_eq_some, hempty] at hd
        cases hd
      | some worst =>
        obtain ⟨hash, worst⟩ := worst
        have hheld : pool.entries[hash]? = some worst :=
          Std.ExtTreeMap.mem_toList_iff_getElem?_eq_some.mp (List.argmin_mem hmin)
        have hleast : ∀ (other : Bytes32) (d : Entry), pool.entries[other]? = some d →
            worst.rate ≤ d.rate := fun other d hd =>
          (List.mem_argmin_iff.mp hmin).2.1 (other, d)
            (Std.ExtTreeMap.mem_toList_iff_getElem?_eq_some.mpr hd)
        dsimp only
        split
        case isTrue hlower =>
          have hsize : (pool.remove hash).entries.size ≤ fuel := by
            rw [remove, hheld]
            dsimp only
            rw [Std.ExtTreeMap.size_erase,
              if_pos (Std.ExtTreeMap.mem_iff_contains.mp (mem_iff_exists.mpr ⟨worst, hheld⟩))]
            omega
          obtain ⟨hrest, hend⟩ := ih hsize
          exact ⟨.evict hash worst (Nat.lt_of_not_le hfull) hheld hleast hlower hrest, hend⟩
        case isFalse hlower =>
          exact ⟨.done pool, Nat.lt_of_not_le hfull, fun other d hd =>
            Nat.le_trans (Nat.le_of_not_lt hlower) (hleast other d hd)⟩

theorem adds_add : Adds true tx state pool (pool.add tx state).1 := by
  rw [add]
  cases hcheck : pool.check tx state with
  | error err => exact .refused err hcheck
  | ok u =>
    obtain ⟨fee, hfee, -⟩ := (check_eq_ok.mp hcheck).2.1.fee
    rw [hfee]
    dsimp only
    obtain ⟨hev, hend⟩ := evicts_evict (e := ⟨tx, fee, tx.weight⟩) pool.entries.size
      (Nat.le_refl pool.entries.size)
    cases hroom : (evict ⟨tx, fee, tx.weight⟩ pool.entries.size pool).2 with
    | true =>
      rw [hroom] at hend
      rw [if_pos rfl]
      exact .inserted fee hcheck hfee hev hend
    | false =>
      rw [hroom] at hend
      rw [if_neg Bool.false_ne_true]
      obtain ⟨hfull, hstuck⟩ := hend
      exact .full fee hcheck hfee hev hfull hstuck

section Recreated

open PoolNode

/-- Creates anew the output that `twiceMined` spends. -/
def recreating : Transaction where
  body :=
    { inputs := [⟨0, 5, ⟨0, 0⟩⟩]
      outputs := [⟨[⟨1, 5, 1, 0, List.replicate 80 0, 0⟩], List.replicate 672 0⟩]
      kernels := [⟨.plain, 2500, 0, 1 + (2500 <<< 128), 5, ⟨0, 0, 0⟩⟩] }
  kernelOffset := 0
  ownerOffset := 0

/-- A tip at which that output is spent. -/
def recreatingTip : State :=
  { State.genesis with height := 1, utxos := State.genesis.utxos.insert 0 ⟨0, 5, 0, 0, false⟩ }

/-- Another transaction, and a tip at which both can be mined. -/
def second : Transaction where
  body :=
    { inputs := [⟨3, 7, ⟨0, 0⟩⟩]
      outputs := [⟨[⟨6, 8, 1, 0, List.replicate 80 0, 0⟩], List.replicate 672 0⟩]
      kernels := [⟨.plain, 2500, 0, 3 + (2500 <<< 128), 7, ⟨0, 0, 0⟩⟩] }
  kernelOffset := 0
  ownerOffset := 0

def twoTip : State :=
  { unspentTip 1 with utxos := (unspentTip 1).utxos.insert 3 ⟨0, 7, 0, 0, false⟩ }

/-- Two transactions are added, and a block mines the first. -/
def twoCalls : List Call :=
  [.add twiceMined twoTip true, .add second twoTip true, .onBlock (blockOf twiceMined 1) twoTip]

omit [Primitives] in
theorem index_invariant_two :
    letI := Primitives.mixing
    ∃ pool, Calls new twoCalls pool ∧ pool.entries.toList.map (·.2.tx) = [second] ∧
      pool.Confirmed ∧ pool.AllApply twoTip ∧ pool.totalWeight = second.weight := by
  let := Primitives.mixing
  have hcalls : Calls new twoCalls (((new.add twiceMined twoTip).1.add second twoTip).1.onBlock
      (blockOf twiceMined 1) twoTip).1 :=
    .cons _ _ adds_add (.cons _ _ adds_add (.cons _ _ rfl (.nil _)))
  obtain ⟨-, -, -, -, -, -, hmined, -, hconf⟩ := index_invariant twoCalls hcalls
  exact ⟨_, hcalls, by decide +kernel, hconf twoTip ⟨rfl, rfl, trivial⟩,
    hmined [.add twiceMined twoTip true, .add second twoTip true] _ _ rfl, by decide +kernel⟩

omit [Primitives] in
/-- Calls to `add` on two tips let one transaction spend what the other creates. -/
theorem index_of_two_tips :
    letI := Primitives.mixing
    ∃ (calls : List Call) (pool : Mempool), Calls new calls pool ∧ ¬ pool.Confirmed := by
  let := Primitives.mixing
  refine ⟨[.add twiceMined (unspentTip 1) true, .add recreating recreatingTip true], _,
    .cons _ _ adds_add (.cons _ _ adds_add (.nil _)), ?_⟩
  intro hconf
  have hspender : ((new.add twiceMined (unspentTip 1)).1.add recreating
      recreatingTip).1.entries[twiceMined.hash]? = some ⟨twiceMined, 2500, 25⟩ := by decide +kernel
  have hcreator : ((new.add twiceMined (unspentTip 1)).1.add recreating
      recreatingTip).1.entries[recreating.hash]? = some ⟨recreating, 2500, 25⟩ := by decide +kernel
  exact hconf _ _ hspender _ _ hcreator 1 (by decide) (by decide)

end Recreated

end Mempool

end Midwimble
