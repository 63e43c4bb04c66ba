import Midwimble.Storage.Replays

namespace Midwimble
open Fallible OrderedMap SlidingWindow
set_option autoImplicit true

variable [Primitives]

/-- The total work of some blocks stays below the 128-bit limit. -/
def WorkFits (blocks : List Batch) : Prop := (blocks.map Batch.work).sum < 2 ^ 128

omit [Primitives] in
theorem WorkFits.of_append (h : WorkFits (blocks ++ more)) : WorkFits blocks := by
  unfold WorkFits at *
  rw [List.map_append, List.sum_append] at h
  omega

section Runs

variable {S : Set Batch} {db db' : Database} {chain batches : List Batch} {s s' : State}
  {effects : List BlockEffects} {kept : Nat} {r : Replay}

/-- Writing accepted blocks leaves the tables of the longer chain, and no block is refused while
no weight saturates. -/
theorem Replay.Keeps.run (h : r.Keeps chain s kept) (ha : StoredApart S)
    (hsub : ∀ c ∈ chain ++ batches, c ∈ S) (hb : Built chain s)
    (hb' : Built (chain ++ batches) s') (heffects : EffectsOf chain batches effects) :
    ∃ r', r'.Keeps (chain ++ batches) s' kept ∧ r'.db.finality = r.db.finality ∧
      (∀ x, r.run chain.length (batches.zip effects) = .ok x → x = r') ∧
      (WorkFits (chain ++ batches) → r.run chain.length (batches.zip effects) = .ok r') := by
  induction batches generalizing r chain s effects with
  | nil =>
    rw [List.append_nil] at hb' ⊢
    obtain rfl := hb.unique hb'
    refine ⟨r, h, rfl, ?_, fun _ => rfl⟩
    intro x hx
    exact (Except.ok.inj hx).symm
  | cons batch batches ih =>
    cases effects with
    | nil => exact absurd heffects.1 (by simp)
    | cons e effects =>
      obtain ⟨⟨t, ht, rfl⟩, hrest⟩ := heffects.cons
      rw [List.append_cons] at hsub hb' ⊢
      obtain ⟨mid, hmid, hfinality, hone⟩ := h.block ha
        (fun c hc => hsub c (List.mem_append_left _ hc)) hb ht
      obtain ⟨r', hr', hfinality', honly, hruns⟩ := ih hmid hsub ht hb' hrest
      have hlen : (chain ++ [batch]).length = chain.length + 1 := by simp
      rw [hlen] at honly hruns
      refine ⟨r', hr', hfinality'.trans hfinality, ?_, ?_⟩
      · intro x hx
        simp only [List.zip_cons_cons, Replay.run, bind_eq_ok] at hx
        obtain ⟨y, hy, hx⟩ := hx
        obtain ⟨-, rfl⟩ := (hone y).mp hy
        exact honly x hx
      · intro hfits
        have htip := (ht.run.weighed hfits.of_append).tip batch (by simp)
        rw [List.zip_cons_cons, Replay.run, (hone mid).mpr ⟨htip.symm, rfl⟩, bind_ok]
        exact hruns hfits

theorem Replay.Keeps.check (h : r.Keeps chain s kept) (ha : StoredApart S)
    (hsub : ∀ c ∈ chain, c ∈ S) (hb : Built chain s) : r.check s = .ok () := by
  have hstands := h.holds.ledger.stands ha hb hsub
  obtain ⟨full, es, hshape, -⟩ := hstands.relayed
  have hvalues : s.relay.entries.toList.map Prod.snd = es := hshape.values
  have htip : (s.relay.entries.toList.getLast?.map Prod.snd) = some s.relay.tip := by
    rw [← List.getLast?_map, hvalues, Relay.tip, hshape.values,
      List.getLast?_eq_some_getLast hshape.nonempty]
    rfl
  simp only [Replay.check, h.scalars, h.capped, h.bonds, hstands.tells.bonds,
    hstands.tells.relay, htip, bind_eq_ok, bailIf_eq_ok, not_true_eq_false, not_false_eq_true,
    ne_eq, or_self, exists_const, and_self]

theorem Database.rootRelay_of_relayed (h : Relayed s) (hr : db.ledger.relay = s.relay.entries) :
    db.rootRelay = db := by
  obtain ⟨full, es, hshape, -⟩ := h
  have hvalues : s.relay.entries.toList.map Prod.snd = es := hshape.values
  have hsome : db.ledger.relay.isEmpty = false := by
    rw [hr, Bool.eq_false_iff]
    intro hempty
    rw [Std.ExtTreeMap.isEmpty_iff] at hempty
    rw [hempty] at hvalues
    exact hshape.nonempty hvalues.symm
  rw [rootRelay, hsome]
  rfl

end Runs

/-- A database with the tables and the scalars of a chain, or a new one. -/
structure Database.Keeps (db : Database) (chain : List Batch) (s : State) (kept : Nat) : Prop where
  built : Built chain s
  holds : db.rootRelay.Holds chain kept
  scalars : db.stateMeta = none ∧ chain = [] ∨ db.stateMeta = some (.of s) ∧ db.rootRelay = db

/-- Where the undo records start after a commit. -/
def keptAfter (db : Database) (kept height : Nat) : Nat :=
  max kept (min (height - undoKeep) (db.finality.getD .default).retainFrom)

namespace Database

variable {S : Set Batch} {db db' : Database} {chain batches : List Batch} {s s' : State}
  {effects : List BlockEffects} {kept : Nat}

theorem rootRelay_stateMeta (db : Database) : db.rootRelay.stateMeta = db.stateMeta := by
  unfold rootRelay
  split <;> rfl

theorem rootRelay_base (db : Database) : db.rootRelay.base = db.base := by
  unfold rootRelay
  split <;> rfl

theorem keeps_empty : Database.empty.Keeps [] .genesis 0 where
  built := .genesis
  holds := by
    constructor
    · exact .root
    · exact rows_empty _
    · exact rows_empty _
    · intro h b hb
      simp [empty, rootRelay] at hb
    · exact fun h t hlt => absurd hlt (Nat.not_lt_zero h)
    · intro h
      simp [empty, rootRelay]
    · intro h u hu
      simp [empty, rootRelay] at hu
    · rfl
    · exact Nat.le_refl 0
  scalars := .inl ⟨rfl, rfl⟩

omit [Primitives] in
theorem undo_of_revertBlocks {db : Database}
    (hok : Database.revertBlocks first n (m, db) = .ok x) :
    ∀ k, first ≤ k → k < first + n → k ∈ db.undo := by
  induction n generalizing db m with
  | zero => exact fun k hle hlt => absurd hlt (Nat.not_lt.mpr hle)
  | succ n ih =>
    simp only [Database.revertBlocks, bind_eq_ok, Prod.exists] at hok
    obtain ⟨m₁, db₁, hone, hrest⟩ := hok
    simp only [Database.revertBlock, bind_eq_ok, orBail_eq_ok, Except.ok.injEq,
      Prod.mk.injEq] at hone
    obtain ⟨u, hu, -, rfl⟩ := hone
    intro k hle hlt
    by_cases hk : k = first + n
    · rw [hk]
      exact mem_iff_exists.mpr ⟨u, hu⟩
    · exact (Std.ExtTreeMap.mem_erase.mp (ih hrest k hle (by omega))).2

theorem Holds.kept_le_first (h : db.Holds chain kept) (hlen : chain.length = first + n)
    (hok : Database.revertBlocks first n (m, db) = .ok x) : kept ≤ first := by
  rcases Nat.eq_zero_or_pos n with rfl | hpos
  · exact Nat.le_trans h.kept_le (by omega)
  · exact ((h.undo first).mp (undo_of_revertBlocks hok first (Nat.le_refl _) (by omega))).1

theorem Holds.pruneUndo (h : db.Holds chain kept) (hle : keepFrom ≤ chain.length) (m : StateMeta) :
    ({ db with stateMeta := some m }.pruneUndo keepFrom).Holds chain (max kept keepFrom) where
  ledger := h.ledger
  headers := h.headers
  signers := h.signers
  bodies := h.bodies
  weights := h.weights
  undo k := by
    rw [mem_iff_exists]
    simp only [Database.pruneUndo, getElem?_filter_eq_some, decide_eq_true_eq]
    rw [exists_and_right, ← mem_iff_exists, h.undo]
    omega
  logged k u hk := h.logged k u (getElem?_filter_eq_some.mp hk).1
  base := h.base
  kept_le := max_le h.kept_le hle

/-- `commit_chain` with accepted blocks, their effects and their state leaves the tables of the new
chain. -/
theorem Keeps.commit (h : db.Keeps chain s kept) (first : Nat) (ha : StoredApart S)
    (hsub : ∀ c ∈ chain, c ∈ S) (hnew : ∀ c ∈ batches, c ∈ S)
    (hb' : Built (chain.take first ++ batches) s')
    (heffects : EffectsOf (chain.take first) batches effects) :
    (∀ db', db.commitChain first batches effects s' = .ok db' → kept ≤ first ∧
      first ≤ chain.length ∧
        db'.Keeps (chain.take first ++ batches) s' (keptAfter db kept s'.height)) ∧
      ((db.finality.getD .default).floor ≤ first → kept ≤ first → first ≤ chain.length →
        WorkFits (chain.take first ++ batches) →
          ∃ db', db.commitChain first batches effects s' = .ok db') := by
  have hmeta : (db.rootRelay.stateMeta.map StateMeta.height).getD 0 = chain.length ∧
      db.rootRelay.stateMeta.getD (.of .genesis) = .of s := by
    rw [rootRelay_stateMeta]
    rcases h.scalars with ⟨hnone, rfl⟩ | ⟨hsome, -⟩
    · rw [hnone, h.built.unique .genesis]
      exact ⟨rfl, rfl⟩
    · rw [hsome, ← h.built.height]
      exact ⟨rfl, rfl⟩
  have hbase : db.base = none := by
    rw [← rootRelay_base]
    exact h.holds.base
  have hrewind : first ≤ chain.length → kept ≤ first → ∃ mid start done t,
      Database.revertBlocks first (chain.length - first) (.of s, db.rootRelay) =
        .ok (.of t, mid) ∧ Replay.start mid (.of t) first = .ok start ∧
      (∀ x, start.run first (batches.zip effects) = .ok x → x = done) ∧
      (WorkFits (chain.take first ++ batches) →
        start.run first (batches.zip effects) = .ok done) ∧
      done.Keeps (chain.take first ++ batches) s' kept := by
    intro hle hkept
    have htake : (chain.take first).length = first := by
      rw [List.length_take]
      omega
    obtain ⟨t, ht⟩ := h.built.take first
    obtain ⟨mid, hrevert, hmid, -⟩ :=
      h.holds.revertBlocks (n := chain.length - first) ha hsub h.built (by omega)
      (.inr hkept) ht
    have hbelow : ∀ c ∈ chain.take first, c ∈ S := fun c hc => hsub c (List.mem_of_mem_take hc)
    obtain ⟨start, hstart, hkeeps, -⟩ := hmid.start ha hbelow ht
    obtain ⟨done, hdone, -, honly, hruns⟩ := hkeeps.run ha
      (fun c hc => (List.mem_append.mp hc).elim (hbelow c) (hnew c)) ht hb' heffects
    rw [htake] at hstart honly hruns
    exact ⟨mid, start, done, t, hrevert, hstart, honly, hruns, hdone⟩
  have hall : ∀ c ∈ chain.take first ++ batches, c ∈ S := fun c hc =>
    (List.mem_append.mp hc).elim (fun hc => hsub c (List.mem_of_mem_take hc)) (hnew c)
  have hheight := hb'.height
  rw [List.length_append, List.length_take] at hheight
  constructor
  · intro db' hok
    simp only [commitChain, bind_eq_ok, bailIf_eq_ok, Prod.exists, not_not, not_lt, ne_eq, hmeta.1,
      hmeta.2, Except.ok.injEq] at hok
    obtain ⟨_, -, _, -, _, -, _, -, _, hle, m, reverted, hrevert, start, hstart, done, hrun, _,
      -, rfl⟩ := hok
    have hkept : kept ≤ first := h.holds.kept_le_first (by omega) hrevert
    obtain ⟨mid, start', done', t, hrevert', hstart', honly, -, hdone⟩ := hrewind hle hkept
    rw [hrevert, Except.ok.injEq, Prod.mk.injEq] at hrevert'
    obtain ⟨rfl, rfl⟩ := hrevert'
    rw [hstart, Except.ok.injEq] at hstart'
    obtain rfl := hstart'
    obtain rfl := honly _ hrun
    have hstands := hdone.holds.ledger.stands ha hb' hall
    have hfinality : min (s'.height - undoKeep) (db.finality.getD .default).retainFrom ≤
        (chain.take first ++ batches).length := by
      rw [← hb'.height]
      omega
    have hpruned := hdone.holds.pruneUndo hfinality done.scalars
    refine ⟨hkept, hle, hb', ?_, .inr ⟨congrArg some hdone.scalars, ?_⟩⟩
    · rw [Database.rootRelay_of_relayed hstands.relayed (by exact hstands.tells.relay)]
      exact hpruned
    · exact Database.rootRelay_of_relayed hstands.relayed (by exact hstands.tells.relay)
  · intro hfloor hkept hle hfits
    obtain ⟨mid, start, done, t, hrevert, hstart, -, hruns, hdone⟩ := hrewind hle hkept
    have hcheck := hdone.check ha hall hb'
    refine ⟨{ done.db with stateMeta := some done.scalars }.pruneUndo
      (min (s'.height - undoKeep) (db.finality.getD .default).retainFrom), ?_⟩
    simp only [commitChain, bind_eq_ok, bailIf_eq_ok, Prod.exists, hmeta.1, hmeta.2,
      Except.ok.injEq]
    exact ⟨(), by omega, (), not_not_intro heffects.1, (), by omega, (),
      by rw [hbase]; exact Bool.false_ne_true, (), by omega, .of t, mid, hrevert, start, hstart,
      done, hruns hfits, (), hcheck, rfl⟩

end Database

end Midwimble
