import Midwimble.Chain.Solved
import Midwimble.Explorer.BurnTotals

namespace Midwimble
open Fallible
set_option autoImplicit true

theorem BurnIndex.Exact.timestamps {db : Database} {b : BurnIndex} (h : b.Exact db tip) :
    b.rows.map Burn.Row.timestamp = (db.storedRecords b.start tip).map BlockRecord.timestamp := by
  apply Eq.symm
  rw [← List.forall₂_eq_eq_eq, List.forall₂_map_left_iff, List.forall₂_map_right_iff]
  exact h.rows.imp fun _ _ hs => hs.timestamp.symm

namespace BurnNode

section Counts

variable [Primitives]

/-- The tracker counts exactly the chain below `tip`: its rows are the stored records, and when
they tell what every block stamped at or after the switch minted, what they withheld is what the
supply of a chain that ends there lacks of the schedule, and the bonds withheld it all. -/
structure Counts (node : BurnNode) (tip : Nat) : Prop where
  rows : node.tracker.index.Exact node.db tip
  totals : ∀ s, Built node.chain s → s.height = tip → node.tracker.index.Covers node.chain →
    let sums := Burn.sum node.tracker.index.rows node.tracker.index.start s.timestamp blockReward
    s.supply ≤ issuedBefore s.height ∧
      (sums.network 0).withheld = issuedBefore s.height - s.supply ∧
        ∀ p, sums.bondsWithheld p = (sums.network p).withheld

theorem Counts.of_exact {node : BurnNode} (hm : Mirrors node.db node.chain low base)
    (htip : tip ≤ u64Max) (h : node.tracker.index.Exact node.db tip) : node.Counts tip where
  rows := h
  totals := by
    rintro s hbuilt rfl hcovers
    have hheight : s.height < 2 ^ 64 := by
      unfold u64Max at htip
      omega
    obtain ⟨hnetwork, hbonds⟩ := h.accounts hm hbuilt hheight hcovers s.timestamp
    refine ⟨?_, ?_, hbonds⟩
    · omega
    · omega

theorem run_append (node : BurnNode) (events later : List Event) :
    node.run (events ++ later) = (node.run events).run later := by
  rw [run, List.foldl_append]
  rfl

theorem run_sync (node : BurnNode) (tip n : Nat) :
    (node.run (.sync tip :: List.replicate n .turn)).db = node.db ∧
      (node.run (.sync tip :: List.replicate n .turn)).chain = node.chain := by
  rw [run, List.foldl_cons, ← run, run_turns, step]
  split
  · exact ⟨rfl, rfl⟩
  · exact ⟨rfl, rfl⟩

/-- When every read of block records that continues the rows finds the newest row's block still
stored below what it returns, a call of `sync` with nothing committed meanwhile returns, and the
tracker then counts exactly the chain. -/
theorem counts_of_linked {node : BurnNode} {events : List Event}
    (hm : Mirrors node.db node.chain low base) (hnew : node.tracker = ⟨.default, started, .done⟩)
    (hapart : ToldApart (node.chain ++ events.flatMap Event.blocks))
    (hcalled : Along Called node events) (hlinked : Along Linked node events)
    (hdone : (node.run events).tracker.phase = .done) (htip : tip ≤ u64Max) :
    (∃ n, (node.run (events ++ .sync tip :: List.replicate n .turn)).tracker.phase = .done) ∧
      ∀ n, (node.run (events ++ .sync tip :: List.replicate n .turn)).tracker.phase = .done →
        (node.run (events ++ .sync tip :: List.replicate n .turn)).Counts tip := by
  have hstart : node.Tracks (node.chain ++ events.flatMap Event.blocks) low base :=
    .start hm hnew (List.subset_append_left _ _)
  have hafter := hstart.run hapart hcalled hlinked (List.subset_append_right _ _)
  obtain ⟨hreturns, hexact⟩ := hafter.sync hapart hdone htip
  constructor
  · obtain ⟨n, hn⟩ := hreturns
    exact ⟨n, by rw [run_append]; exact hn⟩
  · intro n hn
    rw [run_append] at hn ⊢
    obtain ⟨hdb, hchain⟩ := (node.run events).run_sync tip n
    have hmirrors := hafter.mirrors
    have hrows := hexact n hn
    rw [← hdb, ← hchain] at hmirrors
    rw [← hdb] at hrows
    exact .of_exact hmirrors htip hrows

end Counts

section Fixed

attribute [local instance] racedWords

/-- Nothing committed, nothing counted. -/
def fresh : BurnNode := ⟨.empty, [], .default, 0, .done⟩

def commitOld : Event :=
  .commit 0 [.genesis, oldBlock] [racedFirst.effects, oldState.effects] oldState

/-- One block on top of genesis, and a call of `sync` that counts it. -/
def counting : List Event := commitOld :: .sync 2 :: List.replicate 5 .turn

def extend : Event := .commit 2 [oldTop] [oldTopState.effects] oldTopState

/-- A longer chain replaces the one above genesis; a bond registers on it and signs past the early
phase. -/
def reorg : Event :=
  .commit 1 [newBlock, newMiddle, newTop]
    [newState.effects, newMiddleState.effects, newTopState.effects] newTopState

/-- The next call checks the newest row against the old chain and reads on from the new. -/
def racing : List Event := [extend, .sync 3, .turn, reorg, .turn, .turn]

theorem step_commit_chain {node : BurnNode}
    (hok : (node.db.commitChain first batches effects state).isOk = true) :
    (node.step (.commit first batches effects state)).chain =
      node.chain.take first ++ batches := by
  rw [step]
  cases hc : node.db.commitChain first batches effects state with
  | ok db => rfl
  | error e =>
    rw [hc] at hok
    cases hok

theorem step_commit_tracker (node : BurnNode) (first : Nat) (batches : List Batch)
    (effects : List BlockEffects) (state : State) :
    (node.step (.commit first batches effects state)).tracker = node.tracker := by
  rw [step]
  cases node.db.commitChain first batches effects state with
  | ok db => rfl
  | error e => rfl

/-- The node after the race and one more call. -/
def raced : BurnNode := fresh.run (counting ++ racing ++ .sync 4 :: List.replicate 3 .turn)

theorem raced_runs :
    (fresh.db.commitChain 0 [.genesis, oldBlock] [racedFirst.effects, oldState.effects]
      oldState).isOk = true ∧
    ((fresh.run counting).db.commitChain 2 [oldTop] [oldTopState.effects] oldTopState).isOk = true ∧
    (fresh.run counting).tracker.phase = .done ∧
    (fresh.run (counting ++ racing)).tracker.phase = .done ∧ raced.tracker.phase = .done ∧
    raced.tracker.index.rows.map Burn.Row.timestamp ≠
      (raced.db.storedRecords raced.tracker.index.start 4).map BlockRecord.timestamp := by
  decide +kernel

theorem counting_chain : (fresh.run counting).chain = [.genesis, oldBlock] := by
  have hcommit : (fresh.step commitOld).chain = fresh.chain.take 0 ++ [.genesis, oldBlock] :=
    step_commit_chain raced_runs.1
  rw [counting, run, List.foldl_cons, ← run]
  exact (run_sync _ 2 5).2.trans hcommit

theorem extend_chain :
    ((fresh.run counting).step extend).chain = [.genesis, oldBlock, oldTop] := by
  have hcommit : ((fresh.run counting).step extend).chain =
      (fresh.run counting).chain.take 2 ++ [oldTop] :=
    step_commit_chain raced_runs.2.1
  rw [counting_chain] at hcommit
  exact hcommit

theorem racing_chain : ((((fresh.run counting).step extend).step (.sync 3)).step .turn).chain =
    [.genesis, oldBlock, oldTop] :=
  (run_sync ((fresh.run counting).step extend) 3 1).2.trans extend_chain

theorem commitOld_called : fresh.Called commitOld := by
  show EffectsOf [] [.genesis, oldBlock] [racedFirst.effects, oldState.effects]
  apply EffectsOf.of_cons (racedFirst_chain launchEarlyBondsUntil).built rfl
  apply EffectsOf.of_cons oldState_chain.built rfl
  exact .nil

theorem extend_called : (fresh.run counting).Called extend := by
  show EffectsOf ((fresh.run counting).chain.take 2) [oldTop] [oldTopState.effects]
  rw [counting_chain]
  apply EffectsOf.of_cons oldTopState_chain.built rfl
  exact .nil

theorem reorg_called {node : BurnNode} (hchain : node.chain = [.genesis, oldBlock, oldTop]) :
    node.Called reorg := by
  show EffectsOf (node.chain.take 1) [newBlock, newMiddle, newTop]
    [newState.effects, newMiddleState.effects, newTopState.effects]
  rw [hchain]
  apply EffectsOf.of_cons newState_chain.built rfl
  apply EffectsOf.of_cons newMiddleState_chain.built rfl
  apply EffectsOf.of_cons newTopState_chain.built rfl
  exact .nil

theorem raced_apart :
    ToldApart [.genesis, oldBlock, oldTop, newBlock, newMiddle, newTop] where
  ids := by
    have hids : (([.genesis, oldBlock, oldTop, newBlock, newMiddle, newTop] : List Batch).map
        fun b => b.extension.finalHash).Nodup := by
      rw [List.map_cons, genesis_hash_raced]
      exact raced_blocks.2.2.2.2.2
    intro a ha b hb he
    exact List.inj_on_of_nodup_map hids ha hb he
  room := by
    have hbond :
        signingBonds [.genesis, oldBlock, oldTop, newBlock, newMiddle, newTop] = {0} := rfl
    rw [hbond]
    decide

theorem counting_called : Along Called fresh counting :=
  ⟨commitOld_called, trivial, trivial, trivial, trivial, trivial, trivial, trivial⟩

theorem racing_called : Along Called fresh (counting ++ racing) :=
  Along.append.mpr ⟨counting_called, extend_called, trivial, trivial, reorg_called racing_chain,
    trivial, trivial, trivial⟩

/-- A chain replaced between the check of the newest row and the read above it leaves that row in
place, for later calls to find the new chain's block on top. -/
theorem stale_row_stays :
    ¬ ∀ (node : BurnNode) (events : List Event) (low base started tip n : Nat),
    Mirrors node.db node.chain low base → node.tracker = ⟨.default, started, .done⟩ →
    ToldApart (node.chain ++ events.flatMap Event.blocks) → Along Called node events →
    (node.run events).tracker.phase = .done → tip ≤ u64Max →
    (node.run (events ++ .sync tip :: List.replicate n .turn)).tracker.phase = .done →
      (node.run (events ++ .sync tip :: List.replicate n .turn)).Counts tip := by
  intro hall
  obtain ⟨-, -, -, hidle, hdone, hstale⟩ := raced_runs
  have hcounts : raced.Counts 4 := hall fresh (counting ++ racing) 0 0 0 4 3 mirrors_empty rfl
    raced_apart racing_called hidle (by decide) hdone
  exact hstale hcounts.rows.timestamps

/-- The same commits with no call of `sync` under way. -/
def calm : List Event := counting ++ [extend, reorg]

theorem extend_tracker : ((fresh.run counting).step extend).tracker =
    (fresh.run counting).tracker := step_commit_tracker _ _ _ _ _

theorem calm_done : (fresh.run calm).tracker.phase = .done := by
  have htracker : (((fresh.run counting).step extend).step reorg).tracker =
      (fresh.run counting).tracker := (step_commit_tracker _ _ _ _ _).trans extend_tracker
  rw [calm, run_append, run, List.foldl_cons, List.foldl_cons, List.foldl_nil, htracker]
  exact raced_runs.2.2.1

theorem calm_called : Along Called fresh calm :=
  Along.append.mpr ⟨counting_called, extend_called, reorg_called extend_chain, trivial⟩

theorem calm_linked : Along Linked fresh calm := by
  have hapart : ToldApart (fresh.chain ++ calm.flatMap Event.blocks) := raced_apart
  have hstart : fresh.Tracks (fresh.chain ++ calm.flatMap Event.blocks) 0 0 :=
    .start mirrors_empty rfl (List.subset_append_left _ _)
  have hjoined : fresh.tracker.Joined fresh.db := by
    intro hp
    cases hp
  have hcounting : (fresh.run counting).tracker.phase ≠ .reading := by
    rw [raced_runs.2.2.1]
    exact fun hp => nomatch hp
  have hextend : ((fresh.run counting).step extend).tracker.phase ≠ .reading := by
    rw [extend_tracker]
    exact hcounting
  have hidle : ∀ {node : BurnNode}, node.tracker.phase ≠ .reading → ∀ first batches effects state,
      node.Spared (.commit first batches effects state) :=
    fun hne _ _ _ _ hp => absurd hp hne
  have hspared : Along Spared fresh calm := by
    apply Along.append.mpr
    constructor
    · exact ⟨hidle (by decide) _ _ _ _, trivial, trivial, trivial, trivial, trivial,
        trivial, trivial⟩
    · exact ⟨hidle hcounting _ _ _ _, hidle hextend _ _ _ _, trivial⟩
  exact linked_of_spared hapart hstart hjoined calm_called hspared
    (List.subset_append_right _ _)

/-- Replaced between two calls, the chain is counted afresh. -/
theorem counts_of_linked_calm :
    (∃ n, (fresh.run (calm ++ .sync 4 :: List.replicate n .turn)).tracker.phase = .done) ∧
      ∀ n, (fresh.run (calm ++ .sync 4 :: List.replicate n .turn)).tracker.phase = .done →
        (fresh.run (calm ++ .sync 4 :: List.replicate n .turn)).Counts 4 :=
  counts_of_linked mirrors_empty rfl raced_apart calm_called calm_linked calm_done (by decide)

end Fixed

end BurnNode

end Midwimble
