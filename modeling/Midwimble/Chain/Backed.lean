import Midwimble.Chain.Bonds
import Midwimble.Chain.Solved

namespace Midwimble
open Fallible Indexed
set_option autoImplicit true

/-- A header the block took off the relay because a branch from below it outweighed it. -/
def BlockEffects.Replaced (effects : BlockEffects) (x : RelayEntry) : Prop :=
  x ∈ effects.relayRemoved ∧ ∃ a ∈ effects.relayAdded, a.height ≤ x.height

variable [Primitives]

section Steps

variable {s : State} {batch : Batch} {ts : List Nat} {skip : Bool}

theorem BlockSteps.bond_origin (b : BlockSteps s batch ts skip) {id : Bytes32}
    (hg : b.bonds.get id = some e) :
    ((id, e) ∈ b.registered ∧
      ∃ x, b.base.relay.get e.provenHeight = some x ∧ x.hash = e.provenHash) ∨
    (s.bonds.get id = some e ∧
      ∀ fork, b.change.forkFrom = some fork → e.provenHeight ≤ fork) := by
  have hreg := b.registers
  simp only [registerBonds, bind_eq_ok, Except.ok.injEq, Prod.mk.injEq] at hreg
  obtain ⟨_, -, registered, hmap, bonds, hfold, rfl, rfl⟩ := hreg
  rcases insertBonds_get hfold hg with hm | hm
  · obtain ⟨r, -, hv⟩ := mem_of_mapM_eq_ok hmap hm
    exact .inl ⟨hm, verifyRegistration_spec hv⟩
  · right
    rcases applyRelay_eq_ok.mp b.relayed with ⟨-, hc, -, hbase⟩ | ⟨_, r, -, -, -, hbase⟩
    · rw [hbase] at hm
      refine ⟨get_pruneBonds hm, fun fork hf => ?_⟩
      rw [hc] at hf
      exact absurd hf (by simp)
    · rw [hbase] at hm
      obtain ⟨hm, hfork⟩ := get_revokeFork.mp hm
      exact ⟨get_pruneBonds hm, hfork⟩

theorem BlockSteps.relay_step (b : BlockSteps s batch ts skip) (hs : s.relay.Shape full es) :
    (b.base.relay = s.relay ∧ b.change = ⟨[], [], none⟩) ∨
      ∃ relayed, Nonempty (s.relay.Extended relayed full es b.change b.base.relay) := by
  rcases applyRelay_eq_ok.mp b.relayed with ⟨-, hc, -, hbase⟩ | ⟨relayed, r, -, hx, -, hbase⟩
  · left
    rw [hbase]
    exact ⟨rfl, hc⟩
  · right
    have hr : b.base.relay = r := by rw [hbase]
    exact ⟨relayed, hr ▸ hs.extend hx⟩

end Steps

section Extended

variable {r r' : Relay} {full es : List RelayEntry} {change : RelayChange}

theorem Relay.Extended.stays (x : r.Extended relayed full es change r') (hs : r.Shape full es)
    (hm : e ∈ full) (hfork : ∀ fork, change.forkFrom = some fork → e.height ≤ fork) :
    e ∈ x.below ++ x.stale ++ x.kept ++ x.base :: change.added := by
  have hm' := hm
  rw [x.full_eq] at hm'
  rcases List.mem_append.mp hm' with hm | hm
  · exact List.mem_append_left _ hm
  · rcases List.mem_cons.mp hm with rfl | hm
    · simp
    · have hf : change.forkFrom = some x.base.height := by
        rw [x.fork, if_neg]
        simp [List.ne_nil_of_mem hm]
      have hlt := (List.pairwise_cons.mp
        (List.pairwise_append.mp (x.rises hs).pairwise).2.1).1 e hm
      exact absurd (hfork _ hf) (by omega)

theorem Relay.Extended.replaced_above (x : r.Extended relayed full es change r')
    (hs : r.Shape full es) (hm : e ∈ change.removed)
    (ha : ∃ a ∈ change.added, a.height ≤ e.height) :
    ∃ fork, change.forkFrom = some fork ∧ fork < e.height := by
  obtain ⟨a, ha, hle⟩ := ha
  have hbase : x.base.height < a.height :=
    (List.pairwise_cons.mp (List.pairwise_append.mp x.shape.rises.pairwise).2.1).1 a ha
  rw [x.removed] at hm
  rcases List.mem_append.mp hm with hm | hm
  · refine ⟨x.base.height, ?_, by omega⟩
    rw [x.fork, if_neg]
    simp [List.ne_nil_of_mem hm]
  · have hp := (x.rises hs).pairwise
    rw [List.pairwise_append] at hp
    have hlt := hp.2.2 e (by simp [hm]) x.base List.mem_cons_self
    omega

end Extended

/-- Every bond's header is on the chain the relay is the top of. -/
def Backed (s : State) : Prop :=
  ∃ full es, s.relay.Shape full es ∧ ∀ id e, s.bonds.get id = some e →
    ∃ x ∈ full, x.height = e.provenHeight ∧ x.hash = e.provenHash

theorem backed_genesis : Backed .genesis :=
  ⟨_, _, shape_genesis, fun id e h => by
    have hn : State.genesis.bonds.get id = none := by
      simp [State.genesis, BondSet.empty, BondSet.get]
    rw [hn] at h
    exact absurd h (by simp)⟩

theorem Backed.block (h : Backed s) (b : BlockSteps s batch ts skip) : Backed b.next := by
  obtain ⟨full, es, hs, hb⟩ := h
  have hnext : b.next.relay = b.base.relay ∧ b.next.bonds = b.bonds := by
    rw [b.next_eq]
    exact ⟨rfl, rfl⟩
  rw [Backed, hnext.1, hnext.2]
  rcases b.relay_step hs with ⟨hr, hc⟩ | ⟨relayed, ⟨x⟩⟩
  · rw [hr]
    refine ⟨full, es, hs, fun id e hg => ?_⟩
    rcases b.bond_origin hg with ⟨-, y, hy, hh⟩ | ⟨hold, -⟩
    · rw [hr] at hy
      obtain ⟨hm, hk⟩ := (hs.holds _ _).mp hy
      exact ⟨y, hs.window.mem hm, hk, hh⟩
    · exact hb id e hold
  · refine ⟨_, _, x.shape, fun id e hg => ?_⟩
    rcases b.bond_origin hg with ⟨-, y, hy, hh⟩ | ⟨hold, hfork⟩
    · obtain ⟨hm, hk⟩ := (x.shape.holds _ _).mp hy
      exact ⟨y, x.shape.window.mem hm, hk, hh⟩
    · obtain ⟨y, hy, hk, hh⟩ := hb id e hold
      exact ⟨y, x.stays hs hy fun fork hf => hk ▸ hfork fork hf, hk, hh⟩

/-- A run with the state after each block, oldest first. -/
inductive Visits : List State → State → Prop where
  | genesis : Visits [] .genesis
  | block : Visits states s → Accepts s batch s' → Visits (states ++ [s']) s'

theorem Visits.backed (h : Visits states s) : Backed s := by
  induction h with
  | genesis => exact backed_genesis
  | block _ ha ih =>
    obtain ⟨ts, now, pre, skip, ha⟩ := ha
    obtain ⟨-, -, b, -, rfl⟩ := applyBatchInternal_eq_ok.mp ha
    exact ih.block b

/-- A state of the run registered the bond, against a header its relay held, and no block
since has replaced a header at that height. -/
def Standing (states : List State) (id : Bytes32) (e : BondEntry) : Prop :=
  ∃ before registered after, states = before ++ registered :: after ∧
    (id, e) ∈ registered.effects.bondsAdded ∧
    (∃ x, registered.relay.get e.provenHeight = some x ∧ x.hash = e.provenHash) ∧
    ∀ later ∈ after, ∀ x, later.effects.Replaced x → x.height ≠ e.provenHeight

theorem Visits.standing (h : Visits states s) {id : Bytes32} (hg : s.bonds.get id = some e) :
    Standing states id e := by
  induction h with
  | genesis => simp [State.genesis, BondSet.empty, BondSet.get] at hg
  | @block states s batch s' hv ha ih =>
    obtain ⟨ts, now, pre, skip, ha⟩ := ha
    obtain ⟨-, -, b, -, rfl⟩ := applyBatchInternal_eq_ok.mp ha
    have hnext : b.next.bonds = b.bonds ∧ b.next.relay = b.base.relay ∧
        b.next.effects.bondsAdded = b.registered ∧
        b.next.effects.relayAdded = b.change.added ∧
        b.next.effects.relayRemoved = b.change.removed := by
      rw [b.next_eq]
      exact ⟨rfl, rfl, rfl, rfl, rfl⟩
    obtain ⟨hbonds, hrelay, hadded, hrelayAdded, hrelayRemoved⟩ := hnext
    rw [hbonds] at hg
    rcases b.bond_origin hg with ⟨hm, hx⟩ | ⟨hold, hfork⟩
    · exact ⟨states, b.next, [], rfl, hadded ▸ hm, hrelay ▸ hx, by simp⟩
    · obtain ⟨before, reg, after, rfl, hm, hx, hlater⟩ := ih hold
      refine ⟨before, reg, after ++ [b.next], by simp, hm, hx, fun later hl x hr heq => ?_⟩
      rcases List.mem_append.mp hl with hl | hl
      · exact hlater later hl x hr heq
      · rw [List.mem_singleton.mp hl] at hr
        obtain ⟨full, es, hs, -⟩ := hv.backed
        rw [BlockEffects.Replaced, hrelayAdded, hrelayRemoved] at hr
        rcases b.relay_step hs with ⟨-, hc⟩ | ⟨relayed, ⟨y⟩⟩
        · rw [hc] at hr
          exact absurd hr.1 (by simp)
        · obtain ⟨fork, hf, hlt⟩ := y.replaced_above hs hr.1 hr.2
          have := hfork fork hf
          omega

/-- Registered bonds stay backed: where the relay still holds a header at a bond's height,
it is the bond's, and no branch has replaced the header since the bond registered. -/
theorem bonds_backed (h : Visits states s) :
    (∀ id e x, s.bonds.get id = some e → s.relay.get e.provenHeight = some x →
      x.hash = e.provenHash) ∧
    ∀ id e, s.bonds.get id = some e → Standing states id e := by
  refine ⟨fun id e x hg hx => ?_, fun id e hg => h.standing hg⟩
  obtain ⟨full, es, hs, hb⟩ := h.backed
  obtain ⟨y, hy, hk, hh⟩ := hb id e hg
  obtain ⟨hm, hxk⟩ := (hs.holds _ _).mp hx
  have hn := (follows_rises hs.follows).nodup
  have hxy : x = y := List.inj_on_of_nodup_map hn (hs.window.mem hm) hy (hxk.trans hk.symm)
  rw [hxy, hh]

omit [Primitives] in
/-- The bond a block registered over the headers it relayed, one block later. -/
theorem bonds_backed_raced :
    letI := racedPrimitives
    ∃ e x, newTopState.bonds.get 0 = some e ∧ newTopState.relay.get e.provenHeight = some x ∧
      x.hash = e.provenHash ∧
        Standing [.first, newState, newMiddleState, newTopState] 0 e := by
  let := racedPrimitives
  have hfirst : Visits [.first] .first := Visits.block .genesis ⟨_, _, _, _, genesis_accepted 0⟩
  have hnew : Accepts .first newBlock newState := by
    rw [← racedFirst_eq]
    exact ⟨_, _, _, _, raced_blocks.2.2.1.accepted⟩
  have hvisits : Visits [.first, newState, newMiddleState, newTopState] newTopState :=
    ((hfirst.block hnew).block ⟨_, _, _, _, raced_blocks.2.2.2.1.accepted⟩).block
      ⟨_, _, _, _, raced_blocks.2.2.2.2.1.accepted⟩
  obtain ⟨hheld, hstanding⟩ := bonds_backed hvisits
  have hregistered : ((newTopState.bonds.get 0).bind fun e =>
      newTopState.relay.get e.provenHeight).isSome = true := by
    decide +kernel
  obtain ⟨x, hx⟩ := Option.isSome_iff_exists.mp hregistered
  obtain ⟨e, he, hx⟩ := Option.bind_eq_some_iff.mp hx
  exact ⟨e, x, he, hx, hheld _ _ _ he hx, hstanding _ _ he⟩

end Midwimble
