import Midwimble.Chain.Accepted
import Midwimble.Relay.Shape

namespace Midwimble
open Fallible
set_option autoImplicit true

variable [Primitives]

namespace BondSet

variable {b : BondSet} {id : Bytes32}

theorem get_remove (b : BondSet) (k id : Bytes32) :
    (b.remove k).get id = if k = id then none else b.get id := by
  unfold BondSet.remove BondSet.get
  cases hk : b.entries[k]? with
  | none =>
    by_cases he : k = id
    · subst he
      simp [hk]
    · simp [he]
  | some old =>
    rw [Std.ExtTreeMap.getElem?_erase]
    simp

theorem get_removes (b : BondSet) (dropped : List (Bytes32 × BondEntry)) (id : Bytes32) :
    (dropped.foldl (fun s p => s.remove p.1) b).get id =
      if id ∈ dropped.map Prod.fst then none else b.get id := by
  induction dropped generalizing b with
  | nil => simp
  | cons p dropped ih =>
    rw [List.foldl_cons, ih, get_remove, List.map_cons]
    by_cases hd : id ∈ dropped.map Prod.fst
    · rw [if_pos hd, if_pos (List.mem_cons_of_mem _ hd)]
    · rw [if_neg hd]
      by_cases hp : p.1 = id
      · rw [if_pos hp, if_pos (hp ▸ List.mem_cons_self)]
      · rw [if_neg hp, if_neg (by simp only [List.mem_cons, not_or]; exact ⟨Ne.symm hp, hd⟩)]

theorem mem_removeWhere {drop : BondEntry → Bool} :
    (id, e) ∈ (b.removeWhere drop).1 ↔ b.get id = some e ∧ drop e := by
  simp only [BondSet.removeWhere, List.mem_filter,
    Std.ExtTreeMap.mem_toList_iff_getElem?_eq_some, BondSet.get]

theorem get_removeWhere {drop : BondEntry → Bool} :
    (b.removeWhere drop).2.get id = some e ↔ b.get id = some e ∧ drop e = false := by
  have hmem : id ∈ (b.removeWhere drop).1.map Prod.fst ↔
      ∃ x, b.get id = some x ∧ drop x := by
    constructor
    · intro h
      obtain ⟨⟨k, x⟩, hp, rfl⟩ := List.mem_map.mp h
      exact ⟨x, mem_removeWhere.mp hp⟩
    · rintro ⟨x, hx⟩
      exact List.mem_map.mpr ⟨(id, x), mem_removeWhere.mpr hx, rfl⟩
  rw [show (b.removeWhere drop).2.get id = _ from get_removes b _ id]
  rw [show ((b.entries.toList.filter fun p => drop p.2).map Prod.fst) =
    (b.removeWhere drop).1.map Prod.fst from rfl]
  split
  · rename_i h
    obtain ⟨x, hx, hd⟩ := hmem.mp h
    simp [hx]
    rintro rfl
    exact hd
  · rename_i h
    constructor
    · intro he
      refine ⟨he, ?_⟩
      by_contra hd
      exact h (hmem.mpr ⟨e, he, by simpa using hd⟩)
    · exact And.left

theorem get_insert (b : BondSet) (k id : Bytes32) (entry : BondEntry) :
    (b.insert k entry).2.get id = if k = id then some entry else b.get id := by
  simp only [BondSet.insert, BondSet.get, Std.ExtTreeMap.getElem?_insert,
    Std.LawfulEqCmp.compare_eq_iff_eq]

end BondSet

/-- The bonds a fork of the relay leaves, after those it revokes. -/
def revokeFork (bonds : BondSet) (fork : Option Nat) :
    List (Bytes32 × BondEntry) × BondSet :=
  match fork with
  | none => ([], bonds)
  | some height => bonds.revokeAbove height

theorem get_pruneBonds {id : Bytes32} (h : (pruneBonds s ts).2.bonds.get id = some e) :
    s.bonds.get id = some e := by
  have h : (s.bonds.pruneExpired (minNextTimestamp ts)).2.get id = some e := h
  rw [BondSet.pruneExpired] at h
  exact (BondSet.get_removeWhere.mp h).1

theorem pruneBonds_empty (h : s.bonds = .empty) (ts : List Nat) : pruneBonds s ts = ([], s) := by
  have hp : BondSet.empty.pruneExpired (minNextTimestamp ts) = ([], .empty) := rfl
  rw [pruneBonds, h, hp, ← h]

theorem get_revokeFork {bonds : BondSet} {id : Bytes32} :
    (revokeFork bonds fork).2.get id = some e ↔
      bonds.get id = some e ∧ ∀ height, fork = some height → e.provenHeight ≤ height := by
  cases fork with
  | none => simp [revokeFork]
  | some height =>
    rw [revokeFork, BondSet.revokeAbove, BondSet.get_removeWhere]
    simp

theorem applyRelay_eq_ok :
    applyRelay s relay timestamp = .ok (change, revoked, s') ↔
      (relay = none ∧ change = ⟨[], [], none⟩ ∧ revoked = [] ∧ s' = s) ∨
      ∃ relayed r, relay = some relayed ∧
        s.relay.extend relayed timestamp = (.ok change, r) ∧
        revoked = (revokeFork s.bonds change.forkFrom).1 ∧
        s' = { s with relay := r, bonds := (revokeFork s.bonds change.forkFrom).2 } := by
  cases relay with
  | none => simp [applyRelay, eq_comm]
  | some relayed =>
    simp only [applyRelay, bind_eq_ok, reduceCtorEq, false_and, false_or, Option.some.injEq]
    constructor
    · rintro ⟨c, hc, h⟩
      refine ⟨relayed, (s.relay.extend relayed timestamp).2, rfl, ?_⟩
      cases hf : c.forkFrom with
      | none =>
        simp only [hf, Except.ok.injEq, Prod.mk.injEq] at h
        obtain ⟨rfl, rfl, rfl⟩ := h
        exact ⟨Prod.ext hc rfl, by rw [hf]; rfl, by rw [hf]; rfl⟩
      | some fork =>
        simp only [hf, Except.ok.injEq, Prod.mk.injEq] at h
        obtain ⟨rfl, rfl, rfl⟩ := h
        exact ⟨Prod.ext hc rfl, by rw [hf]; rfl, by rw [hf]; rfl⟩
    · rintro ⟨_, r, rfl, hx, rfl, rfl⟩
      refine ⟨change, by rw [hx], ?_⟩
      rw [hx]
      cases hf : change.forkFrom <;> rfl

theorem insertBond_eq_ok :
    insertBond bonds p = .ok bonds' ↔ bonds.get p.1 = none ∧
      bonds' = (bonds.insert p.1 p.2).2 := by
  simp only [insertBond, bind_eq_ok, bailIf_eq_ok, Except.ok.injEq]
  constructor
  · rintro ⟨_, hn, rfl⟩
    exact ⟨by simpa using hn, rfl⟩
  · rintro ⟨hn, rfl⟩
    exact ⟨(), by simp [hn], rfl⟩

theorem insertBond_foldlM {registered : List (Bytes32 × BondEntry)}
    (h : registered.foldlM insertBond bonds = .ok bonds') :
    bonds' = registered.foldl (fun bonds p => (bonds.insert p.1 p.2).2) bonds := by
  induction registered generalizing bonds with
  | nil =>
    rw [List.foldlM_nil, pure_eq_ok] at h
    exact h.symm
  | cons p registered ih =>
    obtain ⟨next, hn, hrest⟩ := foldlM_cons_eq_ok.mp h
    obtain ⟨-, rfl⟩ := insertBond_eq_ok.mp hn
    exact ih hrest

theorem insertBonds_get {id : Bytes32} {registered : List (Bytes32 × BondEntry)}
    {bonds bonds' : BondSet} (h : registered.foldlM insertBond bonds = .ok bonds')
    (hg : bonds'.get id = some e) : (id, e) ∈ registered ∨ bonds.get id = some e := by
  induction registered generalizing bonds with
  | nil =>
    rw [List.foldlM_nil, pure_eq_ok] at h
    exact .inr (h ▸ hg)
  | cons p registered ih =>
    obtain ⟨mid, hp, hr⟩ := foldlM_cons_eq_ok.mp h
    obtain ⟨-, rfl⟩ := insertBond_eq_ok.mp hp
    rcases ih hr with hm | hm
    · exact .inl (List.mem_cons_of_mem _ hm)
    · rw [BondSet.get_insert] at hm
      split at hm
      · rename_i hk
        rw [Option.some.injEq] at hm
        exact .inl (by rw [← hk, ← hm]; exact List.mem_cons_self)
      · exact .inr hm

theorem verifyRegistration_spec {id : Bytes32}
    (h : verifyRegistration relay target r = .ok (id, e)) :
    ∃ x, relay.get e.provenHeight = some x ∧ x.hash = e.provenHash := by
  simp only [verifyRegistration, BondRegistration.verify, bind_eq_ok, orBail_eq_ok,
    bailIf_eq_ok, Except.ok.injEq, Prod.mk.injEq] at h
  obtain ⟨_, ⟨x, hx, bond, -, _, -, rfl⟩, -, rfl⟩ := h
  exact ⟨x, (Option.filter_eq_some_iff.mp hx).1, rfl⟩

end Midwimble
