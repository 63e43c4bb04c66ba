import Midwimble.Storage.Rebuilt

namespace Midwimble
open Fallible OrderedMap SlidingWindow
set_option autoImplicit true

variable [Primitives]

/-- A replay that has written a whole chain, carrying what the chain's state holds. -/
structure Replay.Keeps (r : Replay) (chain : List Batch) (s : State) (kept : Nat) : Prop where
  holds : r.db.Holds chain kept
  scalars : r.scalars = .of s
  bonds : r.bonds = s.bonds
  window : r.window = s.signers
  floor : r.floor = s.workFloor
  capped : r.capped = s.capped

section Blocks

variable {S : Set Batch} {db : Database} {chain : List Batch} {batch : Batch} {s s' : State}
  {kept : Nat} {r : Replay}

theorem Database.Holds.start (h : db.Holds chain kept) (ha : StoredApart S)
    (hsub : ∀ c ∈ chain, c ∈ S) (hb : Built chain s) :
    ∃ r, Replay.start db (.of s) chain.length = .ok r ∧ r.Keeps chain s kept ∧
      r.db.finality = db.finality := by
  have htake : Built (chain.take chain.length) s := by rwa [List.take_length]
  obtain ⟨hsigners, hwindow, ws, hworks, hfloor⟩ := h.windows htake (Nat.le_refl _)
  have hbonds : readBonds db.ledger.bonds = s.bonds := by
    rw [(h.ledger.stands ha hb hsub).tells.bonds]
    exact readBonds_eq hb ha hsub
  have hcapped := h.cappedBefore_eq htake (Nat.le_refl _)
  refine ⟨⟨db, .of s, s.bonds, s.signers, s.workFloor, s.capped⟩, ?_,
    ⟨h, rfl, rfl, rfl, rfl, rfl⟩, rfl⟩
  simp only [Replay.start, hsigners, hworks, bind_ok, hbonds, hwindow, hfloor, hcapped]

/-- A database with one more block on top and its undo record. -/
def Database.written (db : Database) (chain : List Batch) (batch : Batch) (ledger : Ledger)
    (undo : BlockUndo) (subsidy : Nat) (s : State) : Database :=
  { db with
    ledger := ledger
    signers := db.signers.insert chain.length batch.signer
    capped := db.capped.insert chain.length s.capped
    subsidy := db.subsidy.insert chain.length subsidy
    depths := db.depths.insert chain.length s.depth
    undo := db.undo.insert chain.length undo
    batches := db.batches.insert chain.length batch
    headers := db.headers.insert chain.length (batch.headerAt chain.length) }

theorem Database.Holds.written {l' : Ledger} {u : BlockUndo} (h : db.Holds chain kept)
    (hb' : Built (chain ++ [batch]) s') (hledger : Ledger.Of (chain ++ [batch]) l')
    (hlogged : Logged (chain ++ [batch]) chain.length u) (subsidy : Nat) :
    (db.written chain batch l' u subsidy s').Holds (chain ++ [batch]) kept := by
  have hcut : ∀ {n}, n < chain.length → (chain ++ [batch]).take (n + 1) = chain.take (n + 1) :=
    fun hn => List.take_append_of_le_length hn
  constructor
  · exact hledger
  · exact h.headers.insert batch
  · exact h.signers.insert batch
  · intro k c hk
    rcases getElem?_insert_eq_some.mp hk with ⟨rfl, rfl⟩ | ⟨-, hk⟩
    · exact List.getElem?_concat_length
    · have hc := h.bodies k c hk
      rwa [List.getElem?_append_left (List.getElem?_eq_some_iff.mp hc).1]
  · intro k t' hk ht'
    rw [List.length_append, List.length_singleton] at hk
    rcases Nat.lt_or_ge k chain.length with hlt | hge
    · rw [hcut hlt] at ht'
      have hold := h.weights k t' hlt ht'
      have hne : ¬ compare chain.length k = .eq :=
        mt Std.LawfulEqCmp.eq_of_compare (Nat.ne_of_gt hlt)
      simpa only [Database.written, Std.ExtTreeMap.getElem?_insert, hne, if_false] using hold
    · obtain rfl : k = chain.length := by omega
      rw [List.take_of_length_le (by simp)] at ht'
      rw [ht'.unique hb', Database.written, Std.ExtTreeMap.getElem?_insert_self,
        Std.ExtTreeMap.getElem?_insert_self]
      exact ⟨rfl, rfl⟩
  · intro k
    have hle := h.kept_le
    rw [Database.written, Std.ExtTreeMap.mem_insert, h.undo, List.length_append,
      List.length_singleton, Std.LawfulEqOrd.compare_eq_iff_eq]
    omega
  · intro k u' hk
    rcases getElem?_insert_eq_some.mp hk with ⟨rfl, rfl⟩ | ⟨-, hk⟩
    · exact hlogged
    · have hlt := ((h.undo k).mp (mem_iff_exists.mpr ⟨u', hk⟩)).2
      exact (h.logged k u' hk).of_take (hcut hlt).symm
  · exact h.base
  · have hle := h.kept_le
    rw [List.length_append]
    omega

/-- Writing an accepted block succeeds when it claims the weight of its state, and the replay
goes on as the node does. -/
theorem Replay.Keeps.block (h : r.Keeps chain s kept) (ha : StoredApart S)
    (hsub : ∀ c ∈ chain ++ [batch], c ∈ S) (hb : Built chain s)
    (hb' : Built (chain ++ [batch]) s') :
    ∃ r', r'.Keeps (chain ++ [batch]) s' kept ∧ r'.db.finality = r.db.finality ∧
      ∀ x, r.block chain.length batch s'.effects = .ok x ↔
        batch.chainWeight = s'.weight ∧ x = r' := by
  obtain ⟨t, ht, now, pre, skip, hok⟩ := hb'.last
  obtain rfl := ht.unique hb
  have hstands := h.holds.ledger.stands ha hb fun c hc => hsub c (List.mem_append_left _ hc)
  obtain ⟨l', u, happly, hstands', hreverts, hlogs⟩ := hstands.block ha hsub hb hb'
  have hbonds := (apply_bond_effects hok).1
  obtain ⟨-, -, b, -, rfl⟩ := applyBatchInternal_eq_ok.mp hok
  have hheight := hb.height
  have hnextBonds : b.next.bonds = b.bonds := by rw [b.next_eq]
  have hcounts : t.signers.push batch.signer = b.credit.signers := by
    rw [← b.next_signers, b.next_eq]
  have hsubsidy : subsidyFor batch.signer (t.signers.push batch.signer).counts b.bonds
      chain.length batch.timestamp = b.subsidy := by
    rw [b.minted, hcounts, hheight]
  have hcapped : satAdd128 t.capped (calculateWork batch.target - (creditInWindow t.signers
      b.bonds chain.length batch.signer (capWork t.workFloor chain.length
        (calculateWork batch.target)).1 batch.timestamp).1) = b.next.capped := by
    rw [b.next_capped, b.credited_eq, hheight]
    rfl
  have hfloor : (capWork t.workFloor chain.length (calculateWork batch.target)).2 =
      b.next.workFloor := by
    rw [b.next_workFloor, hheight]
    rfl
  have hlogged : Logged (chain ++ [batch]) chain.length u := by
    refine ⟨batch, r.db.ledger, l', t, b.next, List.getElem?_concat_length, ?_, ?_, ?_, happly⟩
    · rw [List.take_left]
      exact h.holds.ledger
    · rw [List.take_left]
      exact hb
    · rw [List.take_of_length_le (by simp)]
      exact hb'
  refine ⟨⟨r.db.written chain batch l' u b.subsidy b.next, .of b.next, b.next.bonds,
      b.next.signers, b.next.workFloor, b.next.capped⟩,
    ⟨h.holds.written hb' hstands'.of hlogged _, rfl, rfl, rfl, rfl, rfl⟩, rfl, fun x => ?_⟩
  have hscalars : (StateMeta.of t).height = chain.length := hheight
  have hdepth : (StateMeta.of b.next).depth = b.next.depth := rfl
  simp only [Replay.block, h.scalars, h.bonds, h.window, h.floor, h.capped, hscalars, bind_ok,
    happly, hbonds, hnextBonds, creditInWindow_window, hsubsidy, b.advance_eq, hcapped, hfloor,
    hdepth, check_bind_eq_ok, bailIf_eq_ok, not_not, ne_eq, true_and, Except.ok.injEq,
    State.weight, b.next_signers]
  exact and_congr_right fun _ => eq_comm

end Blocks

end Midwimble
