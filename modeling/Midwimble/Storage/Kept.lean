import Midwimble.Core.Reads
import Midwimble.Lib.Rows
import Midwimble.Storage.LedgerRuns

namespace Midwimble
open Fallible OrderedMap SlidingWindow
set_option autoImplicit true

variable [Primitives]

/-- The undo record that writing a chain's block at some height left. -/
def Logged (chain : List Batch) (h : Nat) (u : BlockUndo) : Prop :=
  ∃ batch l l' s s', chain[h]? = some batch ∧ Ledger.Of (chain.take h) l ∧
    Built (chain.take h) s ∧ Built (chain.take (h + 1)) s' ∧
      l.applyBlock h (.of s) batch s'.effects = .ok (l', u)

theorem Logged.of_take (h : Logged chain n u) (he : chain.take (n + 1) = other.take (n + 1)) :
    Logged other n u := by
  obtain ⟨batch, l, l', s, s', hb, hl, hs, hs', happly⟩ := h
  have hbelow : chain.take n = other.take n := by
    have hcut := congrArg (List.take n) he
    rwa [List.take_take, List.take_take, Nat.min_eq_left (Nat.le_succ n)] at hcut
  have hat : other[n]? = some batch := by
    rw [← hb, ← List.getElem?_take_of_lt (Nat.lt_succ_self n), ← he,
      List.getElem?_take_of_lt (Nat.lt_succ_self n)]
  rw [hbelow] at hl hs
  rw [he] at hs'
  exact ⟨batch, l, l', s, s', hat, hl, hs, hs', happly⟩

/-- The tables of a database that holds a whole chain, with undo records from `kept` on. -/
structure Database.Holds (db : Database) (chain : List Batch) (kept : Nat) : Prop where
  ledger : Ledger.Of chain db.ledger
  headers : Rows db.headers chain fun h b => b.headerAt h
  signers : Rows db.signers chain fun _ b => b.signer
  bodies : ∀ (h : Nat) b, db.batches[h]? = some b → chain[h]? = some b
  weights : ∀ (h : Nat) t, h < chain.length → Built (chain.take (h + 1)) t →
    db.capped[h]? = some t.capped ∧ db.depths[h]? = some t.depth
  undo : ∀ h : Nat, h ∈ db.undo ↔ kept ≤ h ∧ h < chain.length
  logged : ∀ (h : Nat) u, db.undo[h]? = some u → Logged chain h u
  base : db.base = none
  kept_le : kept ≤ chain.length

section Blocks

variable {S : Set Batch} {db db' : Database} {chain : List Batch} {batch : Batch} {s s' : State}
  {kept : Nat} {l : Ledger}

theorem Logged.tip {u : BlockUndo} (h : Logged (chain ++ [batch]) chain.length u)
    (ha : StoredApart S) (hsub : ∀ c ∈ chain ++ [batch], c ∈ S) (hb : Built chain s)
    (hb' : Built (chain ++ [batch]) s') (hl : Ledger.Of (chain ++ [batch]) l) :
    Ledger.Of chain (l.revertBlock u) ∧ u.prev = .of s ∧ u.Logs s batch s' := by
  obtain ⟨c, below, after, t, t', hc, hbelow, ht, ht', happly⟩ := h
  rw [List.getElem?_concat_length] at hc
  obtain rfl := Option.some.inj hc
  rw [List.take_left] at hbelow ht
  rw [List.take_of_length_le (by simp)] at ht'
  obtain rfl := ht.unique hb
  obtain rfl := ht'.unique hb'
  have hstands := hbelow.stands ha hb fun c hc => hsub c (List.mem_append_left _ hc)
  obtain ⟨l', u', happly', hstands', hreverts, hlogs⟩ := hstands.block ha hsub hb hb'
  rw [happly, Except.ok.injEq, Prod.mk.injEq] at happly'
  obtain ⟨rfl, rfl⟩ := happly'
  obtain rfl := hl.unique hstands'.of
  rw [hreverts.ledger]
  exact ⟨hbelow, hreverts.prev, hlogs⟩

namespace Database

/-- The block below the tip goes back with its record. -/
theorem Holds.revertBlock (h : db.Holds (chain ++ [batch]) kept) (ha : StoredApart S)
    (hsub : ∀ c ∈ chain ++ [batch], c ∈ S) (hb : Built chain s)
    (hb' : Built (chain ++ [batch]) s') (hkept : kept ≤ chain.length) :
    ∃ db', db.revertBlock chain.length = .ok (.of s, db') ∧ db'.Holds chain kept ∧
      db'.finality = db.finality := by
  have hmem : chain.length ∈ db.undo := (h.undo _).mpr ⟨hkept, by simp⟩
  obtain ⟨u, hu⟩ := mem_iff_exists.mp hmem
  obtain ⟨hof, hprev, -⟩ := (h.logged _ u hu).tip ha hsub hb hb' h.ledger
  have hcut : ∀ {n}, n < chain.length → (chain ++ [batch]).take (n + 1) = chain.take (n + 1) :=
    fun hn => List.take_append_of_le_length hn
  have hstays : ∀ {α : Type} {t : Std.ExtTreeMap Nat α} {k : Nat}, k < chain.length →
      (t.erase chain.length)[k]? = t[k]? := by
    intro α t k hk
    rw [Std.ExtTreeMap.getElem?_erase, if_neg]
    exact mt Std.LawfulEqCmp.eq_of_compare (Nat.ne_of_gt hk)
  refine ⟨_, by rw [Database.revertBlock, hu, orBail_some, bind_ok, hprev], ?_, ?_⟩
  swap
  · rfl
  constructor
  · exact hof
  · exact h.headers.erase
  · exact h.signers.erase
  · intro k b hk
    obtain ⟨hne, hk⟩ := getElem?_erase_eq_some.mp hk
    have hb := h.bodies k b hk
    have hlt := (List.getElem?_eq_some_iff.mp hb).1
    rw [List.length_append, List.length_singleton] at hlt
    rwa [List.getElem?_append_left (by omega)] at hb
  · intro k t hk ht
    rw [hstays hk, hstays hk]
    rw [← hcut hk] at ht
    exact h.weights k t (by simp; omega) ht
  · intro k
    rw [Std.ExtTreeMap.mem_erase, h.undo, List.length_append, List.length_singleton, ne_eq,
      Std.LawfulEqOrd.compare_eq_iff_eq]
    omega
  · intro k u' hk
    have hlt := (h.undo k).mp (Std.ExtTreeMap.mem_erase.mp (mem_iff_exists.mpr ⟨u', hk⟩)).2
    obtain ⟨hne, hk⟩ := getElem?_erase_eq_some.mp hk
    rw [List.length_append, List.length_singleton] at hlt
    exact (h.logged k u' hk).of_take (hcut (by omega))
  · exact h.base
  · exact hkept

theorem Holds.revertBlocks (h : db.Holds chain kept) (ha : StoredApart S)
    (hsub : ∀ c ∈ chain, c ∈ S) (hb : Built chain s) (hlen : chain.length = first + n)
    (hkept : n = 0 ∨ kept ≤ first) (ht : Built (chain.take first) t) :
    ∃ db', Database.revertBlocks first n (.of s, db) = .ok (.of t, db') ∧
      db'.Holds (chain.take first) kept ∧ db'.finality = db.finality := by
  induction n generalizing db chain s with
  | zero =>
    rw [List.take_of_length_le (by omega)] at ht ⊢
    obtain rfl := ht.unique hb
    exact ⟨db, rfl, h, rfl⟩
  | succ n ih =>
    obtain ⟨below, batch, rfl⟩ : ∃ below batch, chain = below ++ [batch] := by
      rcases List.eq_nil_or_concat chain with rfl | ⟨below, batch, rfl⟩
      · simp at hlen
      · exact ⟨below, batch, List.concat_eq_append⟩
    have hbelow : below.length = first + n := by
      rw [List.length_append, List.length_singleton] at hlen
      omega
    have hfirst : kept ≤ first := hkept.resolve_left (Nat.succ_ne_zero n)
    obtain ⟨s₁, hs₁, -⟩ := hb.last
    obtain ⟨db₁, hone, hholds, hfinality⟩ := h.revertBlock ha hsub hs₁ hb (by omega)
    rw [List.take_append_of_le_length (by omega)] at ht ⊢
    obtain ⟨db', hrest, hholds', hfinality'⟩ :=
      ih hholds (fun c hc => hsub c (List.mem_append_left _ hc)) hs₁ hbelow (.inr hfirst) ht
    refine ⟨db', ?_, hholds', hfinality'.trans hfinality⟩
    rw [Database.revertBlocks, ← hbelow, hone, bind_ok]
    exact hrest

end Database

end Blocks

end Midwimble
