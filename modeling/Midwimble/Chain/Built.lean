import Midwimble.Bond.Diffs
import Midwimble.Chain.Issuance
import Midwimble.ForkChoice.Weight

namespace Midwimble
open Fallible
set_option autoImplicit true

variable [Primitives]

/-- A chain of accepted blocks, each with the timestamps of all blocks below it, at any time
and with any checks skipped. -/
inductive Built : List Batch → State → Prop where
  | genesis : Built [] .genesis
  | block : Built blocks s →
      applyBatchInternal s batch (blocks.map Batch.timestamp) now preverifiedHash skipCrypto =
        .ok s' → Built (blocks ++ [batch]) s'

theorem Chain.built (h : Chain latest blocks s) : Built blocks s := by
  induction h with
  | genesis => exact .genesis
  | block _ _ ha ih => exact ih.block ha

section Unique

variable {s : State} {batch : Batch} {ts : List Nat}

theorem BlockSteps.next_unique (b : BlockSteps s batch ts skip) (c : BlockSteps s batch ts skip') :
    b.next = c.next := by
  obtain ⟨change, revoked, base, hrelay, registered, bonds, hreg, _, credit, hcredit, _, subsidy,
    hsub, _, body⟩ := b
  obtain ⟨change', revoked', base', hrelay', registered', bonds', hreg', _, credit', hcredit', _,
    subsidy', hsub', _, body'⟩ := c
  have hr := hrelay.symm.trans hrelay'
  simp only [Except.ok.injEq, Prod.mk.injEq] at hr
  obtain ⟨rfl, rfl, rfl⟩ := hr
  have hg := hreg.symm.trans hreg'
  simp only [Except.ok.injEq, Prod.mk.injEq] at hg
  obtain ⟨rfl, rfl⟩ := hg
  obtain rfl : credit = credit' := hcredit.trans hcredit'.symm
  obtain rfl : subsidy = subsidy' := hsub.trans hsub'.symm
  have hbody : body.next = body'.next := by
    have h := applyBody_eq_ok.mpr ⟨body, rfl⟩
    rw [applyBody_eq_ok.mpr ⟨body', rfl⟩] at h
    exact (Except.ok.inj h).symm
  simp only [BlockSteps.next, BlockSteps.rooted, hbody]

theorem applied_unique (h : applyBatchInternal s batch ts now pre skip = .ok t)
    (h' : applyBatchInternal s batch ts now' pre' skip' = .ok t') : t = t' := by
  obtain ⟨-, -, b, -, rfl⟩ := applyBatchInternal_eq_ok.mp h
  obtain ⟨-, -, c, -, rfl⟩ := applyBatchInternal_eq_ok.mp h'
  exact b.next_unique c

end Unique

namespace Built

theorem run (h : Built blocks s) : Run blocks s := by
  unfold Run
  induction h with
  | genesis => exact .start
  | block _ ha ih => exact ih.block ⟨_, _, _, _, ha⟩

theorem height (h : Built blocks s) : s.height = blocks.length := h.run.windowed.height

theorem last (h : Built (blocks ++ [batch]) s') : ∃ s, Built blocks s ∧
    ∃ now pre skip,
      applyBatchInternal s batch (blocks.map Batch.timestamp) now pre skip = .ok s' := by
  generalize hl : blocks ++ [batch] = l at h
  cases h with
  | genesis => simp at hl
  | block hb ha =>
    obtain ⟨rfl, he⟩ := List.append_inj' hl rfl
    obtain rfl : batch = _ := List.singleton_inj.mp he
    exact ⟨_, hb, _, _, _, ha⟩

theorem unique (h : Built blocks s) (h' : Built blocks s') : s = s' := by
  induction h generalizing s' with
  | genesis =>
    generalize hl : ([] : List Batch) = l at h'
    cases h' with
    | genesis => rfl
    | block _ _ => simp at hl
  | block hb ha ih =>
    obtain ⟨t, ht, now, pre, skip, ha'⟩ := h'.last
    obtain rfl := ih ht
    exact applied_unique ha ha'

theorem take (h : Built blocks s) (n : Nat) : ∃ t, Built (blocks.take n) t := by
  induction h with
  | genesis => exact ⟨_, by rw [List.take_nil]; exact .genesis⟩
  | @block blocks s batch now pre skip s' hb ha ih =>
    rcases Nat.lt_or_ge blocks.length n with hn | hn
    · rw [List.take_of_length_le (by simp; omega)]
      exact ⟨_, hb.block ha⟩
    · rw [List.take_append_of_le_length hn]
      exact ih

theorem at_height (h : Built blocks s) (hb : blocks[n]? = some batch) : ∃ t t',
    Built (blocks.take n) t ∧ Built (blocks.take (n + 1)) t' ∧
      blocks.take (n + 1) = blocks.take n ++ [batch] ∧ t.height = n ∧ ∃ now pre skip,
      applyBatchInternal t batch ((blocks.take n).map Batch.timestamp) now pre skip = .ok t' := by
  obtain ⟨hn, rfl⟩ := List.getElem?_eq_some_iff.mp hb
  have htake : blocks.take (n + 1) = blocks.take n ++ [blocks[n]] := by
    rw [List.take_add_one, hb]
    rfl
  obtain ⟨t', ht'⟩ := h.take (n + 1)
  have hsplit := ht'
  rw [htake] at hsplit
  obtain ⟨t, ht, ha⟩ := hsplit.last
  refine ⟨t, t', ht, ht', htake, ?_, ha⟩
  rw [ht.height, List.length_take]
  omega

theorem headerHash (h : Built (blocks ++ [batch]) s) :
    s.headerHash = batch.extension.finalHash := by
  obtain ⟨t, -, now, pre, skip, ha⟩ := h.last
  obtain ⟨-, -, b, -, rfl⟩ := applyBatchInternal_eq_ok.mp ha
  rw [b.next_eq]

end Built

/-- What the block at height `n` minted: how much the supply grew. -/
def Mints (blocks : List Batch) (n x : Nat) : Prop :=
  ∃ t t', Built (blocks.take n) t ∧ Built (blocks.take (n + 1)) t' ∧ n < blocks.length ∧
    t'.supply = t.supply + x

namespace Mints

theorem unique (h : Mints blocks n x) (h' : Mints blocks n y) : x = y := by
  obtain ⟨t, t', ht, ht', -, hx⟩ := h
  obtain ⟨u, u', hu, hu', -, hy⟩ := h'
  obtain rfl := ht.unique hu
  obtain rfl := ht'.unique hu'
  omega

theorem of_take (h : blocks.take (n + 1) = others.take (n + 1)) (hx : Mints blocks n x) :
    Mints others n x := by
  obtain ⟨t, t', ht, ht', hn, hx⟩ := hx
  have hlen : n + 1 ≤ others.length := by
    have hl := congrArg List.length h
    rw [List.length_take, List.length_take] at hl
    omega
  have hbelow : blocks.take n = others.take n := by
    have hcut := congrArg (List.take n) h
    rwa [List.take_take, List.take_take, Nat.min_eq_left (Nat.le_succ n)] at hcut
  exact ⟨t, t', hbelow ▸ ht, h ▸ ht', hlen, hx⟩

end Mints

theorem Built.mints (h : Built blocks s) (hb : blocks[n]? = some batch) :
    ∃ x, Mints blocks n x ∧ x ≤ blockReward n ∧
      (batch.signer = none ∨ batch.timestamp < launchEarlyBondsUntil → x = blockReward n) := by
  obtain ⟨t, t', ht, ht', -, hheight, now, pre, skip, ha⟩ := h.at_height hb
  obtain ⟨-, -, b, -, rfl⟩ := applyBatchInternal_eq_ok.mp ha
  have hn : n < blocks.length := (List.getElem?_eq_some_iff.mp hb).1
  refine ⟨b.subsidy, ⟨t, _, ht, ht', hn, by rw [b.next_eq]⟩, ?_, ?_⟩
  · rw [b.minted, hheight]
    exact subsidyFor_le _ _ _ _ _
  · intro huntapered
    rw [b.minted, hheight]
    unfold subsidyFor
    cases hs : batch.signer with
    | none => rfl
    | some id =>
      have hlow : ¬ batch.timestamp ≥ launchEarlyBondsUntil := by
        rcases huntapered with hu | hu
        · rw [hs] at hu
          cases hu
        · omega
      simp only [hlow, if_false]

theorem Built.sum_mints (h : Built blocks s) {f : Nat → Nat}
    (hf : ∀ n x, Mints blocks n x → f n = x) :
    ((List.range blocks.length).map f).sum = s.supply := by
  induction h with
  | genesis => rfl
  | @block blocks s batch now pre skip s' hb ha ih =>
    obtain ⟨-, -, b, -, rfl⟩ := applyBatchInternal_eq_ok.mp ha
    have hlast : Mints (blocks ++ [batch]) blocks.length b.subsidy := by
      refine ⟨s, b.next, ?_, ?_, by simp, by rw [b.next_eq]⟩
      · rw [List.take_left]
        exact hb
      · rw [List.take_of_length_le (by simp)]
        exact hb.block ha
    have hbelow : ∀ n x, Mints blocks n x → f n = x := by
      intro n x hx
      apply hf
      have hn := hx.choose_spec.choose_spec.2.2.1
      exact hx.of_take (List.take_append_of_le_length hn).symm
    rw [List.length_append, List.length_singleton, List.range_succ, List.map_append,
      List.sum_append, ih hbelow, List.map_singleton, List.sum_singleton, hf _ _ hlast, b.next_eq]

section Ids

variable {S : Set Batch} {blocks others : List Batch}

/-- Where no two blocks share an id, chains with one block at a height are the same below. -/
theorem Built.take_eq (hids : Set.InjOn (fun b : Batch => b.extension.finalHash) S)
    (h : Built blocks s) (h' : Built others s') (hS : ∀ b ∈ blocks, b ∈ S)
    (hS' : ∀ b ∈ others, b ∈ S) (hb : blocks[n]? = some a) (hb' : others[n]? = some b)
    (he : a.extension.finalHash = b.extension.finalHash) :
    blocks.take (n + 1) = others.take (n + 1) := by
  induction n generalizing a b with
  | zero =>
    obtain rfl : a = b :=
      hids (hS _ (List.mem_of_getElem? hb)) (hS' _ (List.mem_of_getElem? hb')) he
    rw [List.take_add_one, List.take_add_one, hb, hb', List.take_zero, List.take_zero]
  | succ n ih =>
    obtain rfl : a = b :=
      hids (hS _ (List.mem_of_getElem? hb)) (hS' _ (List.mem_of_getElem? hb')) he
    obtain ⟨t, _, ht, -, -, -, _, _, _, ha⟩ := h.at_height hb
    obtain ⟨u, _, hu, -, -, -, _, _, _, ha'⟩ := h'.at_height hb'
    have hn := (List.getElem?_eq_some_iff.mp hb).1
    have hn' := (List.getElem?_eq_some_iff.mp hb').1
    obtain ⟨c, hc⟩ : ∃ c, blocks[n]? = some c := ⟨_, List.getElem?_eq_getElem (by omega)⟩
    obtain ⟨d, hd⟩ : ∃ d, others[n]? = some d := ⟨_, List.getElem?_eq_getElem (by omega)⟩
    have hsplit : blocks.take (n + 1) = blocks.take n ++ [c] := by
      rw [List.take_add_one, hc]
      rfl
    have hsplit' : others.take (n + 1) = others.take n ++ [d] := by
      rw [List.take_add_one, hd]
      rfl
    rw [hsplit] at ht
    rw [hsplit'] at hu
    have hprev := (checkLinkage_eq_ok.mp (applyBatchInternal_eq_ok.mp ha).1).2.1
    have hprev' := (checkLinkage_eq_ok.mp (applyBatchInternal_eq_ok.mp ha').1).2.1
    have hbelow : c.extension.finalHash = d.extension.finalHash := by
      rw [← ht.headerHash, ← hu.headerHash, ← hprev, ← hprev']
    have hcut : blocks.take (n + 1) = others.take (n + 1) := ih hc hd hbelow
    have hcut' : others.take (n + 1 + 1) = others.take (n + 1) ++ [a] := by
      rw [List.take_add_one, hb']
      rfl
    rw [hcut', List.take_add_one, hb, hcut]
    rfl

end Ids

end Midwimble
