import Midwimble.Core.Wallet
import Midwimble.Lib.Fallible

namespace Midwimble
open Fallible
set_option autoImplicit true

/-- A block at or below `k` settled the payment. -/
def Sent.SettledBy (k : Nat) (s : Sent) : Prop :=
  ∃ t ≤ k, s.height = some t ∨ s.failedAt = some t

namespace Wallet

/-- A payment still waiting for a block that spends the coin. -/
def Waits (sent : List Sent) (c : WalletCoin) (s : Sent) : Prop :=
  s ∈ sent ∧ s.isPending = true ∧ c.commitment ∈ s.inputs

/-- Coins and payments that agree on what is reserved. -/
structure Booked (coins : List WalletCoin) (sent : List Sent) : Prop where
  distinct : (coins.map WalletCoin.commitment).Nodup
  reserved : ∀ c ∈ coins, c.spentHeight = none → ∀ s, Waits sent c s → c.pendingTx.isSome
  waiting : ∀ c ∈ coins, c.spentHeight = none → ∀ h, c.pendingTx = some h →
    ∃ s, Waits sent c s ∧ s.txHash = h
  released : ∀ c ∈ coins, c.spentHeight ≠ none → c.pendingTx = none
  settled : ∀ c ∈ coins, ∀ k, c.spentHeight = some k → ∀ s ∈ sent, c.commitment ∈ s.inputs →
    s.cancelled = true ∨ s.SettledBy k

section Payments

variable {s : Sent} {height k : Nat} {spent : List Point32} {kernels : List Bytes32}

theorem isPending_iff : s.isPending = true ↔
    s.height = none ∧ s.failedAt = none ∧ s.cancelled = false := by
  simp [Sent.isPending, and_assoc]

theorem not_pending_of_settledBy (h : s.SettledBy k) : s.isPending = false := by
  obtain ⟨t, -, ht | ht⟩ := h <;> simp [Sent.isPending, ht]

@[simp] theorem settle_inputs : (settle height spent kernels s).inputs = s.inputs := by
  unfold settle
  split <;> (try split) <;> (try split) <;> rfl

@[simp] theorem settle_txHash : (settle height spent kernels s).txHash = s.txHash := by
  unfold settle
  split <;> (try split) <;> (try split) <;> rfl

@[simp] theorem settle_cancelled : (settle height spent kernels s).cancelled = s.cancelled := by
  unfold settle
  split <;> (try split) <;> (try split) <;> rfl

theorem settle_of_settled (h : s.height.isSome ∨ s.failedAt.isSome) :
    settle height spent kernels s = s := by
  rw [settle, if_pos (by simpa using h)]

theorem settle_pending (h : (settle height spent kernels s).isPending = true) :
    settle height spent kernels s = s ∧ s.kernel ∉ kernels ∧ ∀ c ∈ s.inputs, c ∉ spent := by
  unfold settle at h ⊢
  split at h
  · rename_i hsettled
    obtain ⟨hheight, hfailed, -⟩ := isPending_iff.mp h
    simp [hheight, hfailed] at hsettled
  · rename_i hunsettled
    rw [if_neg hunsettled]
    split at h
    · cases (isPending_iff.mp h).1
    · rename_i hkernel
      rw [if_neg hkernel]
      split at h
      · cases (isPending_iff.mp h).2.1
      · rename_i hinputs
        rw [if_neg hinputs]
        refine ⟨rfl, hkernel, ?_⟩
        simpa using hinputs

theorem settle_eq_self (hkernel : s.kernel ∉ kernels) (hinputs : ∀ c ∈ s.inputs, c ∉ spent) :
    settle height spent kernels s = s := by
  have hany : ¬ (s.inputs.any fun c => decide (c ∈ spent)) = true := by simpa using hinputs
  unfold settle
  rw [if_neg hkernel, if_neg hany, ite_self]

theorem settledBy_settle {c : Point32} (hc : c ∈ s.inputs) (hspent : c ∈ spent)
    (hbefore : ∀ t, s.height = some t ∨ s.failedAt = some t → t ≤ height) :
    (settle height spent kernels s).SettledBy height := by
  by_cases hsettled : s.height.isSome ∨ s.failedAt.isSome
  · rw [settle_of_settled hsettled]
    rcases hsettled with h | h
    · obtain ⟨t, ht⟩ := Option.isSome_iff_exists.mp h
      exact ⟨t, hbefore t (.inl ht), .inl ht⟩
    · obtain ⟨t, ht⟩ := Option.isSome_iff_exists.mp h
      exact ⟨t, hbefore t (.inr ht), .inr ht⟩
  · unfold settle
    rw [if_neg (by simpa using hsettled)]
    split
    · exact ⟨height, Nat.le_refl _, .inl rfl⟩
    · rw [if_pos (by simpa using ⟨c, hc, hspent⟩)]
      exact ⟨height, Nat.le_refl _, .inr rfl⟩

theorem settledBy_settle_of (h : s.SettledBy k) : (settle height spent kernels s).SettledBy k := by
  have hkept : settle height spent kernels s = s := by
    apply settle_of_settled
    obtain ⟨t, -, ht | ht⟩ := h
    · exact .inl (by rw [ht]; rfl)
    · exact .inr (by rw [ht]; rfl)
  rw [hkept]
  exact h

end Payments

section Coins

variable {c : WalletCoin} {height : Nat} {spent : List Point32}

@[simp] theorem markSpent_commitment : (markSpent height spent c).commitment = c.commitment := by
  unfold markSpent
  split <;> rfl

theorem map_commitment {f : WalletCoin → WalletCoin} {coins : List WalletCoin}
    (hf : ∀ c, (f c).commitment = c.commitment) :
    (coins.map f).map WalletCoin.commitment = coins.map WalletCoin.commitment := by
  rw [List.map_map]
  exact List.map_congr_left fun c _ => hf c

theorem markSpent_cases (height : Nat) (spent : List Point32) (c : WalletCoin) :
    (c.spentHeight = none ∧ c.commitment ∈ spent ∧
      markSpent height spent c = { c with spentHeight := some height, pendingTx := none }) ∨
    ((c.spentHeight = none → c.commitment ∉ spent) ∧ markSpent height spent c = c) := by
  unfold markSpent
  split
  · rename_i h
    obtain ⟨hnone, hmem⟩ := Bool.and_eq_true_iff.mp h
    exact .inl ⟨Option.isNone_iff_eq_none.mp hnone, of_decide_eq_true hmem, rfl⟩
  · rename_i h
    exact .inr ⟨by simpa using h, rfl⟩

end Coins

section Steps

variable {coins : List WalletCoin} {sent : List Sent} {height : Nat} {spent : List Point32}
  {kernels : List Bytes32}

/-- The block settles no waiting payment that a coin it does not spend is reserved for. -/
def SpendsWhole (coins : List WalletCoin) (sent : List Sent) (spent : List Point32)
    (kernels : List Bytes32) : Prop :=
  ∀ c ∈ coins, c.spentHeight = none → c.commitment ∉ spent → ∀ s, Waits sent c s →
    c.pendingTx = some s.txHash → s.kernel ∉ kernels ∧ ∀ i ∈ s.inputs, i ∉ spent

theorem Booked.settle (h : Booked coins sent) (hwhole : SpendsWhole coins sent spent kernels)
    (hbefore : ∀ s ∈ sent, ∀ t, s.height = some t ∨ s.failedAt = some t → t ≤ height) :
    Booked (coins.map (markSpent height spent)) (sent.map (settle height spent kernels)) where
  distinct := by
    rw [map_commitment fun _ => markSpent_commitment]
    exact h.distinct
  reserved := by
    intro c' hc' hunspent s' ⟨hs', hpending, hinput⟩
    obtain ⟨c, hc, rfl⟩ := List.mem_map.mp hc'
    obtain ⟨s, hs, rfl⟩ := List.mem_map.mp hs'
    rcases markSpent_cases height spent c with ⟨-, -, heq⟩ | ⟨-, heq⟩
    · rw [heq] at hunspent
      cases hunspent
    · obtain ⟨hkept, -⟩ := settle_pending hpending
      rw [heq] at hunspent hinput ⊢
      rw [hkept] at hpending hinput
      exact h.reserved c hc hunspent s ⟨hs, hpending, hinput⟩
  waiting := by
    intro c' hc' hunspent hash hhash
    obtain ⟨c, hc, rfl⟩ := List.mem_map.mp hc'
    rcases markSpent_cases height spent c with ⟨-, -, heq⟩ | ⟨houtside, heq⟩
    · rw [heq] at hunspent
      cases hunspent
    · rw [heq] at hunspent hhash ⊢
      obtain ⟨s, hwaits, rfl⟩ := h.waiting c hc hunspent hash hhash
      obtain ⟨hkernel, hinputs⟩ := hwhole c hc hunspent (houtside hunspent) s hwaits hhash
      refine ⟨s, ⟨List.mem_map.mpr ⟨s, hwaits.1, settle_eq_self hkernel hinputs⟩, hwaits.2⟩, rfl⟩
  released := by
    intro c' hc' hspent
    obtain ⟨c, hc, rfl⟩ := List.mem_map.mp hc'
    rcases markSpent_cases height spent c with ⟨-, -, heq⟩ | ⟨-, heq⟩
    · rw [heq]
    · rw [heq] at hspent ⊢
      exact h.released c hc hspent
  settled := by
    intro c' hc' k hk s' hs' hinput
    obtain ⟨c, hc, rfl⟩ := List.mem_map.mp hc'
    obtain ⟨s, hs, rfl⟩ := List.mem_map.mp hs'
    rw [settle_inputs, markSpent_commitment] at hinput
    rw [settle_cancelled]
    rcases markSpent_cases height spent c with ⟨-, hmem, heq⟩ | ⟨-, heq⟩
    · rw [heq] at hk
      obtain rfl := Option.some.inj hk
      exact .inr (settledBy_settle hinput hmem (hbefore s hs))
    · rw [heq] at hk
      exact (h.settled c hc k hk s hs hinput).imp id settledBy_settle_of

theorem Booked.map_sent {f : Sent → Sent} (h : Booked coins sent)
    (hpending : ∀ s, (f s).isPending = s.isPending) (hinputs : ∀ s, (f s).inputs = s.inputs)
    (hhash : ∀ s, (f s).txHash = s.txHash) (hcancelled : ∀ s, (f s).cancelled = s.cancelled)
    (hsettled : ∀ s k, s.SettledBy k → (f s).SettledBy k) : Booked coins (sent.map f) where
  distinct := h.distinct
  reserved := by
    intro c hc hunspent s' ⟨hs', hp, hi⟩
    obtain ⟨s, hs, rfl⟩ := List.mem_map.mp hs'
    rw [hpending] at hp
    rw [hinputs] at hi
    exact h.reserved c hc hunspent s ⟨hs, hp, hi⟩
  waiting := by
    intro c hc hunspent hash heq
    obtain ⟨s, ⟨hs, hp, hi⟩, rfl⟩ := h.waiting c hc hunspent hash heq
    exact ⟨f s, ⟨List.mem_map_of_mem hs, (hpending s).trans hp, hinputs s ▸ hi⟩, hhash s⟩
  released := h.released
  settled := by
    intro c hc k hk s' hs' hi
    obtain ⟨s, hs, rfl⟩ := List.mem_map.mp hs'
    rw [hinputs] at hi
    rw [hcancelled]
    exact (h.settled c hc k hk s hs hi).imp id (hsettled s k)

theorem Booked.forget (h : Booked coins sent) : Booked coins (sent.map (forget height)) := by
  apply h.map_sent <;> intro s <;> unfold Wallet.forget <;> split <;>
    first | rfl | exact fun _ h => h

theorem release_cases (gone : Bytes32 → Prop) [DecidablePred gone] (c : WalletCoin) :
    (∃ hash, c.pendingTx = some hash ∧ gone hash ∧
    (if c.pendingTx.any (decide <| gone ·) then { c with pendingTx := none } else c) =
      { c with pendingTx := none }) ∨
    ((∀ hash, c.pendingTx = some hash → ¬ gone hash) ∧
      (if c.pendingTx.any (decide <| gone ·) then { c with pendingTx := none } else c) = c) := by
  by_cases hany : c.pendingTx.any (decide <| gone ·) = true
  · have hpending : ∃ hash, c.pendingTx = some hash ∧ gone hash := by
      cases hp : c.pendingTx with
      | none =>
        rw [hp] at hany
        cases hany
      | some hash =>
        rw [hp] at hany
        exact ⟨hash, rfl, of_decide_eq_true hany⟩
    obtain ⟨hash, hhash, hg⟩ := hpending
    exact .inl ⟨hash, hhash, hg, if_pos hany⟩
  · refine .inr ⟨?_, if_neg hany⟩
    intro hash hhash hg
    rw [hhash] at hany
    exact hany (decide_eq_true hg)

/-- Releasing coins of payments that no longer wait. -/
theorem Booked.release {f : Sent → Sent} {gone : Bytes32 → Prop} [DecidablePred gone]
    (h : Booked coins sent) (hinputs : ∀ s, (f s).inputs = s.inputs)
    (hhash : ∀ s, (f s).txHash = s.txHash)
    (hpending : ∀ s, (f s).isPending = true → s.isPending = true)
    (hsettled : ∀ s ∈ sent, ∀ k, s.cancelled = true ∨ s.SettledBy k →
      (f s).cancelled = true ∨ (f s).SettledBy k)
    (hgone : ∀ s ∈ sent, s.isPending = true → ¬ gone s.txHash → (f s).isPending = true)
    (hreleased : ∀ c ∈ coins, c.spentHeight = none → ∀ hash, c.pendingTx = some hash →
      gone hash → ∀ s, Waits sent c s → (f s).isPending = false) :
    Booked (coins.map fun c => if c.pendingTx.any (decide <| gone ·) then
      { c with pendingTx := none } else c) (sent.map f) := by
  refine ⟨?_, ?_, ?_, ?_, ?_⟩
  · rw [map_commitment]
    · exact h.distinct
    · intro c
      split <;> rfl
  · intro c' hc' hunspent s' ⟨hs', hp, hi⟩
    obtain ⟨c, hc, rfl⟩ := List.mem_map.mp hc'
    obtain ⟨s, hs, rfl⟩ := List.mem_map.mp hs'
    rcases release_cases gone c with ⟨hash, hhash, hg, heq⟩ | ⟨-, heq⟩
    · rw [heq] at hunspent hi
      have hnot := hreleased c hc hunspent hash hhash hg s ⟨hs, hpending s hp, hinputs s ▸ hi⟩
      rw [hnot] at hp
      cases hp
    · rw [heq] at hunspent hi ⊢
      exact h.reserved c hc hunspent s ⟨hs, hpending s hp, hinputs s ▸ hi⟩
  · intro c' hc' hunspent hash hhash'
    obtain ⟨c, hc, rfl⟩ := List.mem_map.mp hc'
    rcases release_cases gone c with ⟨_, -, -, heq⟩ | ⟨hkept, heq⟩
    · rw [heq] at hhash'
      cases hhash'
    · rw [heq] at hunspent hhash' ⊢
      obtain ⟨s, ⟨hs, hp, hi⟩, rfl⟩ := h.waiting c hc hunspent hash hhash'
      exact ⟨f s, ⟨List.mem_map_of_mem hs, hgone s hs hp (hkept _ hhash'), (hinputs s).symm ▸ hi⟩,
        hhash s⟩
  · intro c' hc' hspent
    obtain ⟨c, hc, rfl⟩ := List.mem_map.mp hc'
    rcases release_cases gone c with ⟨_, -, -, heq⟩ | ⟨-, heq⟩
    · rw [heq]
    · rw [heq] at hspent ⊢
      exact h.released c hc hspent
  · intro c' hc' k hk s' hs' hi
    obtain ⟨c, hc, rfl⟩ := List.mem_map.mp hc'
    obtain ⟨s, hs, rfl⟩ := List.mem_map.mp hs'
    have hold : c.spentHeight = some k ∧ c.commitment ∈ (f s).inputs := by
      rcases release_cases gone c with ⟨_, -, -, heq⟩ | ⟨-, heq⟩
      · rw [heq] at hk hi
        exact ⟨hk, hi⟩
      · rw [heq] at hk hi
        exact ⟨hk, hi⟩
    exact hsettled s hs k (h.settled c hc k hold.1 s hs (hinputs s ▸ hold.2))

theorem Booked.filter (h : Booked coins sent) {p : Sent → Bool}
    (hp : ∀ s ∈ sent, s.isPending = true → p s = true) : Booked coins (sent.filter p) where
  distinct := h.distinct
  reserved c hc hunspent s hw :=
    h.reserved c hc hunspent s ⟨(List.mem_filter.mp hw.1).1, hw.2⟩
  waiting c hc hunspent hash hhash := by
    obtain ⟨s, ⟨hs, hpending, hi⟩, heq⟩ := h.waiting c hc hunspent hash hhash
    exact ⟨s, ⟨List.mem_filter.mpr ⟨hs, hp s hs hpending⟩, hpending, hi⟩, heq⟩
  released := h.released
  settled c hc k hk s hs := h.settled c hc k hk s (List.mem_filter.mp hs).1

/-- A new payment reserves the free coins it spends. -/
theorem Booked.send (h : Booked coins sent) {s : Sent} (hpending : s.isPending = true)
    (hfree : ∀ i ∈ s.inputs, ∃ c ∈ coins, c.commitment = i ∧ c.spentHeight = none ∧
      c.pendingTx = none) :
    Booked (coins.map fun c => if c.commitment ∈ s.inputs then
      { c with pendingTx := some s.txHash } else c) (sent ++ [s]) := by
  have hown {c : WalletCoin} (hc : c ∈ coins) (hi : c.commitment ∈ s.inputs) :
      c.spentHeight = none ∧ c.pendingTx = none := by
    obtain ⟨d, hd, heq, hd'⟩ := hfree _ hi
    rw [List.inj_on_of_nodup_map h.distinct hd hc heq] at hd'
    exact hd'
  refine ⟨?_, ?_, ?_, ?_, ?_⟩
  · rw [map_commitment]
    · exact h.distinct
    · intro c
      split <;> rfl
  · intro c' hc' hunspent t hw
    obtain ⟨c, hc, rfl⟩ := List.mem_map.mp hc'
    by_cases hi : c.commitment ∈ s.inputs
    · simp only [if_pos hi]
      rfl
    · simp only [if_neg hi] at hunspent hw ⊢
      obtain ⟨ht, hp, hit⟩ := hw
      rcases List.mem_append.mp ht with ht | ht
      · exact h.reserved c hc hunspent t ⟨ht, hp, hit⟩
      · obtain rfl := List.mem_singleton.mp ht
        exact absurd hit hi
  · intro c' hc' hunspent hash hhash
    obtain ⟨c, hc, rfl⟩ := List.mem_map.mp hc'
    by_cases hi : c.commitment ∈ s.inputs
    · simp only [if_pos hi] at hhash ⊢
      obtain rfl := Option.some.inj hhash
      exact ⟨s, ⟨List.mem_append_right _ List.mem_cons_self, hpending, hi⟩, rfl⟩
    · simp only [if_neg hi] at hunspent hhash ⊢
      obtain ⟨t, ⟨ht, hw⟩, heq⟩ := h.waiting c hc hunspent hash hhash
      exact ⟨t, ⟨List.mem_append_left _ ht, hw⟩, heq⟩
  · intro c' hc' hspent
    obtain ⟨c, hc, rfl⟩ := List.mem_map.mp hc'
    by_cases hi : c.commitment ∈ s.inputs
    · simp only [if_pos hi] at hspent
      exact absurd (hown hc hi).1 hspent
    · simp only [if_neg hi] at hspent ⊢
      exact h.released c hc hspent
  · intro c' hc' k hk t ht hi
    obtain ⟨c, hc, rfl⟩ := List.mem_map.mp hc'
    by_cases hmem : c.commitment ∈ s.inputs
    · simp only [if_pos hmem] at hk
      have hnone : c.spentHeight = none := (hown hc hmem).1
      rw [hk] at hnone
      cases hnone
    · simp only [if_neg hmem] at hk hi
      rcases List.mem_append.mp ht with ht | ht
      · exact h.settled c hc k hk t ht hi
      · obtain rfl := List.mem_singleton.mp ht
        exact absurd hi hmem

/-- What a payment that waits again does to a coin. -/
def reserveFor (c : WalletCoin) (s : Sent) : WalletCoin :=
  if c.spentHeight.isNone && decide (c.commitment ∈ s.inputs) then
    { c with pendingTx := some s.txHash }
  else c

theorem foldl_reserve (revived : List Sent) (coins : List WalletCoin) :
    revived.foldl reserve coins = coins.map fun c => revived.foldl reserveFor c := by
  induction revived generalizing coins with
  | nil => exact (List.map_id coins).symm
  | cons s revived ih =>
    rw [List.foldl_cons, ih]
    exact List.map_map

theorem foldl_reserveFor (revived : List Sent) (c : WalletCoin) :
    (revived.foldl reserveFor c).commitment = c.commitment ∧
    (revived.foldl reserveFor c).spentHeight = c.spentHeight ∧
    ((revived.foldl reserveFor c).pendingTx = c.pendingTx ∧
        (c.spentHeight = none → ∀ s ∈ revived, c.commitment ∉ s.inputs) ∨
      c.spentHeight = none ∧ ∃ s ∈ revived, c.commitment ∈ s.inputs ∧
        (revived.foldl reserveFor c).pendingTx = some s.txHash) := by
  induction revived generalizing c with
  | nil => exact ⟨rfl, rfl, .inl ⟨rfl, fun _ _ => nofun⟩⟩
  | cons s revived ih =>
    obtain ⟨hcommitment, hspent, hpending⟩ := ih (reserveFor c s)
    have hsame : (reserveFor c s).commitment = c.commitment ∧
        (reserveFor c s).spentHeight = c.spentHeight := by
      unfold reserveFor
      split <;> exact ⟨rfl, rfl⟩
    rw [List.foldl_cons]
    refine ⟨hcommitment.trans hsame.1, hspent.trans hsame.2, ?_⟩
    rw [hsame.1, hsame.2] at hpending
    rcases hpending with ⟨hpending, hnone⟩ | ⟨hunspent, t, ht, hi, hpending⟩
    · by_cases hmem : c.spentHeight = none ∧ c.commitment ∈ s.inputs
      · refine .inr ⟨hmem.1, s, List.mem_cons_self, hmem.2, ?_⟩
        rw [hpending, reserveFor, if_pos (by simpa using hmem)]
      · refine .inl ⟨?_, ?_⟩
        · rw [hpending, reserveFor, if_neg (by simpa using hmem)]
        · intro hunspent
          exact List.forall_mem_cons.mpr ⟨fun hi => hmem ⟨hunspent, hi⟩, hnone hunspent⟩
    · exact .inr ⟨hunspent, t, List.mem_cons_of_mem _ ht, hi, hpending⟩

/-- A payment settled once at most, at or below a height. -/
def Dated (height : Nat) (s : Sent) : Prop :=
  (s.height = none ∨ s.failedAt = none) ∧
    ∀ t, s.height = some t ∨ s.failedAt = some t → t ≤ height

theorem unsettle_pending {s : Sent} (h : (s.unsettle height).isPending = true) :
    s.isPending = true ∨ s.settledFrom height = true ∧ s.cancelled = false := by
  obtain ⟨hheight, hfailed, hcancelled⟩ := isPending_iff.mp h
  cases hh : s.height with
  | none =>
    cases hf : s.failedAt with
    | none => exact .inl (isPending_iff.mpr ⟨hh, hf, hcancelled⟩)
    | some t =>
      refine .inr ⟨?_, hcancelled⟩
      simp only [Sent.unsettle, hf, Option.filter_eq_none_iff] at hfailed
      simpa [Sent.settledFrom, hh, hf] using hfailed
  | some t =>
    refine .inr ⟨?_, hcancelled⟩
    simp only [Sent.unsettle, hh, Option.filter_eq_none_iff] at hheight
    simp [Sent.settledFrom, hh]
    left
    simpa using hheight

theorem pending_unsettle {s : Sent} (h : s.isPending = true) :
    (s.unsettle height).isPending = true := by
  obtain ⟨hheight, hfailed, hcancelled⟩ := isPending_iff.mp h
  apply isPending_iff.mpr
  simp [Sent.unsettle, hheight, hfailed, hcancelled]

theorem revived_unsettle {s : Sent} {k : Nat} (hdated : Dated k s)
    (h : s.settledFrom height = true) (hcancelled : s.cancelled = false) :
    (s.unsettle height).isPending = true := by
  apply isPending_iff.mpr
  simp only [Sent.settledFrom, Bool.or_eq_true] at h
  rcases hdated.1 with hnone | hnone
  · cases hf : s.failedAt with
    | none => simp [hnone, hf] at h
    | some t => simpa [Sent.unsettle, hnone, hf, hcancelled] using h
  · cases hh : s.height with
    | none => simp [hnone, hh] at h
    | some t => simpa [Sent.unsettle, hnone, hh, hcancelled] using h

theorem unsettle_settledBy {s : Sent} {k : Nat} (hk : k < height) (h : s.SettledBy k) :
    (s.unsettle height).SettledBy k := by
  obtain ⟨t, ht, hs | hs⟩ := h
  · exact ⟨t, ht, .inl (by simp [Sent.unsettle, hs]; omega)⟩
  · exact ⟨t, ht, .inr (by simp [Sent.unsettle, hs]; omega)⟩

theorem mem_rolledBack {d : WalletCoin}
    (hd : d ∈ (coins.filter (·.height < height)).map
      ((fun c => (sent.filter fun s => s.settledFrom height && !s.cancelled).foldl reserveFor c) ∘
        unspend height)) : ∃ c ∈ coins, d.commitment = c.commitment ∧
      d.spentHeight = c.spentHeight.filter (· < height) ∧
      (d.pendingTx = c.pendingTx ∧ (d.spentHeight = none → ∀ s ∈ sent,
          s.settledFrom height = true → s.cancelled = false → c.commitment ∉ s.inputs) ∨
        d.spentHeight = none ∧ ∃ s ∈ sent, s.settledFrom height = true ∧ s.cancelled = false ∧
          c.commitment ∈ s.inputs ∧ d.pendingTx = some s.txHash) := by
  obtain ⟨c, hc, rfl⟩ := List.mem_map.mp hd
  obtain ⟨hcommitment, hspent, hpending⟩ :=
    foldl_reserveFor (sent.filter fun s => s.settledFrom height && !s.cancelled)
      (unspend height c)
  refine ⟨c, (List.mem_filter.mp hc).1, hcommitment, hspent, ?_⟩
  rcases hpending with ⟨hsame, hnone⟩ | ⟨hunspent, s, hs, hi, heq⟩
  · refine .inl ⟨hsame, ?_⟩
    intro hunspent s hs hsettled hcancelled
    apply hnone (hspent.symm.trans hunspent) s
    exact List.mem_filter.mpr ⟨hs, by rw [hsettled, hcancelled]; rfl⟩
  · obtain ⟨hs, hrevived⟩ := List.mem_filter.mp hs
    simp only [Bool.and_eq_true, Bool.not_eq_true'] at hrevived
    exact .inr ⟨hspent.trans hunspent, s, hs, hrevived.1, hrevived.2, hi, heq⟩

theorem Booked.rollback {k : Nat} (h : Booked coins sent) (hdated : ∀ s ∈ sent, Dated k s) :
    Booked ((sent.filter fun s => s.settledFrom height && !s.cancelled).foldl reserve
      ((coins.filter (·.height < height)).map (unspend height)))
      (sent.map (Sent.unsettle height)) := by
  rw [foldl_reserve, List.map_map]
  refine ⟨?_, ?_, ?_, ?_, ?_⟩
  · rw [← List.map_map, map_commitment fun c => (foldl_reserveFor _ c).1,
      map_commitment (f := unspend height) fun _ => rfl]
    exact h.distinct.sublist (List.filter_sublist.map _)
  · intro d hd hunspent t' ⟨ht', hp, hi⟩
    obtain ⟨c, hc, hcommitment, hspent, hpending⟩ := mem_rolledBack hd
    obtain ⟨t, ht, rfl⟩ := List.mem_map.mp ht'
    rw [hcommitment] at hi
    rcases hpending with ⟨hsame, hnone⟩ | ⟨-, s, -, -, -, -, heq⟩
    · rw [hsame]
      have hwaiting : t.isPending = true := by
        rcases unsettle_pending hp with hwaiting | ⟨hsettled, hcancelled⟩
        · exact hwaiting
        · exact absurd hi (hnone hunspent t ht hsettled hcancelled)
      cases hk : c.spentHeight with
      | none => exact h.reserved c hc hk t ⟨ht, hwaiting, hi⟩
      | some k =>
        rcases h.settled c hc k hk t ht hi with hcancelled | hsettled
        · rw [(isPending_iff.mp hwaiting).2.2] at hcancelled
          cases hcancelled
        · rw [not_pending_of_settledBy hsettled] at hwaiting
          cases hwaiting
    · rw [heq]
      rfl
  · intro d hd hunspent hash hhash
    obtain ⟨c, hc, hcommitment, hspent, hpending⟩ := mem_rolledBack hd
    rcases hpending with ⟨hsame, -⟩ | ⟨-, s, hs, hsettled, hcancelled, hi, heq⟩
    · rw [hsame] at hhash
      have hnone : c.spentHeight = none := by
        by_contra hne
        rw [h.released c hc hne] at hhash
        cases hhash
      obtain ⟨s, ⟨hs, hp, hi⟩, rfl⟩ := h.waiting c hc hnone hash hhash
      exact ⟨s.unsettle height, ⟨List.mem_map_of_mem hs, pending_unsettle hp, hcommitment ▸ hi⟩,
        rfl⟩
    · obtain rfl := Option.some.inj (heq.symm.trans hhash)
      exact ⟨s.unsettle height, ⟨List.mem_map_of_mem hs,
        revived_unsettle (hdated s hs) hsettled hcancelled, hcommitment ▸ hi⟩, rfl⟩
  · intro d hd hne
    obtain ⟨c, hc, hcommitment, hspent, hpending⟩ := mem_rolledBack hd
    rcases hpending with ⟨hsame, -⟩ | ⟨hunspent, -⟩
    · rw [hsame]
      apply h.released c hc
      intro hnone
      rw [hnone] at hspent
      exact hne hspent
    · exact absurd hunspent hne
  · intro d hd k hk t' ht' hi
    obtain ⟨c, hc, hcommitment, hspent, -⟩ := mem_rolledBack hd
    obtain ⟨t, ht, rfl⟩ := List.mem_map.mp ht'
    rw [hspent, Option.filter_eq_some_iff] at hk
    obtain ⟨hk, hlt⟩ := hk
    rw [hcommitment] at hi
    exact (h.settled c hc k hk t ht hi).imp id (unsettle_settledBy (of_decide_eq_true hlt))

section Adding

variable [Primitives] [Decryption] {keys : WalletKeys} {created : List (Output × Bool)}

/-- A coin found while scanning is reserved for a payment that waits for it. -/
theorem Booked.addCoin (h : Booked coins sent) (o : Output × Bool) :
    Booked (addCoin keys sent height coins o) sent := by
  unfold Wallet.addCoin
  split
  · exact h
  · rename_i hnew
    split
    · rename_i owned _
      refine ⟨?_, ?_, ?_, ?_, ?_⟩
      · rw [List.map_append, List.map_singleton]
        apply List.nodup_append'.mpr
        refine ⟨h.distinct, List.nodup_singleton _, ?_⟩
        intro c hc hc'
        obtain rfl := List.mem_singleton.mp hc'
        exact hnew hc
      · intro c hc hunspent s hwaits
        rcases List.mem_append.mp hc with hc | hc
        · exact h.reserved c hc hunspent s hwaits
        · obtain rfl := List.mem_singleton.mp hc
          obtain ⟨hs, hp, hi⟩ := hwaits
          show (reservedFor sent o.1.commitment).isSome
          rw [reservedFor, Option.isSome_map, List.find?_isSome]
          exact ⟨s, hs, by simpa using ⟨hp, hi⟩⟩
      · intro c hc hunspent hash hhash
        rcases List.mem_append.mp hc with hc | hc
        · exact h.waiting c hc hunspent hash hhash
        · obtain rfl := List.mem_singleton.mp hc
          obtain ⟨s, hs, rfl⟩ := Option.map_eq_some_iff.mp hhash
          have hfound := List.find?_some hs
          simp only [Bool.and_eq_true, decide_eq_true_eq] at hfound
          exact ⟨s, ⟨List.mem_of_find?_eq_some hs, hfound.1, hfound.2⟩, rfl⟩
      · intro c hc hspent
        rcases List.mem_append.mp hc with hc | hc
        · exact h.released c hc hspent
        · obtain rfl := List.mem_singleton.mp hc
          exact absurd rfl hspent
      · intro c hc k hk
        rcases List.mem_append.mp hc with hc | hc
        · exact h.settled c hc k hk
        · obtain rfl := List.mem_singleton.mp hc
          cases hk
    · exact h

theorem Booked.addCoins (h : Booked coins sent) :
    Booked (created.foldl (Wallet.addCoin keys sent height) coins) sent := by
  induction created generalizing coins with
  | nil => exact h
  | cons o created ih => exact ih (h.addCoin o)

end Adding

end Steps

section Dates

variable {s : Sent} {height k : Nat} {spent : List Point32} {kernels : List Bytes32}

theorem forget_height : (forget height s).height = s.height := by
  unfold forget
  split <;> rfl

theorem forget_failedAt : (forget height s).failedAt = s.failedAt := by
  unfold forget
  split <;> rfl

theorem forget_kernel : (forget height s).kernel = s.kernel := by
  unfold forget
  split <;> rfl

theorem forget_inputs : (forget height s).inputs = s.inputs := by
  unfold forget
  split <;> rfl

theorem Dated.mono (h : Dated k s) (hle : k ≤ height) : Dated height s :=
  ⟨h.1, fun t ht => (h.2 t ht).trans hle⟩

theorem Dated.settle (h : Dated height s) : Dated (height + 1) (settle height spent kernels s) := by
  unfold Wallet.settle
  split
  · exact h.mono (Nat.le_succ _)
  · rename_i hsettled
    simp only [Bool.or_eq_true, not_or, Option.not_isSome_iff_eq_none] at hsettled
    split
    · refine ⟨.inr hsettled.2, ?_⟩
      rintro t (ht | ht)
      · obtain rfl := Option.some.inj ht
        exact Nat.le_succ _
      · rw [hsettled.2] at ht
        cases ht
    · split
      · refine ⟨.inl hsettled.1, ?_⟩
        rintro t (ht | ht)
        · rw [hsettled.1] at ht
          cases ht
        · obtain rfl := Option.some.inj ht
          exact Nat.le_succ _
      · exact h.mono (Nat.le_succ _)

theorem Dated.unsettle (h : Dated k s) : Dated (min k height) (s.unsettle height) := by
  refine ⟨?_, ?_⟩
  · rcases h.1 with hnone | hnone
    · exact .inl (by simp [Sent.unsettle, hnone])
    · exact .inr (by simp [Sent.unsettle, hnone])
  · rintro t (ht | ht)
    · obtain ⟨ht, hlt⟩ := Option.filter_eq_some_iff.mp ht
      exact Nat.le_min.mpr ⟨h.2 t (.inl ht), Nat.le_of_lt (of_decide_eq_true hlt)⟩
    · obtain ⟨ht, hlt⟩ := Option.filter_eq_some_iff.mp ht
      exact Nat.le_min.mpr ⟨h.2 t (.inr ht), Nat.le_of_lt (of_decide_eq_true hlt)⟩

theorem Dated.congr {s' : Sent} (h : Dated k s) (hheight : s'.height = s.height)
    (hfailed : s'.failedAt = s.failedAt) : Dated k s' := by
  rw [Dated, hheight, hfailed]
  exact h

end Dates

section Calls

variable [Primitives] [Decryption]

/-- What is done to a wallet. -/
inductive Call where
  | buildSend («to» : StealthAddress) (amount : Nat) (fee : Option Nat) (tipHeight now : Nat)
      (draw : TransactionDraw)
  | cancelPending (txHash : Bytes32)
  | discardSend (txHash : Bytes32)
  | scanBlock (height : Nat) (batch : Batch)
  | rollbackTo (height : Nat)
  | rescanFrom (height : Nat)
  | settleOrphans

def does (w : Wallet) : Call → Result Wallet
  | .buildSend «to» amount fee tipHeight now draw =>
    .ok (w.buildSend «to» amount fee tipHeight now draw).1
  | .cancelPending txHash => .ok (w.cancelPending txHash).1
  | .discardSend txHash => .ok (w.discardSend txHash)
  | .scanBlock height batch => w.scanBlock height batch
  | .rollbackTo height => .ok (w.rollbackTo height).1
  | .rescanFrom height => w.rescanFrom height
  | .settleOrphans => .ok w.settleOrphans.1

/-- What is reached through accepted calls, each allowed in the state it meets. -/
inductive Run (allowed : Wallet → Call → Prop) (w₀ : Wallet) : Wallet → Prop
  | start : Run allowed w₀ w₀
  | call {w w' : Wallet} {c : Call} : Run allowed w₀ w → allowed w c → w.does c = .ok w' →
      Run allowed w₀ w'

/-- A payment that waits for a coin the wallet does not hold unspent. -/
def Lost (w : Wallet) (s : Sent) : Prop :=
  s.isPending = true ∧
    ∃ i ∈ s.inputs, ∀ c ∈ w.coins, c.spentHeight = none → c.commitment ≠ i

/-- What a call must find for reservations to stay right: a block that settles no waiting
payment for which a coin it leaves is reserved; no released or lost payment whose coins a
payment that still waits spends too. -/
def Spares (w : Wallet) : Call → Prop
  | .scanBlock _ batch =>
    SpendsWhole w.coins w.sent batch.body.inputCommitments batch.body.kernelIds
  | .cancelPending txHash | .discardSend txHash =>
    ∀ c ∈ w.coins, c.spentHeight = none → c.pendingTx = some txHash → ∀ s, Waits w.sent c s →
      s.txHash = txHash
  | .settleOrphans =>
    ∀ c ∈ w.coins, c.spentHeight = none → ∀ p ∈ w.sent, w.Lost p → c.pendingTx = some p.txHash →
      ∀ s, Waits w.sent c s → w.Lost s
  | _ => True

/-- Books that agree, and payments settled by blocks scanned. -/
structure Sound (w : Wallet) : Prop where
  booked : Booked w.coins w.sent
  dated : ∀ s ∈ w.sent, Dated w.scannedHeight s

omit [Decryption] in
theorem restore_sound (keys : WalletKeys) (birthHeight : Nat) :
    (restore keys birthHeight).Sound where
  booked := ⟨List.nodup_nil, nofun, nofun, nofun, nofun⟩
  dated := nofun

variable {w w' : Wallet} {height amount tipHeight now : Nat} {batch : Batch} {txHash : Bytes32}
  {«to» : StealthAddress} {fee : Option Nat} {draw : TransactionDraw}

theorem Sound.scanBlock (h : w.Sound)
    (hwhole : SpendsWhole w.coins w.sent batch.body.inputCommitments batch.body.kernelIds)
    (hok : w.scanBlock height batch = .ok w') : w'.Sound := by
  simp only [Wallet.scanBlock, bind_eq_ok, bailIf_eq_ok, not_not] at hok
  obtain ⟨_, rfl, _, -, heq⟩ := hok
  obtain rfl := Except.ok.inj heq
  constructor
  · exact ((h.booked.settle hwhole fun s hs => (h.dated s hs).2).addCoins).forget
  · intro s' hs'
    rw [List.map_map] at hs'
    obtain ⟨s, hs, rfl⟩ := List.mem_map.mp hs'
    exact ((h.dated s hs).settle).congr forget_height forget_failedAt

omit [Decryption] in
theorem Sound.rollbackTo (h : w.Sound) : (w.rollbackTo height).1.Sound where
  booked := h.booked.rollback h.dated
  dated := by
    intro s' hs'
    obtain ⟨s, hs, rfl⟩ := List.mem_map.mp hs'
    exact (h.dated s hs).unsettle

omit [Decryption] in
theorem Sound.rescanFrom (h : w.Sound) (hok : w.rescanFrom height = .ok w') : w'.Sound := by
  simp only [Wallet.rescanFrom, bind_eq_ok, bailIf_eq_ok] at hok
  obtain ⟨_, -, heq⟩ := hok
  obtain rfl := Except.ok.inj heq
  exact ⟨h.rollbackTo.booked, h.rollbackTo.dated⟩

omit [Decryption] in
theorem Sound.cancelPending (h : w.Sound)
    (hshared : ∀ c ∈ w.coins, c.spentHeight = none → c.pendingTx = some txHash → ∀ s,
      Waits w.sent c s → s.txHash = txHash) : (w.cancelPending txHash).1.Sound := by
  have hcancel (s : Sent) : (s.txHash = txHash ∧ s.isPending = true ∧
      (if s.txHash = txHash && s.isPending then { s with cancelled := true, tx := none } else s) =
        { s with cancelled := true, tx := none }) ∨
      ((s.isPending = true → s.txHash ≠ txHash) ∧
        (if s.txHash = txHash && s.isPending then { s with cancelled := true, tx := none } else s)
          = s) := by
    by_cases hnamed : s.txHash = txHash ∧ s.isPending = true
    · exact .inl ⟨hnamed.1, hnamed.2, if_pos (by simpa using hnamed)⟩
    · exact .inr ⟨fun hp heq => hnamed ⟨heq, hp⟩, if_neg (by simpa using hnamed)⟩
  have hcoins : (w.cancelPending txHash).1.coins = w.coins.map fun c =>
      if c.pendingTx.any (decide <| · = txHash) then { c with pendingTx := none } else c := by
    apply List.map_congr_left
    intro c _
    cases c.pendingTx <;> simp
  constructor
  · rw [hcoins]
    apply h.booked.release
    · intro s
      split <;> rfl
    · intro s
      split <;> rfl
    · intro s hp
      rcases hcancel s with ⟨-, hp', -⟩ | ⟨-, heq⟩
      · exact hp'
      · exact heq ▸ hp
    · intro s _ k hsettled
      rcases hcancel s with ⟨-, -, heq⟩ | ⟨-, heq⟩
      · rw [heq]
        exact .inl rfl
      · rw [heq]
        exact hsettled
    · intro s _ hp hne
      rcases hcancel s with ⟨heq, -⟩ | ⟨-, heq⟩
      · exact absurd heq hne
      · rw [heq]
        exact hp
    · rintro c hc hunspent hash hhash rfl s hwaits
      have hnamed := hshared c hc hunspent hhash s hwaits
      rcases hcancel s with ⟨-, -, heq⟩ | ⟨hne, -⟩
      · rw [heq]
        simp [Sent.isPending]
      · exact absurd hnamed (hne hwaits.2.1)
  · intro s' hs'
    obtain ⟨s, hs, rfl⟩ := List.mem_map.mp hs'
    apply (h.dated s hs).congr
    · split <;> rfl
    · split <;> rfl

omit [Decryption] in
theorem pending_after_cancel {s : Sent} (hs : s ∈ (w.cancelPending txHash).1.sent)
    (hp : s.isPending = true) : s.txHash ≠ txHash := by
  obtain ⟨t, -, rfl⟩ := List.mem_map.mp hs
  split at hp
  · simp [Sent.isPending] at hp
  · rename_i hnamed
    rw [if_neg hnamed]
    intro heq
    apply hnamed
    simp [heq, hp]

omit [Decryption] in
theorem Sound.discardSend (h : w.Sound)
    (hshared : ∀ c ∈ w.coins, c.spentHeight = none → c.pendingTx = some txHash → ∀ s,
      Waits w.sent c s → s.txHash = txHash) : (w.discardSend txHash).Sound := by
  have hcancelled := h.cancelPending hshared
  constructor
  · apply hcancelled.booked.filter
    intro s hs hp
    simp [pending_after_cancel hs hp]
  · intro s hs
    exact hcancelled.dated s (List.mem_filter.mp hs).1

omit [Decryption] in
theorem lost_iff {s : Sent} : (s.isPending && s.inputs.any fun c =>
    decide (c ∉ (w.coins.filter (·.spentHeight.isNone)).map WalletCoin.commitment)) = true ↔
      w.Lost s := by
  simp only [Bool.and_eq_true, List.any_eq_true, decide_eq_true_eq, List.mem_map, List.mem_filter,
    Option.isNone_iff_eq_none, not_exists, not_and, Lost, and_imp]

omit [Decryption] in
theorem Sound.settleOrphans (h : w.Sound)
    (hshared : ∀ c ∈ w.coins, c.spentHeight = none → ∀ p ∈ w.sent, w.Lost p →
      c.pendingTx = some p.txHash → ∀ s, Waits w.sent c s → w.Lost s) :
    w.settleOrphans.1.Sound := by
  let lost (s : Sent) : Bool := s.isPending && s.inputs.any fun c =>
    decide (c ∉ (w.coins.filter (·.spentHeight.isNone)).map WalletCoin.commitment)
  have hlost (s : Sent) : lost s = true ↔ w.Lost s := lost_iff
  constructor
  · apply h.booked.release
    · intro s
      split <;> rfl
    · intro s
      split <;> rfl
    · intro s hp
      split at hp
      · simp [Sent.isPending] at hp
      · exact hp
    · intro s _ k hsettled
      split
      · rename_i hls
        obtain ⟨hp, -⟩ := (hlost s).mp hls
        rcases hsettled with hcancelled | hsettled
        · exact .inl hcancelled
        · rw [not_pending_of_settledBy hsettled] at hp
          cases hp
      · exact hsettled
    · intro s hs hp hgone
      split
      · rename_i hls
        exact absurd (List.mem_map_of_mem (List.mem_filter.mpr ⟨hs, hls⟩)) hgone
      · exact hp
    · rintro c hc hunspent hash hhash hgone s hwaits
      obtain ⟨p, hp, rfl⟩ := List.mem_map.mp hgone
      obtain ⟨hp, hpl⟩ := List.mem_filter.mp hp
      have hsl := hshared c hc hunspent p hp ((hlost p).mp hpl) hhash s hwaits
      rw [if_pos ((hlost s).mpr hsl)]
      simp [Sent.isPending]
  · intro s' hs'
    obtain ⟨s, hs, rfl⟩ := List.mem_map.mp hs'
    split
    · rename_i hls
      obtain ⟨hheight, -⟩ := isPending_iff.mp ((hlost s).mp hls).1
      refine ⟨.inl hheight, ?_⟩
      rintro t (ht | ht)
      · rw [hheight] at ht
        cases ht
      · obtain rfl := Option.some.inj ht
        exact Nat.sub_le _ _
    · exact h.dated s hs

theorem mem_choose {amount : Nat} {feeFor : Nat → Nat} {candidates : List WalletCoin}
    {acc r : List Spendable × Nat} {keys : WalletKeys}
    (h : choose keys amount feeFor candidates acc = .ok r) {i : Point32}
    (hi : i ∈ r.1.map Spendable.commitment) :
    i ∈ acc.1.map Spendable.commitment ∨ i ∈ candidates.map WalletCoin.commitment := by
  induction candidates generalizing acc with
  | nil =>
    obtain rfl := Except.ok.inj h
    exact .inl hi
  | cons c candidates ih =>
    simp only [choose, bind_eq_ok, orBail_eq_ok] at h
    obtain ⟨need, -, h⟩ := h
    split at h
    · obtain rfl := Except.ok.inj h
      exact .inl hi
    · simp only [bind_eq_ok, orBail_eq_ok] at h
      obtain ⟨owned, -, h⟩ := h
      rcases ih h with hmem | hmem
      · rw [List.map_append, List.mem_append] at hmem
        rcases hmem with hmem | hmem
        · exact .inl hmem
        · obtain rfl := List.mem_singleton.mp hmem
          exact .inr List.mem_cons_self
      · exact .inr (List.mem_cons_of_mem _ hmem)

omit [Decryption] in
theorem buildTransaction_kernels {spend : List Spendable} {payments : List Payment}
    {change : StealthAddress} {fee minHeight : Nat} {draw : TransactionDraw}
    {built : BuiltTransaction}
    (h : buildTransaction spend payments change fee minHeight draw = .ok built) :
    ∃ kernel, built.tx.body.kernels = [kernel] := by
  simp only [buildTransaction, bind_eq_ok, Prod.exists] at h
  obtain ⟨_, -, _, -, _, -, _, -, _, -, _, -, _, -, _, -, _, -, _, _, -, _, -, _, -, _, -, heq⟩ := h
  obtain rfl := Except.ok.inj heq
  exact ⟨_, rfl⟩

theorem prepareSend_eq_ok {inputs : List Point32} {paid : Nat} {built : BuiltTransaction}
    (h : w.prepareSend «to» amount fee tipHeight draw = .ok (inputs, paid, built)) :
    (∀ i ∈ inputs, ∃ c ∈ w.coins, c.commitment = i ∧ c.spentHeight = none ∧ c.pendingTx = none) ∧
      ∃ kernel, built.tx.body.kernels = [kernel] := by
  simp only [prepareSend, bind_eq_ok, Prod.exists] at h
  obtain ⟨_, -, chosen, total, hchosen, _, -, _, -, built', hbuilt, heq⟩ := h
  simp only [Except.ok.injEq, Prod.mk.injEq] at heq
  obtain ⟨rfl, -, rfl⟩ := heq
  refine ⟨?_, buildTransaction_kernels hbuilt⟩
  intro i hi
  rcases mem_choose hchosen hi with hmem | hmem
  · cases hmem
  · obtain ⟨c, hc, rfl⟩ := List.mem_map.mp hmem
    obtain ⟨hc, hspendable⟩ := List.mem_filter.mp ((List.mem_insertionSort _).mp hc)
    simp only [spendable, Bool.and_eq_true, Option.isNone_iff_eq_none] at hspendable
    exact ⟨c, hc, rfl, hspendable.1⟩

theorem Sound.buildSend (h : w.Sound) :
    (w.buildSend «to» amount fee tipHeight now draw).1.Sound := by
  unfold Wallet.buildSend
  split
  · exact h
  · rename_i inputs paid built hprepared
    obtain ⟨hfree, kernel, hkernel⟩ := prepareSend_eq_ok hprepared
    rw [hkernel]
    constructor
    · exact h.booked.send (s := ⟨built.tx.hash, kernel.id, «to», amount, paid, inputs,
        built.change.map Prod.fst, now, some built.tx, none, none, false⟩) rfl hfree
    · intro s hs
      rcases List.mem_append.mp hs with hs | hs
      · exact h.dated s hs
      · obtain rfl := List.mem_singleton.mp hs
        exact ⟨.inl rfl, by rintro t (ht | ht) <;> cases ht⟩

theorem Sound.does {c : Call} (h : w.Sound) (hspares : w.Spares c) (hok : w.does c = .ok w') :
    w'.Sound := by
  cases c with
  | buildSend =>
    obtain rfl := Except.ok.inj hok
    exact h.buildSend
  | cancelPending =>
    obtain rfl := Except.ok.inj hok
    exact h.cancelPending hspares
  | discardSend =>
    obtain rfl := Except.ok.inj hok
    exact h.discardSend hspares
  | scanBlock => exact h.scanBlock hspares hok
  | rollbackTo =>
    obtain rfl := Except.ok.inj hok
    exact h.rollbackTo
  | rescanFrom => exact h.rescanFrom hok
  | settleOrphans =>
    obtain rfl := Except.ok.inj hok
    exact h.settleOrphans hspares

theorem sound_of_run {w₀ : Wallet} (h₀ : w₀.Sound) (h : Run Spares w₀ w) : w.Sound := by
  induction h with
  | start => exact h₀
  | call _ hspares hok ih => exact ih.does hspares hok

omit [Decryption] in
/-- An unspent coin is reserved exactly when a payment waits that spends it, and for such a
payment. -/
def CoinsReserved (w : Wallet) : Prop :=
  ∀ c ∈ w.coins, c.spentHeight = none →
    (c.pendingTx.isSome = true ↔ ∃ s, Waits w.sent c s) ∧
      ∀ hash, c.pendingTx = some hash → ∃ s, Waits w.sent c s ∧ s.txHash = hash

/-- In every run whose calls spare the reservations, coins are reserved exactly for the payments
that wait, and no payment is made of a coin that a waiting one spends. -/
theorem reservations_kept {keys : WalletKeys} {birthHeight : Nat}
    (h : Run Spares (restore keys birthHeight) w) :
    w.CoinsReserved ∧
      ∀ («to» : StealthAddress) (amount : Nat) (fee : Option Nat) (tipHeight : Nat)
        (draw : TransactionDraw) (inputs : List Point32) (paid : Nat) (built : BuiltTransaction),
        w.prepareSend «to» amount fee tipHeight draw = .ok (inputs, paid, built) →
          ∀ s ∈ w.sent, s.isPending = true → ∀ i ∈ inputs, i ∉ s.inputs := by
  have hsound := sound_of_run (restore_sound keys birthHeight) h
  constructor
  · intro c hc hunspent
    refine ⟨⟨?_, ?_⟩, hsound.booked.waiting c hc hunspent⟩
    · intro hsome
      obtain ⟨hash, hhash⟩ := Option.isSome_iff_exists.mp hsome
      obtain ⟨s, hwaits, -⟩ := hsound.booked.waiting c hc hunspent hash hhash
      exact ⟨s, hwaits⟩
    · rintro ⟨s, hwaits⟩
      exact hsound.booked.reserved c hc hunspent s hwaits
  · intro «to» amount fee tipHeight draw inputs paid built hprepared s hs hp i hi hspends
    obtain ⟨c, hc, rfl, hunspent, hfree⟩ := (prepareSend_eq_ok hprepared).1 i hi
    have hreserved := hsound.booked.reserved c hc hunspent s ⟨hs, hp, hspends⟩
    rw [hfree] at hreserved
    cases hreserved

end Calls

section Example

local instance walletWords : Primitives := { Primitives.words with blake3 := fun _ => 0 }

local instance walletOpening : Decryption := ⟨fun _ _ data => some (data.take 40)⟩

/-- Two coins of five, spent by one payment, and a block that spends the first alone. -/
def twoCoinKeys : WalletKeys := ⟨1, 1, 0⟩

def twoCoinOutput (blinding : UInt8) : Output where
  commitment := 5 <<< 128 + BitVec.ofNat 256 blinding.toNat
  ownerKey := 1 <<< 128
  ephemeralKey := 1
  viewTag := 0
  payload := List.replicate 24 0 ++ [0, 0, 0, 0, 0, 0, 0, 5] ++ List.replicate 31 0 ++
    [blinding] ++ List.replicate 16 0
  recoveryCommitment := 0

def twoCoinBlock : Batch :=
  { Batch.genesis with
    extension := ⟨0, 0⟩
    body := ⟨⟨[], [⟨[twoCoinOutput 1, twoCoinOutput 2], []⟩], []⟩, 0, 0⟩ }

def twoCoinSend : Call :=
  .buildSend ⟨1 <<< 128, 1 <<< 128, 0⟩ 6 (some 4) 1 0
    ⟨fun _ => ⟨1, 7, List.replicate 24 0⟩, id, [], fun _ => 0, [(1, 1)], 0⟩

/-- Another copy of the wallet spends the first coin. -/
def oneCoinBlock : Batch :=
  { Batch.genesis with
    prevHeaderHash := 0
    body := ⟨⟨[⟨(twoCoinOutput 1).commitment, 1 <<< 128, ⟨0, 0⟩⟩], [], []⟩, 0, 0⟩ }

def afterAll (w : Wallet) (calls : List Call) : Result Wallet := calls.foldlM does w

theorem run_of_afterAll {w₀ w w' : Wallet} {calls : List Call} (h : Run (fun _ _ => True) w₀ w)
    (hok : afterAll w calls = .ok w') : Run (fun _ _ => True) w₀ w' := by
  induction calls generalizing w with
  | nil =>
    obtain rfl := pure_eq_ok.mp hok
    exact h
  | cons c calls ih =>
    obtain ⟨mid, hmid, hrest⟩ := foldlM_cons_eq_ok.mp hok
    exact ih (h.call trivial hmid) hrest

/-- A payment of two coins that fails through one keeps the other reserved. -/
theorem coin_reserved_for_failed :
    ¬ ∀ (keys : WalletKeys) (birthHeight : Nat) (w : Wallet),
      Run (fun _ _ => True) (restore keys birthHeight) w → w.CoinsReserved := by
  intro hall
  have hrun : (match afterAll (restore twoCoinKeys 0) [.scanBlock 0 twoCoinBlock, twoCoinSend,
      .scanBlock 1 oneCoinBlock] with
      | .ok w => w.coins.any fun c => c.spentHeight.isNone && c.pendingTx.isSome &&
          w.sent.all fun s => !s.isPending
      | .error _ => false) = true := by
    decide +kernel
  split at hrun
  · rename_i w hw
    obtain ⟨c, hc, hcoin⟩ := List.any_eq_true.mp hrun
    simp only [Bool.and_eq_true, Option.isNone_iff_eq_none, List.all_eq_true,
      Bool.not_eq_true'] at hcoin
    obtain ⟨⟨hunspent, hreserved⟩, hnone⟩ := hcoin
    obtain ⟨s, hs, hp, -⟩ :=
      ((hall _ _ w (run_of_afterAll .start hw)) c hc hunspent).1.mp hreserved
    rw [hnone s hs] at hp
    cases hp
  · cases hrun

/-- The wallet after a call. -/
@[irreducible] def afterCall (w : Wallet) (c : Call) : Wallet := (w.does c).toOption.getD w

theorem does_afterCall {w : Wallet} {c : Call} (h : (w.does c).isOk = true) :
    w.does c = .ok (w.afterCall c) := by
  rw [afterCall]
  cases hc : w.does c with
  | ok w' => rfl
  | error e =>
    rw [hc] at h
    cases h

def twoCoinHeld : Wallet := (restore twoCoinKeys 0).afterCall (.scanBlock 0 twoCoinBlock)

def twoCoinPaid : Wallet := twoCoinHeld.afterCall twoCoinSend

/-- The block that carries the payment. -/
def paidBlock : Batch :=
  { Batch.genesis with
    prevHeaderHash := 0
    extension := ⟨0, 0⟩
    body := (twoCoinPaid.sent.head?.bind Sent.tx).getD .empty }

def twoCoinGone : Wallet := twoCoinPaid.afterCall (.scanBlock 1 paidBlock)

def twoCoinBack : Wallet := twoCoinGone.afterCall (.rollbackTo 1)

def twoCoinFree : Wallet := twoCoinBack.afterCall (.cancelPending 0)

theorem twoCoin_calls :
    ((restore twoCoinKeys 0).does (.scanBlock 0 twoCoinBlock)).isOk = true ∧
      (twoCoinHeld.does twoCoinSend).isOk = true ∧
        (twoCoinPaid.does (.scanBlock 1 paidBlock)).isOk = true := by
  decide +kernel

theorem twoCoinPaid_run : Run Spares (restore twoCoinKeys 0) twoCoinPaid := by
  have hspares : (restore twoCoinKeys 0).Spares (.scanBlock 0 twoCoinBlock) :=
    fun c hc => nomatch hc
  have hheld : Run Spares (restore twoCoinKeys 0) twoCoinHeld :=
    .call .start hspares (does_afterCall twoCoin_calls.1)
  have hpays : twoCoinHeld.Spares twoCoinSend := trivial
  exact .call hheld hpays (does_afterCall twoCoin_calls.2.1)

theorem twoCoinFree_run : Run Spares (restore twoCoinKeys 0) twoCoinFree := by
  have hall : ∀ c ∈ twoCoinPaid.coins, c.commitment ∈ paidBlock.body.inputCommitments := by
    decide +kernel
  have hone : ∀ s ∈ twoCoinBack.sent, s.txHash = 0 := by decide +kernel
  have hspares : twoCoinPaid.Spares (.scanBlock 1 paidBlock) :=
    fun c hc _ hout => absurd (hall c hc) hout
  have hgone : Run Spares (restore twoCoinKeys 0) twoCoinGone :=
    .call twoCoinPaid_run hspares (does_afterCall twoCoin_calls.2.2)
  have hrolls : twoCoinGone.Spares (.rollbackTo 1) := trivial
  have hback : Run Spares (restore twoCoinKeys 0) twoCoinBack :=
    .call hgone hrolls (does_afterCall rfl)
  have hcancelled : twoCoinBack.Spares (.cancelPending 0) :=
    fun c _ _ _ s hwaits => hone s hwaits.1
  exact .call hback hcancelled (does_afterCall rfl)

/-- Paid, carried by a block, rolled back and cancelled. -/
theorem reservations_kept_two_coins :
    (twoCoinPaid.coins.map WalletCoin.pendingTx = [some 0, some 0] ∧ twoCoinPaid.CoinsReserved) ∧
      twoCoinGone.coins.map WalletCoin.spentHeight = [some 1, some 1, none] ∧
        twoCoinBack.coins.map WalletCoin.pendingTx = [some 0, some 0] ∧
          twoCoinFree.coins.map WalletCoin.pendingTx = [none, none] ∧ twoCoinFree.CoinsReserved :=
  ⟨⟨by decide +kernel, (reservations_kept twoCoinPaid_run).1⟩, by decide +kernel,
    by decide +kernel, by decide +kernel, (reservations_kept twoCoinFree_run).1⟩

end Example

end Wallet

end Midwimble
