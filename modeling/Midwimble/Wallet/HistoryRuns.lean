import Midwimble.Wallet.Accounts

namespace Midwimble
open Fallible WalletCore
set_option autoImplicit true

section Building

variable [Primitives]

omit [Primitives] in
theorem sum_of_checked {l : List α} {f : α → Nat} {acc total : Nat}
    (h : l.foldlM (fun acc x => checkedAdd64 acc (f x)) acc = some total) :
    total = acc + (l.map f).sum := by
  induction l generalizing acc with
  | nil => exact (Option.some.inj h).symm
  | cons a l ih =>
    rw [List.foldlM_cons] at h
    obtain ⟨next, hnext, h⟩ := Option.bind_eq_some_iff.mp h
    obtain ⟨-, rfl⟩ := checkedAdd64_eq_some.mp hnext
    rw [ih h, List.map_cons, List.sum_cons, Nat.add_assoc]

/-- A payment's inputs are worth what it pays, its fee and its change. -/
theorem buildTransaction_balances {spend : List Spendable} {changeTo : StealthAddress}
    {fee minHeight : Nat} {draw : TransactionDraw} {built : BuiltTransaction} {p : Payment}
    (h : buildTransaction spend [p] changeTo fee minHeight draw = .ok built) :
    (spend.map Spendable.value).sum =
      p.value + fee + (built.change.map Prod.snd).getD 0 := by
  obtain ⟨_, -, h⟩ := bind_eq_ok.mp h
  obtain ⟨_, -, h⟩ := bind_eq_ok.mp h
  obtain ⟨_, -, h⟩ := bind_eq_ok.mp h
  obtain ⟨totalIn, hin, h⟩ := bind_eq_ok.mp h
  obtain ⟨totalOut, hout, h⟩ := bind_eq_ok.mp h
  obtain ⟨_, hcovers, h⟩ := bind_eq_ok.mp h
  obtain ⟨paid, -, h⟩ := bind_eq_ok.mp h
  obtain ⟨back, hback, h⟩ := bind_eq_ok.mp h
  obtain ⟨group, -, h⟩ := bind_eq_ok.mp h
  obtain ⟨⟨offset, ownerOffset⟩, -, h⟩ := bind_eq_ok.mp h
  obtain ⟨_, -, h⟩ := bind_eq_ok.mp h
  obtain ⟨_, -, h⟩ := bind_eq_ok.mp h
  obtain ⟨_, -, h⟩ := bind_eq_ok.mp h
  cases h
  have hin := sum_of_checked (orBail_eq_ok.mp hin)
  have hout := sum_of_checked (orBail_eq_ok.mp hout)
  rw [bailIf_eq_ok, Nat.not_lt] at hcovers
  rw [List.map_singleton, List.sum_singleton] at hout
  unfold changeOutputs at hback
  split at hback
  · obtain ⟨c, -, hback⟩ := bind_eq_ok.mp hback
    cases hback
    simp only [List.map_cons, List.map_nil, List.head?_cons, Option.map_some, Option.getD_some]
    omega
  · cases hback
    simp only [List.map_nil, List.head?_nil, Option.map_none, Option.getD_none]
    omega

omit [Primitives] in
theorem takeCoins_taken {amount : Nat} {feeFor : Nat → Nat} {rest chosen : List WalletCoin}
    {total : Nat} {out : List WalletCoin × Nat}
    (h : takeCoins amount feeFor rest (chosen, total) = .ok out) :
    ∃ j, out.1 = chosen ++ rest.take j := by
  induction rest generalizing chosen total with
  | nil =>
    cases h
    exact ⟨0, (List.append_nil _).symm⟩
  | cons c rest ih =>
    obtain ⟨need, -, h⟩ := bind_eq_ok.mp h
    split at h
    · cases h
      exact ⟨0, (List.append_nil _).symm⟩
    · obtain ⟨j, hj⟩ := ih h
      exact ⟨j + 1, by rw [hj, List.take_succ_cons, List.append_assoc, List.singleton_append]⟩

variable {w : WalletCore}

theorem selectBy_sublist {feeFor : Nat → Nat} {out : List WalletCoin × Nat}
    (h : w.selectBy amount feeFor tipHeight = .ok out) :
    out.1.Sublist (w.candidates tipHeight) := by
  obtain ⟨_, -, h⟩ := bind_eq_ok.mp h
  obtain ⟨taken, htaken, h⟩ := bind_eq_ok.mp h
  obtain ⟨_, -, h⟩ := bind_eq_ok.mp h
  obtain ⟨_, -, h⟩ := bind_eq_ok.mp h
  cases h
  obtain ⟨j, hj⟩ := takeCoins_taken htaken
  rw [List.nil_append] at hj
  rw [hj]
  exact List.take_sublist _ _

theorem selectWith_sublist {options : SendOptions} {out : List WalletCoin × Nat}
    (h : w.selectWith amount options tipHeight = .ok out) :
    out.1.Sublist (w.candidates tipHeight) := by
  obtain ⟨rate, -, h⟩ := bind_eq_ok.mp h
  obtain ⟨named, hnamed, h⟩ := bind_eq_ok.mp h
  cases named with
  | none => exact selectBy_sublist h
  | some chosen =>
    obtain ⟨_, -, h⟩ := bind_eq_ok.mp h
    obtain ⟨_, -, h⟩ := bind_eq_ok.mp h
    obtain ⟨_, -, h⟩ := bind_eq_ok.mp h
    cases h
    have hpaying : (w.paying options rate tipHeight).Sublist (w.candidates tipHeight) :=
      paying_sublist
    rw [paying, hnamed] at hpaying
    exact hpaying

variable [Decryption]

theorem spendables_spec {coins : List WalletCoin} {spend : List Spendable}
    (hview : ∀ keys, w.keys = some keys → w.view = keys.viewOnly)
    (hopened : ∀ c ∈ coins, ∃ ok, w.view.scan c.output = some (c.value, ok))
    (h : w.spendables coins = .ok spend) :
    spend.map Spendable.commitment = coins.map WalletCoin.commitment ∧
      spend.map Spendable.value = coins.map WalletCoin.value := by
  obtain ⟨keys, hkeys, hmap⟩ := bind_eq_ok.mp h
  clear h
  have hview := hview keys (orBail_eq_ok.mp hkeys)
  induction coins generalizing spend with
  | nil =>
    cases hmap
    exact ⟨rfl, rfl⟩
  | cons c coins ih =>
    obtain ⟨s, rest, hs, hrest, rfl⟩ := mapM_cons_eq_ok.mp hmap
    obtain ⟨owned, howned, hs⟩ := bind_eq_ok.mp hs
    cases hs
    obtain ⟨⟨ok, hscan⟩, hopened⟩ := List.forall_mem_cons.mp hopened
    obtain ⟨hcommitments, hvalues⟩ := ih hopened hrest
    rw [hview, scan_viewOnly, orBail_eq_ok.mp howned] at hscan
    have hvalue : owned.value = c.value := congrArg Prod.fst (Option.some.inj hscan)
    exact ⟨by rw [List.map_cons, List.map_cons, hcommitments],
      by rw [List.map_cons, List.map_cons, hvalues, hvalue]⟩

/-- What a sent payment adds to the books. -/
structure Sends (tipHeight : Nat) (w w' : WalletCore) (change : Nat) (s : Sent) : Prop where
  view_eq : w'.view = w.view
  keys_eq : w'.keys = w.keys
  height_eq : w'.scannedHeight = w.scannedHeight
  sent_eq : w'.sent = w.sent ++ [s]
  coins_eq : w'.coins = w.coins.map fun c =>
    if c.commitment ∈ s.inputs then { c with pendingTx := some s.txHash } else c
  unsettled : s.height = none ∧ s.failedAt = none
  spends : ∃ chosen, s.inputs = chosen.map WalletCoin.commitment ∧
    chosen.Sublist (w.candidates tipHeight) ∧ totalValue chosen = s.amount + s.fee + change
  change_eq : s.change = none → change = 0

theorem finishSend_spec {payee : StealthAddress} {chosen : List WalletCoin} {spend : List Spendable}
    {draw : TransactionDraw} {w' : WalletCore} {built : BuiltSend}
    (hview : ∀ keys, w.keys = some keys → w.view = keys.viewOnly)
    (hopened : ∀ c ∈ w.coins, ∃ ok, w.view.scan c.output = some (c.value, ok))
    (hchosen : chosen.Sublist (w.candidates tipHeight)) (hspend : w.spendables chosen = .ok spend)
    (h : w.finishSend payee amount spend fee tipHeight now draw = .ok (w', built)) :
    ∃ s, Sends tipHeight w w' built.change s := by
  obtain ⟨paid, hpaid, h⟩ := bind_eq_ok.mp h
  obtain ⟨kernel, -, h⟩ := bind_eq_ok.mp h
  cases h
  obtain ⟨hcommitments, hvalues⟩ := spendables_spec hview
    (fun c hc => hopened c (mem_coins_of_mem_candidates (hchosen.subset hc))) hspend
  have hbalances := buildTransaction_balances hpaid
  rw [hvalues] at hbalances
  refine ⟨_, rfl, rfl, rfl, rfl, rfl, ⟨rfl, rfl⟩, ⟨chosen, hcommitments, hchosen, hbalances⟩, ?_⟩
  intro hnone
  rw [Option.map_eq_none_iff.mp hnone]
  rfl

theorem buildSend_spec {payee : StealthAddress} {draw : TransactionDraw} {w' : WalletCore}
    {built : BuiltSend} (hview : ∀ keys, w.keys = some keys → w.view = keys.viewOnly)
    (hopened : ∀ c ∈ w.coins, ∃ ok, w.view.scan c.output = some (c.value, ok))
    (h : w.buildSend payee amount fee tipHeight now draw = .ok (w', built)) :
    ∃ s, Sends tipHeight w w' built.change s := by
  obtain ⟨⟨chosen, fee⟩, hselected, h⟩ := bind_eq_ok.mp h
  obtain ⟨spend, hspend, h⟩ := bind_eq_ok.mp h
  exact finishSend_spec hview hopened (selectBy_sublist hselected) hspend h

theorem buildSendWith_spec {payee : StealthAddress} {options : SendOptions}
    {draw : TransactionDraw} {w' : WalletCore} {built : BuiltSend}
    (hview : ∀ keys, w.keys = some keys → w.view = keys.viewOnly)
    (hopened : ∀ c ∈ w.coins, ∃ ok, w.view.scan c.output = some (c.value, ok))
    (h : w.buildSendWith payee amount options tipHeight now draw = .ok (w', built)) :
    ∃ s, Sends tipHeight w w' built.change s := by
  obtain ⟨⟨chosen, fee⟩, hselected, h⟩ := bind_eq_ok.mp h
  obtain ⟨spend, hspend, h⟩ := bind_eq_ok.mp h
  exact finishSend_spec hview hopened (selectWith_sublist hselected) hspend h

omit [Decryption] in
/-- A new payment keeps the books, if its change is under a commitment of its own. -/
theorem Accounted.send {valueOf : Point32 → Nat} {w' : WalletCore} {s : Sent} {change : Nat}
    (h : Accounted valueOf w.scannedHeight w.coins w.sent) (hsends : Sends tipHeight w w' change s)
    (hfresh : ∀ i, s.change = some i → valueOf i = change ∧ i ∉ w.sent.filterMap Sent.change ∧
      i ∉ w.coins.map WalletCoin.commitment) :
    Accounted valueOf w'.scannedHeight w'.coins w'.sent := by
  obtain ⟨chosen, hinputs, hchosen, hbalance⟩ := hsends.spends
  obtain ⟨hheight, hfailed⟩ := hsends.unsettled
  have hmem : ∀ c ∈ chosen, c ∈ w.coins ∧ c.spentHeight = none := by
    intro c hc
    have hspendable := (candidates_perm w tipHeight).mem_iff.mp (hchosen.subset hc)
    obtain ⟨hc, hspendable⟩ := List.mem_filter.mp hspendable
    simp only [Wallet.spendable, Bool.and_eq_true, Option.isNone_iff_eq_none] at hspendable
    exact ⟨hc, hspendable.1.1⟩
  have hvalue : (s.inputs.map valueOf).sum = totalValue chosen := by
    rw [hinputs, List.map_map, totalValue]
    congr 1
    apply List.map_congr_left
    intro c hc
    exact (h.worth c (hmem c hc).1).symm
  have hreturned : s.changeValue valueOf = change := by
    unfold Sent.changeValue
    cases hchange : s.change with
    | none => exact (hsends.change_eq hchange).symm
    | some i => exact (hfresh i hchange).1
  have hlast : ∀ {t : Sent}, t ∈ w.sent ++ [s] → t ∈ w.sent ∨ t = s := by
    intro t ht
    exact (List.mem_append.mp ht).imp id List.mem_singleton.mp
  have hadded : Accounted valueOf w.scannedHeight w.coins (w.sent ++ [s]) := by
    refine ⟨h.distinct, h.worth, h.seen, ?_, ?_, ?_, ?_, ?_, ?_, ?_, ?_, ?_⟩
    · intro t ht
      rcases hlast ht with ht | rfl
      · exact h.inputs t ht
      · rw [hinputs]
        exact (nodup_candidates h.distinct).sublist (hchosen.map WalletCoin.commitment)
    · intro t ht
      rcases hlast ht with ht | rfl
      · exact h.balanced t ht
      · rw [hvalue, hreturned, hbalance]
    · rw [List.filterMap_append]
      apply List.nodup_append'.mpr
      cases hchange : s.change with
      | none => simp [hchange, h.changes]
      | some i =>
        refine ⟨h.changes, by simp [hchange], ?_⟩
        intro j hj hj'
        simp only [List.filterMap_cons, hchange, List.filterMap_nil, List.mem_singleton] at hj'
        obtain rfl := hj'
        exact (hfresh j hchange).2.1 hj
    · intro t ht
      rcases hlast ht with ht | rfl
      · exact h.dated t ht
      · rw [Wallet.Dated, hheight, hfailed]
        exact ⟨.inl rfl, fun k hk => by simp at hk⟩
    · intro t ht k hk
      rcases hlast ht with ht | rfl
      · exact h.spent t ht k hk
      · rw [hheight] at hk
        cases hk
    · intro t ht k hk
      rcases hlast ht with ht | rfl
      · exact h.returned t ht k hk
      · rw [hheight] at hk
        cases hk
    · intro t ht hnone c hc hchange
      rcases hlast ht with ht | rfl
      · exact h.unreturned t ht hnone c hc hchange
      · exact (hfresh _ hchange).2.2 (List.mem_map_of_mem hc)
    · intro t ht hnone c hc hi k hk
      rcases hlast ht with ht | rfl
      · exact h.waiting t ht hnone c hc hi k hk
      · rw [hinputs] at hi
        obtain ⟨d, hd, hdc⟩ := List.mem_map.mp hi
        obtain ⟨hd, hunspent⟩ := hmem d hd
        obtain rfl := coin_unique h.distinct hd hc hdc
        rw [hunspent] at hk
        cases hk
    · apply List.pairwise_append.mpr
      refine ⟨h.apart, List.pairwise_singleton _ _, ?_⟩
      intro t _ u hu _ hsome
      rw [List.mem_singleton.mp hu, hheight] at hsome
      cases hsome
  rw [hsends.height_eq, hsends.sent_eq, hsends.coins_eq]
  refine hadded.map_coins ?_ ?_ ?_ ?_ <;>
    intro c <;> split <;> rfl

end Building

section Runs

variable [Primitives] [Decryption]

inductive CoreCall
  | scanBlock (height : Nat) (batch : Batch)
  | rollbackTo (height : Nat)
  | buildSend («to» : StealthAddress) (amount : Nat) (fee : Option Nat) (tipHeight now : Nat)
      (draw : TransactionDraw)
  | buildSendWith («to» : StealthAddress) (amount : Nat) (options : SendOptions)
      (tipHeight now : Nat) (draw : TransactionDraw)
  | cancelPending (txHash : Bytes32)
  | discardSend (txHash : Bytes32)

namespace WalletCore

def call (w : WalletCore) : CoreCall → Result WalletCore
  | .scanBlock height batch => w.scanBlock height batch
  | .rollbackTo height => .ok (w.rollbackTo height)
  | .buildSend «to» amount fee tipHeight now draw => do
    let (w, _) ← w.buildSend «to» amount fee tipHeight now draw
    .ok w
  | .buildSendWith «to» amount options tipHeight now draw => do
    let (w, _) ← w.buildSendWith «to» amount options tipHeight now draw
    .ok w
  | .cancelPending txHash => .ok (w.cancelPending txHash)
  | .discardSend txHash => .ok (w.discardSend txHash)

/-- A wallet that has scanned nothing. -/
structure Empty (w : WalletCore) : Prop where
  coins : w.coins = []
  sent : w.sent = []
  view : ∀ keys, w.keys = some keys → w.view = keys.viewOnly

/-- What is reached through accepted calls, each allowed in the state it meets. -/
inductive Reached (allowed : WalletCore → CoreCall → Prop) : WalletCore → Prop
  | empty : w.Empty → Reached allowed w
  | call {c : CoreCall} : Reached allowed w → allowed w c → w.call c = .ok w' → Reached allowed w'

/-- What a block spends of the wallet's coins, and what it pays the wallet, fits a `u64`. -/
structure FitsBlock (w : WalletCore) (batch : Batch) : Prop where
  spends : totalValue (w.coins.filter fun c =>
    c.spentHeight.isNone && decide (c.commitment ∈ batch.body.inputCommitments)) < 2 ^ 64
  pays : (batch.created.filterMap fun o => (w.view.scan o.1).map Prod.fst).sum < 2 ^ 64

/-- A payment's change is under a commitment of its own. -/
def ReturnsFresh (valueOf : Point32 → Nat) (w : WalletCore)
    (sent : Result (WalletCore × BuiltSend)) : Prop :=
  ∀ w' built s, sent = .ok (w', built) → w'.sent = w.sent ++ [s] → ∀ i, s.change = some i →
    valueOf i = built.change ∧ i ∉ w.sent.filterMap Sent.change ∧
      i ∉ w.coins.map WalletCoin.commitment

/-- What a call must find for the history to balance: blocks that carry payments whole, of sums
that fit, and payments whose change is under a commitment of its own. -/
def Whole (valueOf : Point32 → Nat) (w : WalletCore) : CoreCall → Prop
  | .scanBlock _ batch => CarriesWhole valueOf w batch ∧ FitsBlock w batch
  | .buildSend «to» amount fee tipHeight now draw =>
    ReturnsFresh valueOf w (w.buildSend «to» amount fee tipHeight now draw)
  | .buildSendWith «to» amount options tipHeight now draw =>
    ReturnsFresh valueOf w (w.buildSendWith «to» amount options tipHeight now draw)
  | _ => True

/-- Books that agree, of coins that the view key opens. -/
structure Kept (valueOf : Point32 → Nat) (w : WalletCore) : Prop where
  accounted : Accounted valueOf w.scannedHeight w.coins w.sent
  opened : ∀ c ∈ w.coins, ∃ ok, w.view.scan c.output = some (c.value, ok)
  view : ∀ keys, w.keys = some keys → w.view = keys.viewOnly
  fits : SumsFit w.coins

variable {valueOf : Point32 → Nat} {w w' : WalletCore}

theorem Empty.kept (h : w.Empty) : w.Kept valueOf := by
  refine ⟨?_, ?_, h.view, ?_⟩
  · rw [h.coins, h.sent]
    exact ⟨List.nodup_nil, nofun, nofun, nofun, nofun, List.nodup_nil, nofun, nofun, nofun, nofun,
      nofun, .nil⟩
  · rw [h.coins]
    nofun
  · rw [h.coins]
    exact sumsFit_of_total (by decide)

/-- What a block adds to the coins of a height, and to those spent at one. -/
theorem foldl_addDetected_total (view : ViewKey) (keys : Option WalletKeys) (sent : List Sent)
    (height : Nat) (created : List (Output × Bool)) (coins : List WalletCoin) (k : Nat) :
    totalValue ((created.foldl (addDetected view keys sent height) coins).filter
        fun c => decide (c.height = k)) ≤
      totalValue (coins.filter fun c => decide (c.height = k)) +
        (if k = height then (created.filterMap fun o => (view.scan o.1).map Prod.fst).sum else 0) ∧
    totalValue ((created.foldl (addDetected view keys sent height) coins).filter
        fun c => decide (c.spentHeight = some k)) =
      totalValue (coins.filter fun c => decide (c.spentHeight = some k)) := by
  induction created generalizing coins with
  | nil =>
    refine ⟨?_, rfl⟩
    rw [List.filterMap_nil, List.sum_nil, ite_self]
    exact Nat.le_refl _
  | cons o created ih =>
    obtain ⟨hmade, hspent⟩ := ih (addDetected view keys sent height coins o)
    have hone : totalValue ((addDetected view keys sent height coins o).filter
          fun c => decide (c.height = k)) ≤
        totalValue (coins.filter fun c => decide (c.height = k)) +
          (if k = height then (((view.scan o.1).map Prod.fst).getD 0) else 0) ∧
      totalValue ((addDetected view keys sent height coins o).filter
          fun c => decide (c.spentHeight = some k)) =
        totalValue (coins.filter fun c => decide (c.spentHeight = some k)) := by
      unfold addDetected
      split
      · exact ⟨Nat.le_add_right _ _, rfl⟩
      · cases hscan : view.scan o.1 with
        | none => exact ⟨Nat.le_add_right _ _, rfl⟩
        | some p =>
          dsimp only
          split
          · by_cases hk : k = height
            · subst hk
              simp [totalValue, List.filter_append]
            · simp [totalValue, List.filter_append, hk, Ne.symm hk]
          · exact ⟨Nat.le_add_right _ _, rfl⟩
    rw [List.foldl_cons]
    refine ⟨Nat.le_trans hmade (Nat.le_trans (Nat.add_le_add_right hone.1 _) ?_),
      hspent.trans hone.2⟩
    rw [List.filterMap_cons]
    split
    · cases hscan : view.scan o.1 with
      | none => simp
      | some p =>
        simp only [Option.map_some, Option.getD_some, List.sum_cons]
        omega
    · exact Nat.le_refl _

theorem Kept.fits_scan {batch : Batch} (h : w.Kept valueOf) (hfits : FitsBlock w batch)
    (sent : List Sent) : SumsFit (coinsAfter w sent batch) := by
  have hmarked : ∀ (k : Nat), totalValue ((w.coins.map (Wallet.markSpent w.scannedHeight
      batch.body.inputCommitments)).filter fun c => decide (c.height = k)) ≤
        totalValue (w.coins.filter fun c => decide (c.height = k)) := by
    intro k
    refine totalValue_map_le (fun c => markSpent_value) fun c _ hc => ?_
    rwa [markSpent_height] at hc
  constructor
  · intro k
    have hadded := (foldl_addDetected_total w.view w.keys sent w.scannedHeight batch.created
      (w.coins.map (Wallet.markSpent w.scannedHeight batch.body.inputCommitments)) k).1
    rw [← coinsAfter] at hadded
    have hbefore := h.fits.made k
    by_cases hk : k = w.scannedHeight
    · -- no coin was made at the height before the block
      have hnone : w.coins.filter (fun c => decide (c.height = k)) = [] := by
        rw [List.filter_eq_nil_iff]
        intro c hc heq
        have hlt := (h.accounted.seen c hc).1
        rw [of_decide_eq_true heq, hk] at hlt
        exact Nat.lt_irrefl _ hlt
      have hpays := hfits.pays
      have hzero := hmarked k
      rw [hnone] at hzero
      rw [if_pos hk] at hadded
      have hnothing : totalValue [] = 0 := rfl
      omega
    · rw [if_neg hk] at hadded
      have hle := hmarked k
      omega
  · intro k
    have hadded := (foldl_addDetected_total w.view w.keys sent w.scannedHeight batch.created
      (w.coins.map (Wallet.markSpent w.scannedHeight batch.body.inputCommitments)) k).2
    rw [← coinsAfter] at hadded
    rw [hadded]
    by_cases hk : k = w.scannedHeight
    · refine Nat.lt_of_le_of_lt (totalValue_map_le (fun c => markSpent_value) fun c hc hspent => ?_)
        hfits.spends
      rcases spent_of_markSpent (of_decide_eq_true hspent) with hold | ⟨hnone, hmem, -⟩
      · have hlt := ((h.accounted.seen c hc).2 k hold).2
        omega
      · rw [hnone, decide_eq_true hmem]
        rfl
    · refine Nat.lt_of_le_of_lt (totalValue_map_le (fun c => markSpent_value) fun c _ hspent => ?_)
        (h.fits.spent k)
      rcases spent_of_markSpent (of_decide_eq_true hspent) with hold | ⟨-, -, heq⟩
      · exact decide_eq_true hold
      · exact absurd heq hk

theorem Kept.scanBlock {batch : Batch} (h : w.Kept valueOf) (hwhole : CarriesWhole valueOf w batch)
    (hfits : FitsBlock w batch) (hok : w.scanBlock height batch = .ok w') : w'.Kept valueOf := by
  obtain ⟨_, hheight, hok⟩ := bind_eq_ok.mp hok
  obtain ⟨_, -, hok⟩ := bind_eq_ok.mp hok
  cases hok
  obtain rfl := not_not.mp (bailIf_eq_ok.mp hheight)
  refine ⟨?_, ?_, h.view, h.fits_scan hfits _⟩
  · refine (h.accounted.scan hwhole _).map_sent ?_
    intro s
    unfold Wallet.forget
    split <;> exact ⟨rfl, rfl, rfl, rfl, rfl, rfl⟩
  · intro c hc
    rcases (coinsAfter_spec _ batch h.accounted.distinct).2.2.1 c hc with ⟨d, hd, rfl⟩ | hmade
    · rw [markSpent_output, markSpent_value]
      exact h.opened d hd
    · exact hmade.opens

theorem Kept.rollbackTo (h : w.Kept valueOf) (height : Nat) :
    (w.rollbackTo height).Kept valueOf := by
  have hreserve : ∀ (revived : List Sent) (c : WalletCoin),
      (revived.foldl Wallet.reserveFor c).output = c.output ∧
        (revived.foldl Wallet.reserveFor c).value = c.value ∧
        (revived.foldl Wallet.reserveFor c).height = c.height ∧
        (revived.foldl Wallet.reserveFor c).spentHeight = c.spentHeight := by
    intro revived
    induction revived with
    | nil => exact fun _ => ⟨rfl, rfl, rfl, rfl⟩
    | cons s revived ih =>
      intro c
      rw [List.foldl_cons]
      obtain ⟨houtput, hvalue, hheight, hspent⟩ := ih (Wallet.reserveFor c s)
      rw [houtput, hvalue, hheight, hspent]
      unfold Wallet.reserveFor
      split <;> exact ⟨rfl, rfl, rfl, rfl⟩
  refine ⟨?_, ?_, h.view, ?_⟩
  · unfold WalletCore.rollbackTo
    dsimp only
    rw [Wallet.foldl_reserve]
    exact (h.accounted.rollback height).map_coins (fun c => (hreserve _ c).1)
      (fun c => (hreserve _ c).2.1) (fun c => (hreserve _ c).2.2.1) fun c => (hreserve _ c).2.2.2
  · intro c hc
    unfold WalletCore.rollbackTo at hc
    dsimp only at hc
    rw [Wallet.foldl_reserve] at hc
    obtain ⟨d, hd, rfl⟩ := List.mem_map.mp hc
    obtain ⟨e, he, rfl⟩ := List.mem_map.mp hd
    rw [(hreserve _ _).1, (hreserve _ _).2.1]
    exact h.opened e (List.mem_filter.mp he).1
  · unfold WalletCore.rollbackTo
    dsimp only
    rw [Wallet.foldl_reserve, List.map_map]
    refine h.fits.map List.filter_sublist (fun c => (hreserve _ _).2.1)
      (fun c => (hreserve _ _).2.2.1) fun c k hk => ?_
    have hspent : (Wallet.unspend height c).spentHeight = some k := by
      rw [← (hreserve _ (Wallet.unspend height c)).2.2.2]
      exact hk
    exact (Option.filter_eq_some_iff.mp hspent).1

theorem Kept.cancelPending (h : w.Kept valueOf) (txHash : Bytes32) :
    (w.cancelPending txHash).Kept valueOf := by
  refine ⟨?_, ?_, h.view, ?_⟩
  · have hcoins : Accounted valueOf w.scannedHeight (w.cancelPending txHash).coins w.sent := by
      refine h.accounted.map_coins ?_ ?_ ?_ ?_ <;> intro c <;> split <;> rfl
    refine hcoins.map_sent ?_
    intro s
    split <;> exact ⟨rfl, rfl, rfl, rfl, rfl, rfl⟩
  · intro c hc
    obtain ⟨d, hd, rfl⟩ := List.mem_map.mp hc
    split <;> exact h.opened d hd
  · refine h.fits.map (List.Sublist.refl _) ?_ ?_ ?_
    · intro c
      split <;> rfl
    · intro c
      split <;> rfl
    · intro c k hk
      split at hk <;> exact hk

theorem Kept.send {sent : Result (WalletCore × BuiltSend)} {built : BuiltSend} {s : Sent}
    (h : w.Kept valueOf) (hfresh : ReturnsFresh valueOf w sent) (hok : sent = .ok (w', built))
    (hsends : Sends tipHeight w w' built.change s) : w'.Kept valueOf := by
  refine ⟨h.accounted.send hsends (hfresh _ _ _ hok hsends.sent_eq), ?_, ?_, ?_⟩
  · rw [hsends.coins_eq, hsends.view_eq]
    intro c hc
    obtain ⟨d, hd, rfl⟩ := List.mem_map.mp hc
    split <;> exact h.opened d hd
  · rw [hsends.keys_eq, hsends.view_eq]
    exact h.view
  · rw [hsends.coins_eq]
    refine h.fits.map (List.Sublist.refl _) ?_ ?_ ?_
    · intro c
      split <;> rfl
    · intro c
      split <;> rfl
    · intro c k hk
      split at hk <;> exact hk

theorem Kept.call {c : CoreCall} (h : w.Kept valueOf) (hwhole : w.Whole valueOf c)
    (hok : w.call c = .ok w') : w'.Kept valueOf := by
  cases c with
  | scanBlock height batch => exact h.scanBlock hwhole.1 hwhole.2 hok
  | rollbackTo height =>
    cases hok
    exact h.rollbackTo height
  | buildSend payee amount fee tipHeight now draw =>
    obtain ⟨⟨w'', built⟩, hbuilt, hok⟩ := bind_eq_ok.mp hok
    cases hok
    obtain ⟨s, hsends⟩ := buildSend_spec h.view h.opened hbuilt
    exact h.send hwhole hbuilt hsends
  | buildSendWith payee amount options tipHeight now draw =>
    obtain ⟨⟨w'', built⟩, hbuilt, hok⟩ := bind_eq_ok.mp hok
    cases hok
    obtain ⟨s, hsends⟩ := buildSendWith_spec h.view h.opened hbuilt
    exact h.send hwhole hbuilt hsends
  | cancelPending txHash =>
    cases hok
    exact h.cancelPending txHash
  | discardSend txHash =>
    cases hok
    have hcancelled := h.cancelPending txHash
    exact ⟨hcancelled.accounted.filter_sent _, hcancelled.opened, hcancelled.view,
      hcancelled.fits⟩

theorem Reached.kept (h : Reached (Whole valueOf) w) : w.Kept valueOf := by
  induction h with
  | empty hempty => exact hempty.kept
  | call _ hwhole hok ih => exact ih.call hwhole hok

omit [Decryption] in
theorem mem_recordedInputs {i : Point32} :
    i ∈ w.recordedInputs ↔ ∃ s ∈ w.sent, s.failedAt = none ∧ i ∈ s.inputs := by
  unfold recordedInputs
  simp only [List.mem_flatMap, List.mem_filter, Option.isNone_iff_eq_none]
  exact ⟨fun ⟨s, ⟨hs, hnone⟩, hi⟩ => ⟨s, hs, hnone, hi⟩,
    fun ⟨s, hs, hnone, hi⟩ => ⟨s, ⟨hs, hnone⟩, hi⟩⟩

def confirmed (w : WalletCore) : List Sent := w.sent.filter fun s => s.height.isSome

omit [Decryption] in
theorem mem_confirmed {s : Sent} : s ∈ w.confirmed ↔ s ∈ w.sent ∧ ∃ h, s.height = some h := by
  rw [confirmed, List.mem_filter, Option.isSome_iff_exists]

omit [Primitives] [Decryption] in
theorem sum_flatMap_inputs (sent : List Sent) :
    ((sent.flatMap Sent.inputs).map valueOf).sum =
      (sent.map fun s => (s.inputs.map valueOf).sum).sum := by
  induction sent with
  | nil => rfl
  | cons s sent ih =>
    rw [List.flatMap_cons, List.map_append, List.sum_append, ih, List.map_cons, List.sum_cons]

omit [Primitives] [Decryption] in
theorem sum_filterMap_change (sent : List Sent) :
    ((sent.filterMap Sent.change).map valueOf).sum = (sent.map (Sent.changeValue valueOf)).sum := by
  induction sent with
  | nil => rfl
  | cons s sent ih =>
    rw [List.map_cons, List.sum_cons, ← ih, Sent.changeValue]
    cases hchange : s.change with
    | none => rw [List.filterMap_cons_none hchange, Option.map_none, Option.getD_none, Nat.zero_add]
    | some i =>
      rw [List.filterMap_cons_some hchange, List.map_cons, List.sum_cons, Option.map_some,
        Option.getD_some]

theorem Kept.recorded_spent (h : w.Kept valueOf) :
    (w.coins.filter fun c => c.spentHeight.isSome && decide (c.commitment ∈ w.recordedInputs)) =
      w.coins.filter fun c => decide (c.commitment ∈ w.confirmed.flatMap Sent.inputs) := by
  apply List.filter_congr
  intro c hc
  rw [Bool.eq_iff_iff, Bool.and_eq_true, decide_eq_true_eq, decide_eq_true_eq, mem_recordedInputs,
    List.mem_flatMap]
  constructor
  · rintro ⟨hspent, s, hs, hnone, hi⟩
    obtain ⟨k, hk⟩ := Option.isSome_iff_exists.mp hspent
    refine ⟨s, mem_confirmed.mpr ⟨hs, ?_⟩, hi⟩
    cases hheight : s.height with
    | some j => exact ⟨j, rfl⟩
    | none =>
      obtain ⟨j, hj, -⟩ := h.accounted.waiting s hs hheight c hc hi k hk
      rw [hnone] at hj
      cases hj
  · rintro ⟨s, hs, hi⟩
    obtain ⟨hs, k, hk⟩ := mem_confirmed.mp hs
    obtain ⟨d, hd, hdi, hdk⟩ := h.accounted.spent s hs k hk _ hi
    obtain rfl := coin_unique h.accounted.distinct hd hc hdi
    refine ⟨Option.isSome_iff_exists.mpr ⟨k, hdk⟩, s, hs, ?_, hi⟩
    rcases (h.accounted.dated s hs).1 with hnone | hnone
    · rw [hk] at hnone
      cases hnone
    · exact hnone

theorem Kept.recorded_change (h : w.Kept valueOf) :
    (w.coins.filter fun c => decide (c.commitment ∈ w.recordedChange)) =
      w.coins.filter fun c => decide (c.commitment ∈ w.confirmed.filterMap Sent.change) := by
  apply List.filter_congr
  intro c hc
  rw [Bool.eq_iff_iff, decide_eq_true_eq, decide_eq_true_eq, recordedChange, List.mem_filterMap,
    List.mem_filterMap]
  constructor
  · rintro ⟨s, hs, hchange⟩
    refine ⟨s, mem_confirmed.mpr ⟨hs, ?_⟩, hchange⟩
    cases hheight : s.height with
    | some j => exact ⟨j, rfl⟩
    | none => exact absurd hchange (h.accounted.unreturned s hs hheight c hc)
  · rintro ⟨s, hs, hchange⟩
    exact ⟨s, (mem_confirmed.mp hs).1, hchange⟩

/-- What recorded payments spent is what they sent, their fees and the change that came back. -/
theorem Kept.payments_balance (h : w.Kept valueOf) :
    totalValue (w.coins.filter fun c =>
        c.spentHeight.isSome && decide (c.commitment ∈ w.recordedInputs)) =
      totalValue (w.coins.filter fun c => decide (c.commitment ∈ w.recordedChange)) +
        w.paidOut := by
  have hinputs : (w.confirmed.flatMap Sent.inputs).Nodup := by
    rw [List.nodup_flatMap]
    refine ⟨fun s hs => h.accounted.inputs s (mem_confirmed.mp hs).1, ?_⟩
    refine (h.accounted.apart.sublist List.filter_sublist).imp_of_mem ?_
    intro s t hs ht hst
    exact hst (List.mem_filter.mp hs).2 (List.mem_filter.mp ht).2
  have hheld : ∀ i ∈ w.confirmed.flatMap Sent.inputs, i ∈ w.coins.map WalletCoin.commitment := by
    intro i hi
    obtain ⟨s, hs, hi⟩ := List.mem_flatMap.mp hi
    obtain ⟨hs, k, hk⟩ := mem_confirmed.mp hs
    obtain ⟨c, hc, hci, -⟩ := h.accounted.spent s hs k hk i hi
    exact List.mem_map.mpr ⟨c, hc, hci⟩
  have hchanges : (w.confirmed.filterMap Sent.change).Nodup :=
    h.accounted.changes.sublist (List.filter_sublist.filterMap Sent.change)
  have hback : ∀ i ∈ w.confirmed.filterMap Sent.change,
      i ∈ w.coins.map WalletCoin.commitment := by
    intro i hi
    obtain ⟨s, hs, hi⟩ := List.mem_filterMap.mp hi
    obtain ⟨hs, k, hk⟩ := mem_confirmed.mp hs
    obtain ⟨c, hc, hci, -⟩ := h.accounted.returned s hs k hk i hi
    exact List.mem_map.mpr ⟨c, hc, hci⟩
  have hspent := Fibers.sum_filter_mem h.accounted.distinct hinputs hheld h.accounted.worth
  have hreturned := Fibers.sum_filter_mem h.accounted.distinct hchanges hback h.accounted.worth
  rw [sum_flatMap_inputs] at hspent
  rw [sum_filterMap_change] at hreturned
  have hbalance : (w.confirmed.map fun s => (s.inputs.map valueOf).sum).sum =
      (w.confirmed.map (Sent.changeValue valueOf)).sum + w.paidOut := by
    rw [paidOut, ← confirmed, ← List.sum_map_add]
    congr 1
    apply List.map_congr_left
    intro s hs
    rw [h.accounted.balanced s (mem_confirmed.mp hs).1, Nat.add_comm]
  rw [h.recorded_spent, h.recorded_change, totalValue, totalValue, hspent, hreturned, hbalance]

theorem Kept.balances (h : w.Kept valueOf) (incoming : List Incoming) (tipHeight : Nat) :
    w.credits incoming tipHeight = w.unspentValue + w.debits incoming tipHeight := by
  rw [balances_iff h.fits]
  have hpayments := h.payments_balance
  have hreceipts := Fibers.sum_filter_add_sum_filter_not (fun c : WalletCoin =>
    decide (c.commitment ∈ w.recordedChange)) w.coins (f := WalletCoin.value)
  have hkept : (w.coins.filter fun c => !decide (c.commitment ∈ w.recordedChange)) =
      w.receipts := by
    apply List.filter_congr
    intro c _
    rw [decide_not]
  have hcoins := @sum_coins _ w
  rw [hkept] at hreceipts
  unfold totalValue at *
  omega

end WalletCore

open WalletCore

/-- In every run whose blocks carry recorded payments whole, of sums that fit, and whose payments
return change under commitments of their own, the history balances. -/
theorem history_balances {valueOf : Point32 → Nat} {w : WalletCore}
    (h : Reached (Whole valueOf) w) (incoming : List Incoming) (tipHeight : Nat) :
    w.credits incoming tipHeight = w.unspentValue + w.debits incoming tipHeight :=
  h.kept.balances incoming tipHeight

end Runs

section Late

/-- Words, with range proofs as long as one or two outputs take. -/
local instance lateWords : Primitives :=
  { Primitives.words with rangeProve := fun n _ _ _ _ => some (List.replicate (608 + 64 * n) 0) }

local instance lateOpening : Decryption := ⟨fun _ _ data => some (data.take 40)⟩

def lateKeys : WalletKeys := ⟨1, 1, 0⟩

def lateOutput : Output where
  commitment := 10000 <<< 128 + 1
  ownerKey := 1 <<< 128
  ephemeralKey := 1
  viewTag := 0
  payload := List.replicate 24 0 ++ [0, 0, 0, 0, 0, 0, 0x27, 0x10] ++ List.replicate 31 0 ++ [1] ++
    List.replicate 16 0
  recoveryCommitment := 0

def lateBlock (body : Transaction) : Batch :=
  { Batch.genesis with
    prevHeaderHash := 0
    extension := ⟨0, 0⟩
    body := body
    coinbase := none }

def paysLate : Batch := lateBlock ⟨⟨[], [⟨[lateOutput], []⟩], []⟩, 0, 0⟩

def spendsLate : Batch :=
  lateBlock ⟨⟨[⟨lateOutput.commitment, lateOutput.ownerKey, ⟨0, 0⟩⟩], [], []⟩, 0, 0⟩

local instance atLeastTwo : Nat.AtLeastTwo 7 := inferInstance

def lateSend : CoreCall :=
  .buildSend ⟨1 <<< 128, 2 <<< 128, 0⟩ 1000 none 1 0
    ⟨fun _ => ⟨1, 7, List.replicate 24 0⟩, id, [], fun _ => 0, [(1, 2)], 0⟩

def lateWallet : WalletCore := ⟨lateKeys.viewOnly, some lateKeys, 0, [], [], []⟩

def afterCoreCalls (w : WalletCore) (calls : List CoreCall) : Result WalletCore :=
  calls.foldlM WalletCore.call w

def firstSent (w : WalletCore) : Transaction := (w.sent.head?.bind Sent.tx).getD .empty

/-- A coin arrives, a payment is built, another copy of the wallet spends the coin, the coin's
output is made again, and a block carries the payment. -/
def lateRun : Result WalletCore := do
  let w ← afterCoreCalls lateWallet [.scanBlock 0 paysLate, lateSend]
  afterCoreCalls w [.scanBlock 1 spendsLate, .scanBlock 2 paysLate,
    .scanBlock 3 (lateBlock (firstSent w))]

theorem reached_of_calls {w w' : WalletCore} {calls : List CoreCall}
    (h : Reached (fun _ _ => True) w) (hok : afterCoreCalls w calls = .ok w') :
    Reached (fun _ _ => True) w' := by
  induction calls generalizing w with
  | nil =>
    obtain rfl := pure_eq_ok.mp hok
    exact h
  | cons c calls ih =>
    obtain ⟨mid, hmid, hrest⟩ := foldlM_cons_eq_ok.mp hok
    exact ih (h.call trivial hmid) hrest

theorem lateWallet_empty : lateWallet.Empty where
  coins := rfl
  sent := rfl
  view := by
    intro keys hkeys
    obtain rfl := Option.some.inj hkeys
    rfl

/-- A payment that confirms after it failed leaves its change in the balance and out of the
history. -/
theorem late_payment_unbalances :
    ¬ ∀ w : WalletCore, Reached (fun _ _ => True) w → ∀ incoming tipHeight,
      w.credits incoming tipHeight = w.unspentValue + w.debits incoming tipHeight := by
  intro hall
  have hrun : (match lateRun with
      | .ok w => decide (totalValue w.coins < 2 ^ 64 ∧ w.unspentValue + w.paidOut +
          totalValue (w.coins.filter fun c => (w.unknownSpend c).isSome) ≠ totalValue w.receipts)
      | .error _ => false) = true := by
    decide +kernel
  split at hrun
  · rename_i w hw
    obtain ⟨mid, hmid, hlate⟩ := bind_eq_ok.mp hw
    have hreached := reached_of_calls (reached_of_calls (.empty lateWallet_empty) hmid) hlate
    obtain ⟨hfit, hne⟩ := of_decide_eq_true hrun
    exact hne ((balances_iff (sumsFit_of_total hfit) [] 4).mp (hall w hreached [] 4))
  · cases hrun

def paidOutput (value : Nat) (blinding : UInt8) : Output :=
  { lateOutput with
    commitment := BitVec.ofNat 256 value <<< 128 + BitVec.ofNat 256 blinding.toNat
    payload := List.replicate 24 0 ++ (Bytes.le 8 value).reverse ++ List.replicate 31 0 ++
      [blinding] ++ List.replicate 16 0 }

/-- The coin, and one of 3000 beside it. -/
def paysTwo : Batch := lateBlock ⟨⟨[], [⟨[lateOutput, paidOutput 3000 2], []⟩], []⟩, 0, 0⟩

def paidDraw : TransactionDraw :=
  ⟨fun _ => ⟨1, 7, List.replicate 24 0⟩, id, [], fun _ => 0, [(1, 2)], 0⟩

def paidSend : CoreCall := .buildSend ⟨1 <<< 128, 2 <<< 128, 0⟩ 1000 (some 5000) 1 0 paidDraw

/-- Another copy of the wallet spends the coin of 3000, and 1200 of it come back. -/
def netsThird : Batch :=
  lateBlock ⟨⟨[⟨(paidOutput 3000 2).commitment, lateOutput.ownerKey, ⟨0, 0⟩⟩],
    [⟨[paidOutput 1200 3], []⟩], []⟩, 0, 0⟩

/-- The wallet after a call. -/
@[irreducible] def lateAfter (w : WalletCore) (c : CoreCall) : WalletCore := (w.call c).toOption.getD w

def paidFirst : WalletCore := lateAfter lateWallet (.scanBlock 0 paysTwo)

def paidSecond : WalletCore := lateAfter paidFirst paidSend

def carriesPayment : Batch := lateBlock (firstSent paidSecond)

def paidThird : WalletCore := lateAfter paidSecond (.scanBlock 1 carriesPayment)

def paidLast : WalletCore := lateAfter paidThird (.scanBlock 2 netsThird)

/-- Under these words a commitment is its value and its blinding side by side. -/
def paidValue (commitment : Point32) : Nat := (commitment >>> 128).toNat

theorem call_lateAfter {w : WalletCore} {c : CoreCall} (h : (w.call c).isOk = true) :
    w.call c = .ok (lateAfter w c) := by
  rw [lateAfter]
  cases hc : w.call c with
  | ok w' => rfl
  | error e =>
    rw [hc] at h
    cases h

theorem whole_of_checks {w : WalletCore} {batch : Batch}
    (hopens : ∀ o ∈ batch.created, ∀ p ∈ w.view.scan o.1, p.1 = paidValue o.1.commitment)
    (hone : w.sent.length ≤ 1)
    (hcarried : ∀ s ∈ w.sent, s.carriedBy batch.body.kernelIds = true →
      (∀ i ∈ s.inputs, i ∈ batch.body.inputCommitments ∧
        ∃ c ∈ w.coins, c.commitment = i ∧ c.spentHeight = none) ∧
      ∀ i ∈ s.change, ∃ o ∈ batch.created, o.1.commitment = i ∧ Recognises w.view w.keys o.1)
    (honly : ∀ s ∈ w.sent, s.height = none → ∀ o ∈ batch.created,
      s.change = some o.1.commitment → s.carriedBy batch.body.kernelIds = true)
    (hfits : totalValue w.coins < 2 ^ 64 ∧
      (batch.created.filterMap fun o => (w.view.scan o.1).map Prod.fst).sum < 2 ^ 64)
    (height : Nat) : Whole paidValue w (.scanBlock height batch) := by
  refine ⟨⟨hopens, fun s hs hc => (hcarried s hs hc).1, ?_, fun s hs hc => (hcarried s hs hc).2,
    honly⟩, ?_, hfits.2⟩
  · match hsent : w.sent with
    | [] => exact .nil
    | [s] => exact List.pairwise_singleton _ _
    | s :: t :: rest =>
      rw [hsent] at hone
      exact absurd hone (by simp)
  · exact Nat.lt_of_le_of_lt (totalValue_le_of_sublist List.filter_sublist) hfits.1

instance (view : ViewKey) (keys : Option WalletKeys) (output : Output) :
    Decidable (Recognises view keys output) :=
  inferInstanceAs (Decidable (_ ∧ _))

theorem paid_calls :
    (lateWallet.call (.scanBlock 0 paysTwo)).isOk = true ∧ (paidFirst.call paidSend).isOk = true ∧
      (paidSecond.call (.scanBlock 1 carriesPayment)).isOk = true ∧
        (paidThird.call (.scanBlock 2 netsThird)).isOk = true := by
  decide +kernel

theorem paidFirst_whole : Whole paidValue lateWallet (.scanBlock 0 paysTwo) :=
  whole_of_checks (by decide +kernel) (by decide +kernel) (by decide +kernel) (by decide +kernel)
    (by decide +kernel) 0

theorem paidSecond_whole : Whole paidValue paidFirst paidSend := by
  have hchange : (paidFirst.buildSend ⟨1 <<< 128, 2 <<< 128, 0⟩ 1000 (some 5000) 1 0
      paidDraw).toOption.map (fun r => r.2.change) = some 4000 := by
    decide +kernel
  have hsent : (paidFirst.buildSend ⟨1 <<< 128, 2 <<< 128, 0⟩ 1000 (some 5000) 1 0
      paidDraw).toOption.map (fun r => r.1.sent.filterMap Sent.change) =
        some [BitVec.ofNat 256 (4000 * 2 ^ 128 + 7)] := by
    decide +kernel
  have hnone : paidFirst.sent.filterMap Sent.change = [] := by decide +kernel
  have hfresh : BitVec.ofNat 256 (4000 * 2 ^ 128 + 7) ∉
      paidFirst.coins.map WalletCoin.commitment := by
    decide +kernel
  have hvalue : paidValue (BitVec.ofNat 256 (4000 * 2 ^ 128 + 7)) = 4000 := by decide
  intro w' built s hok hadded i hi
  rw [hok] at hchange hsent
  have hmem : i ∈ w'.sent.filterMap Sent.change := by
    rw [hadded]
    exact List.mem_filterMap.mpr ⟨s, List.mem_append_right _ (List.mem_singleton_self s), hi⟩
  have hone : w'.sent.filterMap Sent.change = [BitVec.ofNat 256 (4000 * 2 ^ 128 + 7)] :=
    Option.some.inj hsent
  rw [hone] at hmem
  obtain rfl := List.mem_singleton.mp hmem
  rw [hnone]
  exact ⟨hvalue.trans (Option.some.inj hchange).symm, List.not_mem_nil, hfresh⟩

theorem paidThird_whole : Whole paidValue paidSecond (.scanBlock 1 carriesPayment) := by
  have hinputs : paidSecond.sent.map Sent.inputs = [[lateOutput.commitment]] := by decide +kernel
  have hchange : paidSecond.sent.map Sent.change =
      [some (BitVec.ofNat 256 (4000 * 2 ^ 128 + 7))] := by
    decide +kernel
  have hspent : lateOutput.commitment ∈ carriesPayment.body.inputCommitments ∧
      (lateOutput.commitment, none) ∈
        paidSecond.coins.map fun c => (c.commitment, c.spentHeight) := by
    decide +kernel
  have hmade : ∃ o ∈ carriesPayment.created,
      o.1.commitment = BitVec.ofNat 256 (4000 * 2 ^ 128 + 7) ∧
        Recognises paidSecond.view paidSecond.keys o.1 := by
    decide +kernel
  refine whole_of_checks (by decide +kernel) (by decide +kernel) ?_ (by decide +kernel)
    (by decide +kernel) 1
  intro s hs _
  constructor
  · intro i hi
    have hone := List.mem_map_of_mem (f := Sent.inputs) hs
    rw [hinputs, List.mem_singleton] at hone
    rw [hone, List.mem_singleton] at hi
    obtain ⟨c, hc, heq⟩ := List.mem_map.mp hspent.2
    obtain ⟨hcommitment, hunspent⟩ := Prod.mk.inj heq
    rw [hi]
    exact ⟨hspent.1, c, hc, hcommitment, hunspent⟩
  · intro i hi
    have hone := List.mem_map_of_mem (f := Sent.change) hs
    rw [hchange, List.mem_singleton] at hone
    obtain rfl := Option.some.inj (hone.symm.trans hi)
    exact hmade

theorem paidLast_whole : Whole paidValue paidThird (.scanBlock 2 netsThird) := by
  have hsettled : ∀ s ∈ paidThird.sent, s.carriedBy netsThird.body.kernelIds = false := by
    decide +kernel
  refine whole_of_checks (by decide +kernel) (by decide +kernel) ?_ (by decide +kernel)
    (by decide +kernel) 2
  intro s hs hcarried
  rw [hsettled s hs] at hcarried
  cases hcarried

theorem paidLast_reached : Reached (Whole paidValue) paidLast := by
  have hfirst : Reached (Whole paidValue) paidFirst :=
    .call (.empty lateWallet_empty) paidFirst_whole (call_lateAfter paid_calls.1)
  have hsecond : Reached (Whole paidValue) paidSecond :=
    .call hfirst paidSecond_whole (call_lateAfter paid_calls.2.1)
  have hthird : Reached (Whole paidValue) paidThird :=
    .call hsecond paidThird_whole (call_lateAfter paid_calls.2.2.1)
  exact .call hthird paidLast_whole (call_lateAfter paid_calls.2.2.2)

/-- The payment, its change, what the other copy spent and what came back, each once. -/
theorem history_balances_paid :
    paidLast.coins.map (fun c => (c.value, c.spentHeight)) =
        [(10000, some 1), (3000, some 2), (4000, none), (1200, none)] ∧
      paidLast.netDebits = 1800 ∧ paidLast.paidOut = 6000 ∧
        paidLast.credits [] 3 = paidLast.unspentValue + paidLast.debits [] 3 :=
  ⟨by decide +kernel, by decide +kernel, by decide +kernel,
    history_balances paidLast_reached [] 3⟩

end Late

end Midwimble
