import Midwimble.Core.History
import Midwimble.Lib.Fibers
import Midwimble.Wallet.Sending

namespace Midwimble
open Fallible WalletCore
set_option autoImplicit true

namespace HistoryEntry

/-- Whether an entry is of a block: confirmed, or a reward not mature yet. -/
def settled (e : HistoryEntry) : Bool := e.status = .confirmed || e.status = .immature

/-- What a received or mined entry adds to the balance. -/
def credit (e : HistoryEntry) : Nat :=
  if e.settled ∧ e.kind ≠ .sent then e.value else 0

/-- What a sent entry takes from it; an undetailed one pays no fee. -/
def debit (e : HistoryEntry) : Nat :=
  if e.settled ∧ e.kind = .sent then e.value + e.fee.getD 0 else 0

end HistoryEntry

open HistoryEntry

namespace WalletCore

theorem coinEntry_settled (tipHeight : Nat) (c : WalletCoin) :
    (coinEntry tipHeight c).settled = true := by
  unfold coinEntry settled
  cases isMature tipHeight c <;> rfl

theorem coinEntry_credit (tipHeight : Nat) (c : WalletCoin) :
    (coinEntry tipHeight c).credit = c.value := by
  have hkind : (coinEntry tipHeight c).kind ≠ .sent := by
    unfold coinEntry
    cases c.coinbase <;> simp
  rw [credit, if_pos ⟨coinEntry_settled tipHeight c, hkind⟩]
  rfl

theorem coinEntry_debit (tipHeight : Nat) (c : WalletCoin) :
    (coinEntry tipHeight c).debit = 0 := by
  have hkind : (coinEntry tipHeight c).kind ≠ .sent := by
    unfold coinEntry
    cases c.coinbase <;> simp
  rw [debit, if_neg (fun h => hkind h.2)]

theorem sentEntry_credit (s : Sent) : (sentEntry s).credit = 0 := by
  rw [credit, if_neg]
  rintro ⟨-, hkind⟩
  exact hkind rfl

theorem sentEntry_debit (s : Sent) :
    (sentEntry s).debit = if s.height.isSome then s.amount + s.fee else 0 := by
  unfold sentEntry debit settled
  cases s.height with
  | some h => simp
  | none => cases s.cancelled <;> cases s.failedAt <;> simp

theorem incomingEntry_credit (i : Incoming) : (incomingEntry i).credit = 0 := by
  rw [credit, if_neg]
  rintro ⟨hsettled, -⟩
  cases hsettled

theorem incomingEntry_debit (i : Incoming) : (incomingEntry i).debit = 0 := by
  rw [debit, if_neg]
  rintro ⟨hsettled, -⟩
  cases hsettled

theorem sum_filter_value {es : List HistoryEntry} {f : HistoryEntry → Nat}
    (hf : ∀ e, e.value = 0 → e ∈ es → f e = 0) :
    ((es.filter fun e => e.value ≠ 0).map f).sum = (es.map f).sum := by
  induction es with
  | nil => rfl
  | cons e es ih =>
    have ih := ih fun e he hmem => hf e he (List.mem_cons_of_mem _ hmem)
    rw [List.map_cons, List.sum_cons, ← ih]
    by_cases he : e.value = 0
    · rw [List.filter_cons_of_neg (by simp [he]), hf e he List.mem_cons_self, Nat.zero_add]
    · rw [List.filter_cons_of_pos (by simp [he]), List.map_cons, List.sum_cons]

theorem sum_map_zero {f : α → Nat} (l : List α) (h : ∀ a, f a = 0) : (l.map f).sum = 0 := by
  induction l with
  | nil => rfl
  | cons a l ih => rw [List.map_cons, List.sum_cons, h, ih]

variable [Primitives]

variable {w : WalletCore}

/-- The total value of the unspent coins. -/
def unspentValue (w : WalletCore) : Nat :=
  totalValue (w.coins.filter fun c => c.spentHeight.isNone)

def credits (w : WalletCore) (incoming : List Incoming) (tipHeight : Nat) : Nat :=
  ((w.history incoming tipHeight).map credit).sum

def debits (w : WalletCore) (incoming : List Incoming) (tipHeight : Nat) : Nat :=
  ((w.history incoming tipHeight).map debit).sum

/-- What confirmed payments sent and paid in fees. -/
def paidOut (w : WalletCore) : Nat :=
  ((w.sent.filter fun s => s.height.isSome).map fun s => s.amount + s.fee).sum

/-- What blocks spent without a record beyond what they paid back. -/
def netDebits (w : WalletCore) : Nat :=
  (w.unknownHeights.map fun h => w.unknownValue h - w.foldedValue h).sum

theorem netEntry_credit (height : Nat) :
    (w.netEntry height).credit = w.foldedValue height - w.unknownValue height := by
  unfold netEntry credit settled
  by_cases h : w.unknownValue height ≥ w.foldedValue height
  · simp [h]
  · simp [h]

theorem netEntry_debit (height : Nat) :
    (w.netEntry height).debit = w.unknownValue height - w.foldedValue height := by
  unfold netEntry debit settled
  by_cases h : w.unknownValue height ≥ w.foldedValue height
  · simp [h]
  · simp only [h]
    simp
    omega

theorem sum_history {f : HistoryEntry → Nat}
    (hf : ∀ h, (w.netEntry h).value = 0 → f (w.netEntry h) = 0) (incoming : List Incoming)
    (tipHeight : Nat) :
    ((w.history incoming tipHeight).map f).sum =
      ((w.receipts.filter fun c => !w.folds c).map (f ∘ coinEntry tipHeight)).sum +
        (w.unknownHeights.map (f ∘ w.netEntry)).sum + (incoming.map (f ∘ incomingEntry)).sum +
        (w.sent.map (f ∘ sentEntry)).sum := by
  have hnets : (((w.unknownHeights.map w.netEntry).filter fun e => e.value ≠ 0).map f).sum =
      (w.unknownHeights.map (f ∘ w.netEntry)).sum := by
    rw [sum_filter_value, List.map_map]
    intro e he hmem
    obtain ⟨h, -, rfl⟩ := List.mem_map.mp hmem
    exact hf h he
  rw [history, ((List.mergeSort_perm _ _).map f).sum_eq]
  simp only [List.map_append, List.sum_append, List.map_map]
  rw [← hnets]

theorem netEntry_value_zero {height : Nat} (h : (w.netEntry height).value = 0) :
    w.foldedValue height - w.unknownValue height = 0 ∧
      w.unknownValue height - w.foldedValue height = 0 := by
  unfold netEntry at h
  dsimp only at h
  split at h <;> omega

theorem debits_eq (incoming : List Incoming) (tipHeight : Nat) :
    w.debits incoming tipHeight = w.netDebits + w.paidOut := by
  have hnet : ∀ h, (w.netEntry h).value = 0 → (w.netEntry h).debit = 0 := fun h hv =>
    (netEntry_debit h).trans (netEntry_value_zero hv).2
  have hnets : debit ∘ w.netEntry = fun h => w.unknownValue h - w.foldedValue h :=
    funext netEntry_debit
  have hsent : (w.sent.map (debit ∘ sentEntry)).sum = w.paidOut := by
    rw [paidOut]
    induction w.sent with
    | nil => rfl
    | cons s sent ih =>
      rw [List.map_cons, List.sum_cons, ih, Function.comp_apply, sentEntry_debit]
      by_cases hs : s.height.isSome
      · rw [if_pos hs, List.filter_cons_of_pos (p := fun s : Sent => s.height.isSome) hs,
          List.map_cons, List.sum_cons]
      · rw [if_neg hs, List.filter_cons_of_neg (p := fun s : Sent => s.height.isSome) hs,
          Nat.zero_add]
  rw [debits, sum_history hnet, hsent, hnets, ← netDebits,
    sum_map_zero (f := debit ∘ coinEntry tipHeight) _ (coinEntry_debit tipHeight),
    sum_map_zero (f := debit ∘ incomingEntry) _ incomingEntry_debit, Nat.zero_add, Nat.add_zero]

/-- What the coins of a block are worth, and what a block spent, fits a `u64`. -/
structure SumsFit (coins : List WalletCoin) : Prop where
  made : ∀ h, totalValue (coins.filter fun c => decide (c.height = h)) < 2 ^ 64
  spent : ∀ h, totalValue (coins.filter fun c => decide (c.spentHeight = some h)) < 2 ^ 64

omit [Primitives] in
theorem totalValue_map_le {f : WalletCoin → WalletCoin} {q r : WalletCoin → Bool}
    {coins : List WalletCoin} (hvalue : ∀ c, (f c).value = c.value)
    (h : ∀ c ∈ coins, q (f c) = true → r c = true) :
    totalValue ((coins.map f).filter q) ≤ totalValue (coins.filter r) := by
  unfold totalValue
  induction coins with
  | nil => exact Nat.le_refl 0
  | cons c coins ih =>
    have ih := ih fun d hd => h d (List.mem_cons_of_mem _ hd)
    rw [List.map_cons]
    by_cases hq : q (f c) = true
    · rw [List.filter_cons_of_pos hq, List.filter_cons_of_pos (h c List.mem_cons_self hq),
        List.map_cons, List.map_cons, List.sum_cons, List.sum_cons, hvalue]
      exact Nat.add_le_add_left ih _
    · rw [List.filter_cons_of_neg hq]
      refine Nat.le_trans ih ?_
      rw [List.filter_cons]
      split
      · rw [List.map_cons, List.sum_cons]
        exact Nat.le_add_left _ _
      · exact Nat.le_refl _

omit [Primitives] in
theorem totalValue_filter_le {q r : WalletCoin → Bool} {coins : List WalletCoin}
    (h : ∀ c ∈ coins, q c = true → r c = true) :
    totalValue (coins.filter q) ≤ totalValue (coins.filter r) := by
  have hsame := @totalValue_map_le id q r coins (fun _ => rfl) h
  rwa [List.map_id] at hsame

omit [Primitives] in
theorem sumsFit_of_total {coins : List WalletCoin} (h : totalValue coins < 2 ^ 64) :
    SumsFit coins where
  made _ := Nat.lt_of_le_of_lt (totalValue_le_of_sublist List.filter_sublist) h
  spent _ := Nat.lt_of_le_of_lt (totalValue_le_of_sublist List.filter_sublist) h

omit [Primitives] in
theorem SumsFit.map {coins kept : List WalletCoin} {f : WalletCoin → WalletCoin} (h : SumsFit coins)
    (hkept : kept.Sublist coins) (hvalue : ∀ c, (f c).value = c.value)
    (hheight : ∀ c, (f c).height = c.height)
    (hspent : ∀ c k, (f c).spentHeight = some k → c.spentHeight = some k) :
    SumsFit (kept.map f) where
  made k := by
    refine Nat.lt_of_le_of_lt (totalValue_map_le hvalue fun c _ hc => ?_)
      (Nat.lt_of_le_of_lt (totalValue_le_of_sublist (hkept.filter fun c => decide (c.height = k)))
        (h.made k))
    rwa [hheight] at hc
  spent k := by
    refine Nat.lt_of_le_of_lt (totalValue_map_le hvalue fun c _ hc => ?_)
      (Nat.lt_of_le_of_lt
        (totalValue_le_of_sublist (hkept.filter fun c => decide (c.spentHeight = some k)))
        (h.spent k))
    exact decide_eq_true (hspent c k (of_decide_eq_true hc))

theorem unknownValue_eq (hfit : SumsFit w.coins) (height : Nat) :
    w.unknownValue height = totalValue (w.coins.filter fun c => w.unknownSpend c = some height) := by
  apply Nat.mod_eq_of_lt
  refine Nat.lt_of_le_of_lt (totalValue_filter_le fun c _ hc => ?_) (hfit.spent height)
  have hc := of_decide_eq_true hc
  unfold unknownSpend at hc
  split at hc
  · cases hc
  · exact decide_eq_true hc

theorem foldedValue_eq (hfit : SumsFit w.coins) (height : Nat) :
    w.foldedValue height =
      totalValue (w.receipts.filter fun c => w.folds c && decide (c.height = height)) := by
  apply Nat.mod_eq_of_lt
  refine Nat.lt_of_le_of_lt ?_ (hfit.made height)
  refine Nat.le_trans (totalValue_filter_le fun c _ hc => (Bool.and_eq_true_iff.mp hc).2) ?_
  exact totalValue_le_of_sublist (List.filter_sublist.filter _)

/-- A coin's height, where it is netted. -/
def foldHeight (w : WalletCore) (c : WalletCoin) : Option Nat :=
  if w.folds c then some c.height else none

theorem nodup_unknownHeights : w.unknownHeights.Nodup := Finset.sort_nodup _ _

theorem mem_unknownHeights {height : Nat} (hc : c ∈ w.coins)
    (h : w.unknownSpend c = some height) : height ∈ w.unknownHeights :=
  (Finset.mem_sort _).mpr (List.mem_toFinset.mpr (List.mem_filterMap.mpr ⟨c, hc, h⟩))

theorem sum_unknownValue (hfit : SumsFit w.coins) :
    (w.unknownHeights.map w.unknownValue).sum =
      totalValue (w.coins.filter fun c => (w.unknownSpend c).isSome) := by
  rw [List.map_congr_left fun h _ => unknownValue_eq hfit h]
  exact Fibers.sum_fibers nodup_unknownHeights fun _ hc _ h => mem_unknownHeights hc h

theorem sum_foldedValue (hfit : SumsFit w.coins) :
    (w.unknownHeights.map w.foldedValue).sum = totalValue (w.receipts.filter w.folds) := by
  have hsome : ∀ c, (w.foldHeight c).isSome = w.folds c := by
    intro c
    unfold foldHeight
    cases w.folds c <;> rfl
  have hfold : w.foldedValue = fun h =>
      totalValue (w.receipts.filter fun c => w.foldHeight c = some h) := by
    funext h
    rw [foldedValue_eq hfit]
    congr 1
    apply List.filter_congr
    intro c _
    unfold foldHeight
    cases w.folds c <;> simp
  have hfibers := @Fibers.sum_fibers _ _ WalletCoin.value _ w.foldHeight w.unknownHeights
    nodup_unknownHeights w.receipts (fun c _ h hc => by
      unfold foldHeight at hc
      split at hc
      · rename_i hfolds
        obtain rfl := Option.some.inj hc
        exact of_decide_eq_true (Bool.and_eq_true_iff.mp hfolds).2
      · cases hc)
  rw [hfold]
  refine hfibers.trans ?_
  simp only [hsome]
  rfl

theorem credits_eq (hfit : SumsFit w.coins) (incoming : List Incoming) (tipHeight : Nat) :
    w.credits incoming tipHeight +
        totalValue (w.coins.filter fun c => (w.unknownSpend c).isSome) =
      totalValue w.receipts + w.netDebits := by
  have hnet : ∀ h, (w.netEntry h).value = 0 → (w.netEntry h).credit = 0 := fun h hv =>
    (netEntry_credit h).trans (netEntry_value_zero hv).1
  have hnets : credit ∘ w.netEntry = fun h => w.foldedValue h - w.unknownValue h :=
    funext netEntry_credit
  have hcoins : credit ∘ coinEntry tipHeight = WalletCoin.value :=
    funext (coinEntry_credit tipHeight)
  have hcut := Fibers.sum_filter_add_sum_filter_not w.folds w.receipts (f := WalletCoin.value)
  have hsums : (w.unknownHeights.map fun h => w.foldedValue h - w.unknownValue h).sum +
        (w.unknownHeights.map w.unknownValue).sum =
      (w.unknownHeights.map w.foldedValue).sum + w.netDebits := by
    rw [netDebits, ← List.sum_map_add, ← List.sum_map_add]
    congr 1
    apply List.map_congr_left
    intro h _
    omega
  rw [sum_unknownValue hfit, sum_foldedValue hfit] at hsums
  rw [credits, sum_history hnet, hnets, hcoins,
    sum_map_zero (f := credit ∘ incomingEntry) _ incomingEntry_credit,
    sum_map_zero (f := credit ∘ sentEntry) _ sentEntry_credit]
  unfold totalValue at hsums ⊢
  omega

theorem sum_coins :
    totalValue w.coins = w.unspentValue +
      (totalValue (w.coins.filter fun c => (w.unknownSpend c).isSome) +
        totalValue (w.coins.filter fun c =>
          c.spentHeight.isSome && decide (c.commitment ∈ w.recordedInputs))) := by
  have hunspent := Fibers.sum_filter_add_sum_filter_not (fun c : WalletCoin =>
    c.spentHeight.isNone) w.coins (f := WalletCoin.value)
  have hspent := Fibers.sum_filter_add_sum_filter_not (fun c : WalletCoin =>
    decide (c.commitment ∈ w.recordedInputs)) (w.coins.filter fun c => !c.spentHeight.isNone)
      (f := WalletCoin.value)
  rw [List.filter_filter, List.filter_filter] at hspent
  have hrecorded : (w.coins.filter fun c =>
      decide (c.commitment ∈ w.recordedInputs) && !c.spentHeight.isNone) =
        w.coins.filter fun c =>
          c.spentHeight.isSome && decide (c.commitment ∈ w.recordedInputs) := by
    apply List.filter_congr
    intro c _
    cases c.spentHeight <;> simp
  have hunknown : (w.coins.filter fun c =>
      (!decide (c.commitment ∈ w.recordedInputs)) && !c.spentHeight.isNone) =
        w.coins.filter fun c => (w.unknownSpend c).isSome := by
    apply List.filter_congr
    intro c _
    unfold unknownSpend
    by_cases hrec : c.commitment ∈ w.recordedInputs
    · simp [hrec]
    · cases c.spentHeight <;> simp [hrec]
  rw [hrecorded, hunknown] at hspent
  unfold unspentValue totalValue
  omega

theorem balances_iff (hfit : SumsFit w.coins) (incoming : List Incoming) (tipHeight : Nat) :
    w.credits incoming tipHeight = w.unspentValue + w.debits incoming tipHeight ↔
      w.unspentValue + w.paidOut +
          totalValue (w.coins.filter fun c => (w.unknownSpend c).isSome) =
        totalValue w.receipts := by
  have hcredits := credits_eq hfit incoming tipHeight
  rw [debits_eq]
  omega

end WalletCore

end Midwimble
