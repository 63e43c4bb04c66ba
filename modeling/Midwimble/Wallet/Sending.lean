import Midwimble.Chain.Accepted
import Midwimble.Core.Sending
import Midwimble.Lib.Greedy
import Midwimble.Template.Proofs
import Midwimble.Wallet.Scanning

namespace Midwimble
open Fallible WalletCore
set_option autoImplicit true

section Fees

variable {rate n : Nat}

theorem feeAt_steps : Greedy.Steps (feeAt rate) rate := by
  intro n
  have hmul : ((n + 1) * inputWeight + 2 * outputWeight + kernelWeight) * rate =
      (n * inputWeight + 2 * outputWeight + kernelWeight) * rate + rate := by
    unfold inputWeight
    ring
  unfold feeAt
  rw [hmul]
  omega

theorem feeAt_mono : Monotone (feeAt rate) := by
  apply monotone_nat_of_le_succ
  intro n
  have hmul : (n * inputWeight + 2 * outputWeight + kernelWeight) * rate ≤
      ((n + 1) * inputWeight + 2 * outputWeight + kernelWeight) * rate := by
    apply Nat.mul_le_mul_right
    unfold inputWeight
    omega
  unfold feeAt
  omega

theorem feeAt_succ (h : feeAt rate (n + 1) < u64Max) :
    feeAt rate (n + 1) = feeAt rate n + rate := by
  have hmul : ((n + 1) * inputWeight + 2 * outputWeight + kernelWeight) * rate =
      (n * inputWeight + 2 * outputWeight + kernelWeight) * rate + rate := by
    unfold inputWeight
    ring
  unfold feeAt at h ⊢
  rw [hmul] at h ⊢
  omega

theorem net_cons_le {total value : Nat} (hv : value ≤ rate) (hfit : total + value ≤ u64Max) :
    total + value - feeAt rate (n + 1) ≤ total - feeAt rate n := by
  rcases Nat.lt_or_ge (feeAt rate (n + 1)) u64Max with h | h
  · have := feeAt_succ h
    omega
  · omega

end Fees

namespace WalletCore

variable {rate taken total best amount : Nat} {feeFor : Nat → Nat}
  {coins rest chosen : List WalletCoin}

theorem totalValue_cons (c : WalletCoin) :
    totalValue (c :: coins) = c.value + totalValue coins := by
  rw [totalValue, List.map_cons, List.sum_cons]
  rfl

theorem totalValue_append : totalValue (coins ++ rest) = totalValue coins + totalValue rest := by
  rw [totalValue, List.map_append, List.sum_append]
  rfl

theorem totalValue_le_of_sublist (h : chosen.Sublist coins) :
    totalValue chosen ≤ totalValue coins :=
  (h.map WalletCoin.value).sum_le_sum fun _ _ => Nat.zero_le _

theorem wrap_of_le {a : Nat} (h : a ≤ u64Max) : a % 2 ^ 64 = a := by
  apply Nat.mod_eq_of_lt
  unfold u64Max at h
  omega

theorem le_bestPrefix (hfit : total + totalValue rest ≤ u64Max) :
    best ≤ bestPrefix rate taken total best rest ∧
      ∀ k < rest.length, total + totalValue (rest.take (k + 1)) - feeAt rate (taken + (k + 1)) ≤
        bestPrefix rate taken total best rest := by
  induction rest generalizing taken total best with
  | nil => exact ⟨Nat.le_refl _, nofun⟩
  | cons c rest ih =>
    rw [totalValue_cons] at hfit
    rw [bestPrefix, wrap_of_le (by omega)]
    obtain ⟨hbest, hall⟩ := @ih (taken + 1) (total + c.value)
      (max best (total + c.value - feeAt rate (taken + 1))) (by omega)
    refine ⟨(Nat.le_max_left _ _).trans hbest, ?_⟩
    intro k hk
    rw [List.take_succ_cons, totalValue_cons]
    cases k with
    | zero =>
      rw [List.take_zero]
      exact (Nat.le_max_right best _).trans hbest
    | succ k =>
      have hrest := hall k (Nat.lt_of_succ_lt_succ hk)
      rw [Nat.add_assoc taken, Nat.add_comm 1, Nat.add_assoc total] at hrest
      exact hrest

/-- The coins worth more than the fee that spending them adds. -/
def worthSpending (rate : Nat) (coins : List WalletCoin) : List WalletCoin :=
  coins.filter fun c => rate < c.value

theorem totalValue_above (h : ∀ c ∈ coins, rate < c.value) :
    coins.length * rate + coins.length ≤ totalValue coins := by
  have habove : ∀ v ∈ coins.map WalletCoin.value, rate < v := by
    intro v hv
    obtain ⟨c, hc, rfl⟩ := List.mem_map.mp hv
    exact h c hc
  have hsum := Greedy.sum_above habove
  rwa [List.length_map] at hsum

theorem lt_of_mem_worthSpending : ∀ c ∈ worthSpending rate coins, rate < c.value :=
  fun _ hc => of_decide_eq_true (List.mem_filter.mp hc).2

/-- Largest first. -/
def Descending (coins : List WalletCoin) : Prop := coins.Pairwise fun a b => a.value ≥ b.value

/-- The best prefix is that of the coins worth spending. -/
theorem bestPrefix_eq (hsorted : Descending rest) (hfit : total + totalValue rest ≤ u64Max)
    (hbest : total - feeAt rate taken ≤ best) :
    bestPrefix rate taken total best rest =
      max best (total + totalValue (worthSpending rate rest) -
        feeAt rate (taken + (worthSpending rate rest).length)) := by
  induction rest generalizing taken total best with
  | nil => exact (Nat.max_eq_left hbest).symm
  | cons c rest ih =>
    obtain ⟨hc, hsorted⟩ := List.pairwise_cons.mp hsorted
    rw [totalValue_cons] at hfit
    have hnext := @ih (taken + 1) (total + c.value)
      (max best (total + c.value - feeAt rate (taken + 1))) hsorted (by omega)
      (Nat.le_max_right _ _)
    rw [bestPrefix, wrap_of_le (by omega), hnext]
    by_cases habove : rate < c.value
    · have hpaying : worthSpending rate (c :: rest) = c :: worthSpending rate rest :=
        List.filter_cons_of_pos (decide_eq_true habove)
      have hsteps : feeAt rate (taken + 1 + (worthSpending rate rest).length) ≤
          feeAt rate (taken + 1) + (worthSpending rate rest).length * rate := feeAt_steps.add _ _
      have hsum := totalValue_above (lt_of_mem_worthSpending : ∀ d ∈ worthSpending rate rest, _)
      have hcount : taken + (c :: worthSpending rate rest).length =
          taken + 1 + (worthSpending rate rest).length := by
        rw [List.length_cons]
        omega
      rw [hpaying, hcount, totalValue_cons, ← Nat.add_assoc total]
      omega
    · -- No coin after this one is worth more than it.
      have hnone : worthSpending rate rest = [] := by
        apply List.filter_eq_nil_iff.mpr
        intro d hd
        have := hc d hd
        rw [decide_eq_true_eq]
        omega
      have hskip : worthSpending rate (c :: rest) = worthSpending rate rest :=
        List.filter_cons_of_neg (by rwa [decide_eq_true_eq])
      have hnet : total + c.value - feeAt rate (taken + 1) ≤ total - feeAt rate taken :=
        net_cons_le (Nat.le_of_not_lt habove) (by omega)
      have hempty : totalValue [] = 0 := rfl
      simp only [hskip, hnone, List.length_nil, hempty, Nat.add_zero]
      omega

theorem takeCoins_prefix {out : List WalletCoin × Nat} (hfit : total + totalValue rest ≤ u64Max)
    (h : takeCoins amount feeFor rest (chosen, total) = .ok out) :
    ∃ j ≤ rest.length, out = (chosen ++ rest.take j, total + totalValue (rest.take j)) := by
  induction rest generalizing chosen total with
  | nil =>
    cases h
    exact ⟨0, Nat.le_refl 0, by rw [List.take_nil, List.append_nil]; rfl⟩
  | cons c rest ih =>
    rw [totalValue_cons] at hfit
    obtain ⟨need, -, h⟩ := bind_eq_ok.mp h
    by_cases hneed : total ≥ need
    · rw [if_pos hneed] at h
      cases h
      exact ⟨0, Nat.zero_le _, by rw [List.take_zero, List.append_nil]; rfl⟩
    · rw [if_neg hneed, wrap_of_le (by omega)] at h
      obtain ⟨j, hj, rfl⟩ := ih (by omega) h
      refine ⟨j + 1, Nat.succ_le_succ hj, ?_⟩
      rw [List.take_succ_cons, totalValue_cons, List.append_assoc, List.singleton_append,
        Nat.add_assoc]

/-- If some prefix covers the amount and its fee, the first that does is taken. -/
theorem takeCoins_covers {k : Nat} (hmono : Monotone feeFor)
    (hfit : total + totalValue rest ≤ u64Max) (hk : k ≤ rest.length)
    (hcovers : amount + feeFor (chosen.length + k) ≤ total + totalValue (rest.take k)) :
    ∃ j ≤ k, takeCoins amount feeFor rest (chosen, total) =
        .ok (chosen ++ rest.take j, total + totalValue (rest.take j)) ∧
      amount + feeFor (chosen.length + j) ≤ total + totalValue (rest.take j) := by
  induction rest generalizing chosen total k with
  | nil =>
    obtain rfl : k = 0 := Nat.le_zero.mp hk
    refine ⟨0, Nat.le_refl 0, ?_, hcovers⟩
    rw [takeCoins, List.take_nil, List.append_nil]
    rfl
  | cons c rest ih =>
    have htake : totalValue ((c :: rest).take k) ≤ totalValue (c :: rest) :=
      totalValue_le_of_sublist (List.take_sublist _ _)
    have hfee : feeFor chosen.length ≤ feeFor (chosen.length + k) := hmono (Nat.le_add_right _ _)
    have hneed : checkedAdd64 amount (feeFor chosen.length) =
        some (amount + feeFor chosen.length) :=
      checkedAdd64_eq_some.mpr ⟨by omega, rfl⟩
    rw [takeCoins, hneed, orBail_some, bind_ok]
    by_cases hstop : total ≥ amount + feeFor chosen.length
    · rw [if_pos hstop]
      refine ⟨0, Nat.zero_le k, ?_, ?_⟩
      · rw [List.take_zero, List.append_nil]
        rfl
      · exact hstop
    · rw [totalValue_cons] at hfit
      rw [if_neg hstop, wrap_of_le (by omega)]
      cases k with
      | zero => exact absurd hcovers hstop
      | succ k =>
        rw [List.take_succ_cons, totalValue_cons, ← Nat.add_assoc total] at hcovers
        have hlen : (chosen ++ [c]).length = chosen.length + 1 := List.length_append
        obtain ⟨j, hj, htaken, hcovered⟩ := @ih (total + c.value) (chosen ++ [c]) k (by omega)
          (Nat.le_of_succ_le_succ hk)
          (by rw [hlen, Nat.add_assoc chosen.length, Nat.add_comm 1]; exact hcovers)
        refine ⟨j + 1, Nat.succ_le_succ hj, ?_, ?_⟩
        · rw [htaken, List.take_succ_cons, totalValue_cons, List.append_assoc,
            List.singleton_append, Nat.add_assoc]
        · rw [hlen, Nat.add_assoc chosen.length, Nat.add_comm 1] at hcovered
          rw [List.take_succ_cons, totalValue_cons, ← Nat.add_assoc total]
          exact hcovered

instance : IsTrans WalletCoin fun a b => b.value ≤ a.value := ⟨fun _ _ _ h h' => h'.trans h⟩

instance : Std.Total fun a b : WalletCoin => b.value ≤ a.value :=
  ⟨fun a b => Nat.le_total b.value a.value⟩

theorem candidates_descending [Primitives] (w : WalletCore) (tipHeight : Nat) :
    Descending (w.candidates tipHeight) := List.pairwise_insertionSort _ _

section Selection

variable [Primitives] {w : WalletCore} {options : SendOptions} {tipHeight : Nat}

theorem selectBy_covers {k : Nat} (hmono : Monotone feeFor) (hamount : amount ≠ 0)
    (hfit : totalValue (w.candidates tipHeight) ≤ u64Max) (hk : k ≤ (w.candidates tipHeight).length)
    (hcovers : amount + feeFor k ≤ totalValue ((w.candidates tipHeight).take k)) :
    ∃ j ≤ k, w.selectBy amount feeFor tipHeight =
        .ok ((w.candidates tipHeight).take j, feeFor j) ∧
      amount + feeFor j ≤ totalValue ((w.candidates tipHeight).take j) := by
  have hstart : amount + feeFor (([] : List WalletCoin).length + k) ≤
      0 + totalValue ((w.candidates tipHeight).take k) := by
    rw [List.length_nil, Nat.zero_add, Nat.zero_add]
    exact hcovers
  obtain ⟨j, hj, htaken, hcovered⟩ := takeCoins_covers hmono (by omega) hk hstart
  rw [List.nil_append, Nat.zero_add] at htaken
  rw [List.length_nil, Nat.zero_add, Nat.zero_add] at hcovered
  refine ⟨j, hj, ?_, hcovered⟩
  have hlen : ((w.candidates tipHeight).take j).length = j := by
    rw [List.length_take]
    omega
  have htotal := totalValue_le_of_sublist (List.take_sublist j (w.candidates tipHeight))
  have hneed : checkedAdd64 amount (feeFor j) = some (amount + feeFor j) :=
    checkedAdd64_eq_some.mpr ⟨by omega, rfl⟩
  rw [selectBy, bailIf_neg hamount, bind_ok, htaken, bind_ok]
  dsimp only
  rw [hlen, hneed, orBail_some, bind_ok, bailIf_neg (Nat.not_lt_of_le hcovered), bind_ok]

theorem covers_of_selectBy {out : List WalletCoin × Nat}
    (hfit : totalValue (w.candidates tipHeight) ≤ u64Max)
    (h : w.selectBy amount feeFor tipHeight = .ok out) :
    ∃ j ≤ (w.candidates tipHeight).length,
      amount + feeFor j ≤ totalValue ((w.candidates tipHeight).take j) := by
  obtain ⟨_, -, h⟩ := bind_eq_ok.mp h
  obtain ⟨taken, htaken, h⟩ := bind_eq_ok.mp h
  obtain ⟨j, hj, rfl⟩ := takeCoins_prefix (by omega) htaken
  obtain ⟨need, hneed, h⟩ := bind_eq_ok.mp h
  obtain ⟨_, hcovers, -⟩ := bind_eq_ok.mp h
  obtain ⟨-, rfl⟩ := checkedAdd64_eq_some.mp (orBail_eq_ok.mp hneed)
  rw [bailIf_eq_ok, Nat.not_lt, List.nil_append, Nat.zero_add, List.length_take,
    Nat.min_eq_left hj] at hcovers
  exact ⟨j, hj, hcovers⟩

theorem selectBy_complete {t : List WalletCoin} (hmono : Monotone feeFor) (hamount : amount ≠ 0)
    (hfit : totalValue (w.candidates tipHeight) ≤ u64Max) (ht : t.Sublist (w.candidates tipHeight))
    (hcovers : amount + feeFor t.length ≤ totalValue t) :
    ∃ out, w.selectBy amount feeFor tipHeight = .ok out := by
  have hsorted : ((w.candidates tipHeight).map WalletCoin.value).Pairwise (· ≥ ·) :=
    List.pairwise_map.mpr (candidates_descending w tipHeight)
  have hsum := Greedy.sum_le_sum_take hsorted (ht.map WalletCoin.value)
  rw [List.length_map, ← List.map_take] at hsum
  obtain ⟨j, -, hselected, -⟩ := selectBy_covers hmono hamount hfit ht.length_le
    (hcovers.trans hsum)
  exact ⟨_, hselected⟩

/-- The coins of the largest payment: those named, or those worth spending. -/
def paying (w : WalletCore) (options : SendOptions) (rate tipHeight : Nat) : List WalletCoin :=
  match w.chosenCoins options tipHeight with
  | .ok (some chosen) => chosen
  | .ok none => worthSpending rate (w.candidates tipHeight)
  | .error _ => []

theorem paying_sublist : (w.paying options rate tipHeight).Sublist (w.candidates tipHeight) := by
  unfold paying
  cases hchosen : w.chosenCoins options tipHeight with
  | error e => exact List.nil_sublist _
  | ok named =>
    cases named with
    | none => exact List.filter_sublist
    | some chosen =>
      unfold chosenCoins at hchosen
      cases hcoins : options.coins with
      | none =>
        rw [hcoins] at hchosen
        cases hchosen
      | some list =>
        rw [hcoins] at hchosen
        obtain ⟨named, -, hchosen⟩ := bind_eq_ok.mp hchosen
        obtain ⟨-, -, hchosen⟩ := bind_eq_ok.mp hchosen
        obtain ⟨-, -, hchosen⟩ := bind_eq_ok.mp hchosen
        cases hchosen
        exact List.filter_sublist

theorem maxSendableWith_eq (hrate : options.rate = .ok rate)
    (hfit : totalValue (w.candidates tipHeight) ≤ u64Max) :
    w.maxSendableWith options tipHeight =
      totalValue (w.paying options rate tipHeight) -
        feeAt rate (w.paying options rate tipHeight).length := by
  have hpaying := totalValue_le_of_sublist
    (paying_sublist : (w.paying options rate tipHeight).Sublist _)
  unfold paying at hpaying ⊢
  rw [maxSendableWith, hrate]
  dsimp only
  cases hchosen : w.chosenCoins options tipHeight with
  | error e => exact (Nat.zero_sub _).symm
  | ok named =>
    rw [hchosen] at hpaying
    cases named with
    | some chosen =>
      dsimp only at hpaying ⊢
      rw [wrap_of_le (hpaying.trans hfit)]
    | none =>
      dsimp only
      rw [bestPrefix_eq (candidates_descending w tipHeight) (by omega) (by omega)]
      rw [Nat.zero_add, Nat.zero_add, Nat.zero_max]

theorem net_prefix_le {j : Nat} (hfit : totalValue (w.candidates tipHeight) ≤ u64Max)
    (hj : j ≤ (w.candidates tipHeight).length) :
    totalValue ((w.candidates tipHeight).take j) - feeAt rate j ≤
      totalValue (worthSpending rate (w.candidates tipHeight)) -
        feeAt rate (worthSpending rate (w.candidates tipHeight)).length := by
  have hfit' : 0 + totalValue (w.candidates tipHeight) ≤ u64Max := by omega
  have hnothing : 0 - feeAt rate 0 ≤ 0 := Nat.sub_le 0 _
  have hbest := bestPrefix_eq (candidates_descending w tipHeight) hfit' hnothing
  rw [Nat.zero_add, Nat.zero_add, Nat.zero_max] at hbest
  obtain ⟨-, hall⟩ := @le_bestPrefix rate 0 0 0 _ hfit'
  cases j with
  | zero =>
    rw [List.take_zero]
    exact (Nat.zero_sub _).trans_le (Nat.zero_le _)
  | succ j =>
    have h := hall j hj
    rwa [hbest, Nat.zero_add, Nat.zero_add] at h

theorem worthSpending_eq_take :
    worthSpending rate (w.candidates tipHeight) =
      (w.candidates tipHeight).take (worthSpending rate (w.candidates tipHeight)).length :=
  Greedy.filter_eq_take (candidates_descending w tipHeight) rate

theorem net_prefix_lt {j : Nat} (hj : j < (worthSpending rate (w.candidates tipHeight)).length)
    (hpos : 0 < totalValue (worthSpending rate (w.candidates tipHeight)) -
      feeAt rate (worthSpending rate (w.candidates tipHeight)).length) :
    totalValue ((w.candidates tipHeight).take j) - feeAt rate j <
      totalValue (worthSpending rate (w.candidates tipHeight)) -
        feeAt rate (worthSpending rate (w.candidates tipHeight)).length := by
  have hfront : (w.candidates tipHeight).take j =
      (worthSpending rate (w.candidates tipHeight)).take j := by
    rw [worthSpending_eq_take, List.take_take, Nat.min_eq_left (Nat.le_of_lt hj)]
  rw [hfront]
  generalize hp : worthSpending rate (w.candidates tipHeight) = p at hj hpos ⊢
  have hsplit : totalValue p = totalValue (p.take j) + totalValue (p.drop j) := by
    rw [← totalValue_append, List.take_append_drop]
  have habove : ∀ c ∈ p.drop j, rate < c.value := by
    intro c hc
    apply lt_of_mem_worthSpending c
    rw [hp]
    exact List.mem_of_mem_drop hc
  have hrest := totalValue_above habove
  have hsteps : feeAt rate (j + (p.length - j)) ≤ feeAt rate j + (p.length - j) * rate :=
    feeAt_steps.add _ _
  rw [Nat.add_sub_cancel' (Nat.le_of_lt hj)] at hsteps
  rw [List.length_drop] at hrest
  omega

/-- The largest payment spends exactly its coins, without change. -/
theorem selectWith_max (hrate : options.rate = .ok rate)
    (hfit : totalValue (w.candidates tipHeight) ≤ u64Max)
    (hpos : 0 < w.maxSendableWith options tipHeight) :
    w.selectWith (w.maxSendableWith options tipHeight) options tipHeight =
      .ok (w.paying options rate tipHeight,
        feeAt rate (w.paying options rate tipHeight).length) := by
  have hmax := maxSendableWith_eq hrate hfit
  have hpaying := totalValue_le_of_sublist
    (paying_sublist : (w.paying options rate tipHeight).Sublist _)
  generalize w.maxSendableWith options tipHeight = m at hmax hpos
  have hm : m ≠ 0 := Nat.ne_of_gt hpos
  unfold paying at hmax hpaying ⊢
  rw [selectWith, hrate, bind_ok]
  cases hchosen : w.chosenCoins options tipHeight with
  | error e =>
    rw [hchosen] at hmax
    exact absurd (hmax.trans (Nat.zero_sub _)) hm
  | ok named =>
    rw [hchosen] at hmax hpaying
    cases named with
    | some chosen =>
      dsimp only at hmax hpaying ⊢
      have hneed : checkedAdd64 m (feeAt rate chosen.length) =
          some (m + feeAt rate chosen.length) := checkedAdd64_eq_some.mpr ⟨by omega, rfl⟩
      rw [bind_ok]
      dsimp only
      rw [bailIf_neg hm, bind_ok, wrap_of_le (hpaying.trans hfit), hneed, orBail_some, bind_ok,
        bailIf_neg (by omega), bind_ok]
    | none =>
      dsimp only at hmax hpaying ⊢
      rw [bind_ok]
      dsimp only
      have hmono : Monotone fun n => feeAt rate (max n 1) := by
        intro a b hab
        exact feeAt_mono (max_le_max_right 1 hab)
      have hcount : (worthSpending rate (w.candidates tipHeight)).length ≠ 0 := by
        intro hzero
        rw [List.length_eq_zero_iff.mp hzero] at hmax
        exact hm (hmax.trans (Nat.zero_sub _))
      have hone : max (worthSpending rate (w.candidates tipHeight)).length 1 =
          (worthSpending rate (w.candidates tipHeight)).length := by omega
      have hcovers : m + feeAt rate (max (worthSpending rate (w.candidates tipHeight)).length 1) ≤
          totalValue ((w.candidates tipHeight).take
            (worthSpending rate (w.candidates tipHeight)).length) := by
        rw [hone, ← worthSpending_eq_take]
        omega
      obtain ⟨j, hj, hselected, hcovered⟩ := selectBy_covers hmono hm hfit
        (List.filter_sublist.length_le) hcovers
      have hfee : feeAt rate j ≤ feeAt rate (max j 1) := feeAt_mono (le_max_left j 1)
      have hall : j = (worthSpending rate (w.candidates tipHeight)).length := by
        rcases Nat.lt_or_eq_of_le hj with hlt | heq
        · have hless := net_prefix_lt hlt (hmax ▸ hpos)
          omega
        · exact heq
      rw [hselected, hall, hone, ← worthSpending_eq_take]

/-- No more can be selected for. -/
theorem selectWith_above {out : List WalletCoin × Nat} (hrate : options.rate = .ok rate)
    (hfit : totalValue (w.candidates tipHeight) ≤ u64Max)
    (h : w.selectWith amount options tipHeight = .ok out) :
    amount ≤ w.maxSendableWith options tipHeight := by
  have hpaying := totalValue_le_of_sublist
    (paying_sublist : (w.paying options rate tipHeight).Sublist _)
  rw [maxSendableWith_eq hrate hfit]
  unfold paying at hpaying ⊢
  rw [selectWith, hrate, bind_ok] at h
  cases hchosen : w.chosenCoins options tipHeight with
  | error e =>
    rw [hchosen] at h
    cases h
  | ok named =>
    rw [hchosen] at h hpaying
    cases named with
    | some chosen =>
      dsimp only at hpaying ⊢
      rw [bind_ok] at h
      obtain ⟨_, -, h⟩ := bind_eq_ok.mp h
      obtain ⟨need, hneed, h⟩ := bind_eq_ok.mp h
      obtain ⟨_, hcovers, -⟩ := bind_eq_ok.mp h
      obtain ⟨-, rfl⟩ := checkedAdd64_eq_some.mp (orBail_eq_ok.mp hneed)
      rw [bailIf_eq_ok, Nat.not_lt, wrap_of_le (hpaying.trans hfit)] at hcovers
      omega
    | none =>
      rw [bind_ok] at h
      obtain ⟨j, hj, hcovers⟩ := covers_of_selectBy hfit h
      have hfee : feeAt rate j ≤ feeAt rate (max j 1) := feeAt_mono (le_max_left j 1)
      have hnet : _ - feeAt rate j ≤ _ := net_prefix_le hfit hj
      dsimp only at hcovers ⊢
      omega

end Selection

end WalletCore

end Midwimble
