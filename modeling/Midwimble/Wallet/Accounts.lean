import Midwimble.Wallet.History
import Midwimble.Wallet.MaxSendable
import Midwimble.Wallet.Reservations

namespace Midwimble
open Fallible WalletCore
set_option autoImplicit true

namespace Sent

def unsettled (s : Sent) : Bool := s.height.isNone && s.failedAt.isNone

/-- Whether a block with these kernels confirms the payment. -/
def carriedBy (kernels : List Bytes32) (s : Sent) : Bool :=
  s.unsettled && decide (s.kernel ∈ kernels)

def changeValue (valueOf : Point32 → Nat) (s : Sent) : Nat := (s.change.map valueOf).getD 0

end Sent

/-- Books of coins and payments in which every coin and every payment counts once. -/
structure Accounted (valueOf : Point32 → Nat) (height : Nat) (coins : List WalletCoin)
    (sent : List Sent) : Prop where
  distinct : (coins.map WalletCoin.commitment).Nodup
  worth : ∀ c ∈ coins, c.value = valueOf c.commitment
  seen : ∀ c ∈ coins, c.height < height ∧ ∀ h, c.spentHeight = some h → c.height < h ∧ h < height
  inputs : ∀ s ∈ sent, s.inputs.Nodup
  balanced : ∀ s ∈ sent, (s.inputs.map valueOf).sum = s.amount + s.fee + s.changeValue valueOf
  changes : (sent.filterMap Sent.change).Nodup
  dated : ∀ s ∈ sent, Wallet.Dated height s
  spent : ∀ s ∈ sent, ∀ h, s.height = some h → ∀ i ∈ s.inputs,
    ∃ c ∈ coins, c.commitment = i ∧ c.spentHeight = some h
  returned : ∀ s ∈ sent, ∀ h, s.height = some h → ∀ i, s.change = some i →
    ∃ c ∈ coins, c.commitment = i ∧ c.height = h
  unreturned : ∀ s ∈ sent, s.height = none → ∀ c ∈ coins, s.change ≠ some c.commitment
  waiting : ∀ s ∈ sent, s.height = none → ∀ c ∈ coins, c.commitment ∈ s.inputs →
    ∀ h, c.spentHeight = some h → ∃ k, s.failedAt = some k ∧ k ≤ h
  apart : sent.Pairwise fun s t => s.height.isSome → t.height.isSome →
    s.inputs.Disjoint t.inputs

theorem coin_unique {coins : List WalletCoin} (h : (coins.map WalletCoin.commitment).Nodup)
    (hc : c ∈ coins) (hd : d ∈ coins) (heq : c.commitment = d.commitment) : c = d :=
  List.inj_on_of_nodup_map h hc hd heq

namespace Accounted

variable {valueOf : Point32 → Nat} {coins : List WalletCoin} {sent : List Sent}

/-- Books agree whatever the coins are reserved for. -/
theorem map_coins (h : Accounted valueOf height coins sent) {f : WalletCoin → WalletCoin}
    (houtput : ∀ c, (f c).output = c.output) (hvalue : ∀ c, (f c).value = c.value)
    (hheight : ∀ c, (f c).height = c.height) (hspent : ∀ c, (f c).spentHeight = c.spentHeight) :
    Accounted valueOf height (coins.map f) sent := by
  have hcommitment : ∀ c, (f c).commitment = c.commitment := fun c =>
    congrArg Output.commitment (houtput c)
  have hsame : (coins.map f).map WalletCoin.commitment = coins.map WalletCoin.commitment := by
    rw [List.map_map]
    exact List.map_congr_left fun c _ => hcommitment c
  refine ⟨hsame ▸ h.distinct, ?_, ?_, h.inputs, h.balanced, h.changes, h.dated, ?_, ?_, ?_, ?_,
    h.apart⟩
  · intro c hcoin
    obtain ⟨c, hc, rfl⟩ := List.mem_map.mp hcoin
    rw [hvalue, hcommitment]
    exact h.worth c hc
  · intro c hcoin
    obtain ⟨c, hc, rfl⟩ := List.mem_map.mp hcoin
    rw [hheight, hspent]
    exact h.seen c hc
  · intro s hs k hk i hi
    obtain ⟨c, hc, hci, hck⟩ := h.spent s hs k hk i hi
    exact ⟨f c, List.mem_map_of_mem hc, (hcommitment c).trans hci, (hspent c).trans hck⟩
  · intro s hs k hk i hi
    obtain ⟨c, hc, hci, hck⟩ := h.returned s hs k hk i hi
    exact ⟨f c, List.mem_map_of_mem hc, (hcommitment c).trans hci, (hheight c).trans hck⟩
  · intro s hs hnone c hcoin
    obtain ⟨c, hc, rfl⟩ := List.mem_map.mp hcoin
    rw [hcommitment]
    exact h.unreturned s hs hnone c hc
  · intro s hs hnone c hcoin hmem k hk
    obtain ⟨c, hc, rfl⟩ := List.mem_map.mp hcoin
    rw [hcommitment] at hmem
    rw [hspent] at hk
    exact h.waiting s hs hnone c hc hmem k hk

/-- Books agree whether payments are released, and whatever is kept of their transactions. -/
theorem map_sent (h : Accounted valueOf height coins sent) {f : Sent → Sent}
    (hf : ∀ s, (f s).inputs = s.inputs ∧ (f s).amount = s.amount ∧ (f s).fee = s.fee ∧
      (f s).change = s.change ∧ (f s).height = s.height ∧ (f s).failedAt = s.failedAt) :
    Accounted valueOf height coins (sent.map f) := by
  have hchanges : (sent.map f).filterMap Sent.change = sent.filterMap Sent.change := by
    rw [List.filterMap_map]
    exact List.filterMap_congr fun s _ => (hf s).2.2.2.1
  refine ⟨h.distinct, h.worth, h.seen, ?_, ?_, hchanges ▸ h.changes, ?_, ?_, ?_, ?_, ?_, ?_⟩
  · intro s hsent
    obtain ⟨s, hs, rfl⟩ := List.mem_map.mp hsent
    rw [(hf s).1]
    exact h.inputs s hs
  · intro s hsent
    obtain ⟨s, hs, rfl⟩ := List.mem_map.mp hsent
    obtain ⟨hinputs, hamount, hfee, hchange, -, -⟩ := hf s
    rw [Sent.changeValue, hinputs, hamount, hfee, hchange]
    exact h.balanced s hs
  · intro s hsent
    obtain ⟨s, hs, rfl⟩ := List.mem_map.mp hsent
    exact (h.dated s hs).congr (hf s).2.2.2.2.1 (hf s).2.2.2.2.2
  · intro s hsent k hk i hi
    obtain ⟨s, hs, rfl⟩ := List.mem_map.mp hsent
    rw [(hf s).2.2.2.2.1] at hk
    rw [(hf s).1] at hi
    exact h.spent s hs k hk i hi
  · intro s hsent k hk i hi
    obtain ⟨s, hs, rfl⟩ := List.mem_map.mp hsent
    rw [(hf s).2.2.2.2.1] at hk
    rw [(hf s).2.2.2.1] at hi
    exact h.returned s hs k hk i hi
  · intro s hsent hnone c hc
    obtain ⟨s, hs, rfl⟩ := List.mem_map.mp hsent
    rw [(hf s).2.2.2.2.1] at hnone
    rw [(hf s).2.2.2.1]
    exact h.unreturned s hs hnone c hc
  · intro s hsent hnone c hc hmem k hk
    obtain ⟨s, hs, rfl⟩ := List.mem_map.mp hsent
    rw [(hf s).2.2.2.2.1] at hnone
    rw [(hf s).1] at hmem
    rw [(hf s).2.2.2.2.2]
    exact h.waiting s hs hnone c hc hmem k hk
  · rw [List.pairwise_map]
    refine h.apart.imp ?_
    intro s t hst hs ht
    rw [(hf s).2.2.2.2.1] at hs
    rw [(hf t).2.2.2.2.1] at ht
    rw [(hf s).1, (hf t).1]
    exact hst hs ht

theorem filter_sent (h : Accounted valueOf height coins sent) (p : Sent → Bool) :
    Accounted valueOf height coins (sent.filter p) := by
  have hmem : ∀ {s}, s ∈ sent.filter p → s ∈ sent := fun hs => (List.mem_filter.mp hs).1
  exact ⟨h.distinct, h.worth, h.seen, fun s hs => h.inputs s (hmem hs),
    fun s hs => h.balanced s (hmem hs),
    h.changes.sublist (List.filter_sublist.filterMap Sent.change),
    fun s hs => h.dated s (hmem hs), fun s hs => h.spent s (hmem hs),
    fun s hs => h.returned s (hmem hs), fun s hs => h.unreturned s (hmem hs),
    fun s hs => h.waiting s (hmem hs), h.apart.sublist List.filter_sublist⟩

theorem height_of_unsettle {s : Sent} (ht : (s.unsettle k).height = some t) :
    s.height = some t ∧ t < k := by
  obtain ⟨ht, hlt⟩ := Option.filter_eq_some_iff.mp ht
  exact ⟨ht, of_decide_eq_true hlt⟩

theorem unconfirmed_of_change (h : Accounted valueOf height coins sent) (hs : s ∈ sent)
    (hc : c ∈ coins) (hlt : c.height < k) (hchange : s.change = some c.commitment)
    (hnone : (s.unsettle k).height = none) : s.height = none := by
  cases hs' : s.height with
  | none => rfl
  | some t =>
    obtain ⟨d, hd, hdi, hdt⟩ := h.returned s hs t hs' _ hchange
    obtain rfl := coin_unique h.distinct hd hc hdi
    have hsome : (s.unsettle k).height = some t :=
      Option.filter_eq_some_iff.mpr ⟨hs', decide_eq_true (hdt ▸ hlt)⟩
    rw [hsome] at hnone
    cases hnone

theorem unconfirmed_of_input (h : Accounted valueOf height coins sent) (hs : s ∈ sent)
    (hc : c ∈ coins) (hmem : c.commitment ∈ s.inputs) (ht : c.spentHeight = some t) (htk : t < k)
    (hnone : (s.unsettle k).height = none) : s.height = none := by
  cases hs' : s.height with
  | none => rfl
  | some t' =>
    obtain ⟨d, hd, hdi, hdt⟩ := h.spent s hs t' hs' _ hmem
    obtain rfl := coin_unique h.distinct hd hc hdi
    obtain rfl := Option.some.inj (hdt.symm.trans ht)
    have hsome : (s.unsettle k).height = some t' :=
      Option.filter_eq_some_iff.mpr ⟨hs', decide_eq_true htk⟩
    rw [hsome] at hnone
    cases hnone

/-- What blocks at or above a height taught is forgotten. -/
theorem rollback (h : Accounted valueOf height coins sent) (k : Nat) :
    Accounted valueOf (min height k) ((coins.filter (·.height < k)).map (Wallet.unspend k))
      (sent.map (Sent.unsettle k)) := by
  have hkept : ∀ {c}, c ∈ coins.filter (·.height < k) → c ∈ coins ∧ c.height < k := by
    intro c hc
    obtain ⟨hc, hlt⟩ := List.mem_filter.mp hc
    exact ⟨hc, of_decide_eq_true hlt⟩
  have hsame : ((coins.filter (·.height < k)).map (Wallet.unspend k)).map WalletCoin.commitment =
      (coins.filter (·.height < k)).map WalletCoin.commitment := by
    rw [List.map_map]
    rfl
  refine ⟨?_, ?_, ?_, ?_, ?_, ?_, ?_, ?_, ?_, ?_, ?_, ?_⟩
  · rw [hsame]
    exact h.distinct.sublist (List.filter_sublist.map _)
  · intro c hcoin
    obtain ⟨c, hc, rfl⟩ := List.mem_map.mp hcoin
    exact h.worth c (hkept hc).1
  · intro c hcoin
    obtain ⟨c, hc, rfl⟩ := List.mem_map.mp hcoin
    obtain ⟨hc, hlt⟩ := hkept hc
    obtain ⟨hmade, hspent⟩ := h.seen c hc
    refine ⟨Nat.lt_min.mpr ⟨hmade, hlt⟩, ?_⟩
    intro t ht
    obtain ⟨ht, htk⟩ := Option.filter_eq_some_iff.mp ht
    exact ⟨(hspent t ht).1, Nat.lt_min.mpr ⟨(hspent t ht).2, of_decide_eq_true htk⟩⟩
  · intro s hsent
    obtain ⟨s, hs, rfl⟩ := List.mem_map.mp hsent
    exact h.inputs s hs
  · intro s hsent
    obtain ⟨s, hs, rfl⟩ := List.mem_map.mp hsent
    exact h.balanced s hs
  · rw [List.filterMap_map]
    exact h.changes
  · intro s hsent
    obtain ⟨s, hs, rfl⟩ := List.mem_map.mp hsent
    exact (h.dated s hs).unsettle
  · intro s hsent t ht i hi
    obtain ⟨s, hs, rfl⟩ := List.mem_map.mp hsent
    obtain ⟨ht, htk⟩ := height_of_unsettle ht
    obtain ⟨c, hc, hci, hct⟩ := h.spent s hs t ht i hi
    have hlt := ((h.seen c hc).2 t hct).1
    refine ⟨Wallet.unspend k c, List.mem_map_of_mem (List.mem_filter.mpr
      ⟨hc, decide_eq_true (hlt.trans htk)⟩), hci, ?_⟩
    exact Option.filter_eq_some_iff.mpr ⟨hct, decide_eq_true htk⟩
  · intro s hsent t ht i hi
    obtain ⟨s, hs, rfl⟩ := List.mem_map.mp hsent
    obtain ⟨ht, htk⟩ := height_of_unsettle ht
    obtain ⟨c, hc, hci, hct⟩ := h.returned s hs t ht i hi
    exact ⟨Wallet.unspend k c, List.mem_map_of_mem (List.mem_filter.mpr
      ⟨hc, decide_eq_true (hct ▸ htk)⟩), hci, hct⟩
  · intro s hsent hnone c hcoin hchange
    obtain ⟨s, hs, rfl⟩ := List.mem_map.mp hsent
    obtain ⟨c, hc, rfl⟩ := List.mem_map.mp hcoin
    obtain ⟨hc, hlt⟩ := hkept hc
    exact h.unreturned s hs (h.unconfirmed_of_change hs hc hlt hchange hnone) c hc hchange
  · intro s hsent hnone c hcoin hmem t ht
    obtain ⟨s, hs, rfl⟩ := List.mem_map.mp hsent
    obtain ⟨c, hc, rfl⟩ := List.mem_map.mp hcoin
    obtain ⟨hc, hlt⟩ := hkept hc
    obtain ⟨ht, htk⟩ := Option.filter_eq_some_iff.mp ht
    have htk := of_decide_eq_true htk
    have hs' := h.unconfirmed_of_input hs hc hmem ht htk hnone
    obtain ⟨j, hj, hjt⟩ := h.waiting s hs hs' c hc hmem t ht
    exact ⟨j, Option.filter_eq_some_iff.mpr ⟨hj, decide_eq_true (by omega)⟩, hjt⟩
  · rw [List.pairwise_map]
    refine h.apart.imp ?_
    intro s t hst hs ht
    obtain ⟨i, hi⟩ := Option.isSome_iff_exists.mp hs
    obtain ⟨j, hj⟩ := Option.isSome_iff_exists.mp ht
    exact hst (Option.isSome_iff_exists.mpr ⟨i, (height_of_unsettle hi).1⟩)
      (Option.isSome_iff_exists.mpr ⟨j, (height_of_unsettle hj).1⟩)

end Accounted

section Scanning

variable [Primitives] [Decryption]

/-- An output that the view key opens and the keys, if there are any, can spend. -/
def Recognises (view : ViewKey) (keys : Option WalletKeys) (output : Output) : Prop :=
  (view.scan output).isSome ∧ confirmDetected keys output = true

/-- A coin of an output that a block at `height` makes. -/
structure MadeAt (view : ViewKey) (height : Nat) (created : List (Output × Bool))
    (c : WalletCoin) : Prop where
  height_eq : c.height = height
  unspent : c.spentHeight = none
  made : ∃ o ∈ created, o.1 = c.output
  opens : ∃ ok, view.scan c.output = some (c.value, ok)

theorem MadeAt.mono {view : ViewKey} {created more : List (Output × Bool)} {c : WalletCoin}
    (h : MadeAt view height created c) (hsub : ∀ o ∈ created, o ∈ more) :
    MadeAt view height more c := by
  obtain ⟨o, ho, heq⟩ := h.made
  exact ⟨h.height_eq, h.unspent, ⟨o, hsub o ho, heq⟩, h.opens⟩

theorem addDetected_spec (view : ViewKey) (keys : Option WalletKeys) (sent : List Sent)
    (height : Nat) (coins : List WalletCoin) (o : Output × Bool) :
    (addDetected view keys sent height coins o = coins ∧
        (Recognises view keys o.1 → ∃ c ∈ coins, c.commitment = o.1.commitment)) ∨
      ∃ c, addDetected view keys sent height coins o = coins ++ [c] ∧
        c.commitment = o.1.commitment ∧ c.commitment ∉ coins.map WalletCoin.commitment ∧
        MadeAt view height [o] c := by
  unfold addDetected
  by_cases hknown : o.1.commitment ∈ coins.map WalletCoin.commitment
  · rw [if_pos hknown]
    exact .inl ⟨rfl, fun _ => List.mem_map.mp hknown⟩
  · rw [if_neg hknown]
    cases hscan : view.scan o.1 with
    | none =>
      refine .inl ⟨rfl, ?_⟩
      rintro ⟨hsome, -⟩
      rw [hscan] at hsome
      cases hsome
    | some p =>
      cases hconfirm : confirmDetected keys o.1 with
      | false =>
        refine .inl ⟨rfl, ?_⟩
        rintro ⟨-, htrue⟩
        rw [hconfirm] at htrue
        cases htrue
      | true =>
        exact .inr ⟨_, rfl, rfl, hknown, ⟨rfl, rfl, ⟨o, List.mem_singleton_self o, rfl⟩,
          ⟨p.2, hscan⟩⟩⟩

theorem foldl_addDetected_spec {view : ViewKey} {keys : Option WalletKeys} {sent : List Sent}
    {coins : List WalletCoin} {created : List (Output × Bool)}
    (hdistinct : (coins.map WalletCoin.commitment).Nodup) :
    ((created.foldl (addDetected view keys sent height) coins).map
        WalletCoin.commitment).Nodup ∧
      (∀ c ∈ coins, c ∈ created.foldl (addDetected view keys sent height) coins) ∧
      (∀ c ∈ created.foldl (addDetected view keys sent height) coins,
        c ∈ coins ∨ MadeAt view height created c) ∧
      ∀ o ∈ created, Recognises view keys o.1 →
        ∃ c ∈ created.foldl (addDetected view keys sent height) coins,
          c.commitment = o.1.commitment := by
  induction created generalizing coins with
  | nil => exact ⟨hdistinct, fun c hc => hc, fun c hc => .inl hc, nofun⟩
  | cons o created ih =>
    rw [List.foldl_cons]
    have hmore : ∀ p ∈ created, p ∈ o :: created := fun p hp => List.mem_cons_of_mem _ hp
    rcases addDetected_spec view keys sent height coins o with
      ⟨hsame, hfound⟩ | ⟨c, hadded, hcommitment, hnew, hmade⟩
    · rw [hsame]
      obtain ⟨hnodup, hkept, hcoins, hall⟩ := ih hdistinct
      refine ⟨hnodup, hkept, ?_, ?_⟩
      · intro d hd
        exact (hcoins d hd).imp id fun hd => hd.mono hmore
      · intro p hp hrec
        rcases List.mem_cons.mp hp with rfl | hp
        · obtain ⟨d, hd, heq⟩ := hfound hrec
          exact ⟨d, hkept d hd, heq⟩
        · exact hall p hp hrec
    · rw [hadded]
      have hdistinct' : ((coins ++ [c]).map WalletCoin.commitment).Nodup := by
        rw [List.map_append, List.map_singleton]
        apply List.nodup_append'.mpr
        refine ⟨hdistinct, List.nodup_singleton _, ?_⟩
        intro i hi hi'
        obtain rfl := List.mem_singleton.mp hi'
        exact hnew hi
      obtain ⟨hnodup, hkept, hcoins, hall⟩ := ih hdistinct'
      refine ⟨hnodup, fun d hd => hkept d (List.mem_append_left _ hd), ?_, ?_⟩
      · intro d hd
        rcases hcoins d hd with hd | hd
        · rcases List.mem_append.mp hd with hd | hd
          · exact .inl hd
          · obtain rfl := List.mem_singleton.mp hd
            refine .inr (hmade.mono ?_)
            intro p hp
            rw [List.mem_singleton.mp hp]
            exact List.mem_cons_self
        · exact .inr (hd.mono hmore)
      · intro p hp hrec
        rcases List.mem_cons.mp hp with rfl | hp
        · exact ⟨c, hkept c (List.mem_append_right _ (List.mem_singleton_self c)), hcommitment⟩
        · exact hall p hp hrec

omit [Primitives] [Decryption] in
theorem settle_cases (height : Nat) (spent : List Point32) (kernels : List Bytes32) (s : Sent) :
    (s.unsettled = false ∧ Wallet.settle height spent kernels s = s) ∨
      (s.carriedBy kernels ∧
        Wallet.settle height spent kernels s = { s with height := some height }) ∨
      (s.unsettled ∧ s.carriedBy kernels = false ∧
        Wallet.settle height spent kernels s = { s with failedAt := some height }) ∨
      (s.unsettled ∧ s.carriedBy kernels = false ∧ (∀ i ∈ s.inputs, i ∉ spent) ∧
        Wallet.settle height spent kernels s = s) := by
  have hsettled : (s.height.isSome || s.failedAt.isSome) = !s.unsettled := by
    unfold Sent.unsettled
    cases s.height <;> cases s.failedAt <;> rfl
  unfold Wallet.settle
  rw [hsettled]
  cases hu : s.unsettled with
  | false => exact .inl ⟨rfl, rfl⟩
  | true =>
    rw [if_neg (by simp)]
    by_cases hk : s.kernel ∈ kernels
    · rw [if_pos hk]
      refine .inr (.inl ⟨?_, rfl⟩)
      rw [Sent.carriedBy, hu, decide_eq_true hk]
      rfl
    · have hnot : s.carriedBy kernels = false := by
        rw [Sent.carriedBy, decide_eq_false hk, Bool.and_false]
      rw [if_neg hk]
      by_cases hi : s.inputs.any (decide <| · ∈ spent) = true
      · rw [if_pos hi]
        exact .inr (.inr (.inl ⟨rfl, hnot, rfl⟩))
      · rw [if_neg hi]
        refine .inr (.inr (.inr ⟨rfl, hnot, ?_, rfl⟩))
        intro i hmem hspent
        exact hi (List.any_eq_true.mpr ⟨i, hmem, decide_eq_true hspent⟩)

omit [Primitives] [Decryption] in
theorem settle_fields (height : Nat) (spent : List Point32) (kernels : List Bytes32) (s : Sent) :
    (Wallet.settle height spent kernels s).inputs = s.inputs ∧
      (Wallet.settle height spent kernels s).amount = s.amount ∧
      (Wallet.settle height spent kernels s).fee = s.fee ∧
      (Wallet.settle height spent kernels s).change = s.change := by
  rcases settle_cases height spent kernels s with ⟨-, h⟩ | ⟨-, h⟩ | ⟨-, -, h⟩ | ⟨-, -, -, h⟩ <;>
    rw [h] <;> exact ⟨rfl, rfl, rfl, rfl⟩

omit [Primitives] [Decryption] in
theorem settle_height {spent : List Point32} {kernels : List Bytes32} {s : Sent}
    (h : (Wallet.settle height spent kernels s).height = some k) :
    s.height = some k ∨ s.carriedBy kernels ∧ k = height := by
  rcases settle_cases height spent kernels s with ⟨-, hs⟩ | ⟨hc, hs⟩ | ⟨-, -, hs⟩ | ⟨-, -, -, hs⟩
  · rw [hs] at h
    exact .inl h
  · rw [hs] at h
    exact .inr ⟨hc, (Option.some.inj h).symm⟩
  · rw [hs] at h
    exact .inl h
  · rw [hs] at h
    exact .inl h

omit [Primitives] [Decryption] in
theorem settle_height_none {spent : List Point32} {kernels : List Bytes32} {s : Sent}
    (h : (Wallet.settle height spent kernels s).height = none) :
    s.height = none ∧ s.carriedBy kernels = false := by
  rcases settle_cases height spent kernels s with ⟨hu, hs⟩ | ⟨-, hs⟩ | ⟨-, hc, hs⟩ | ⟨-, hc, -, hs⟩
  · rw [hs] at h
    exact ⟨h, by rw [Sent.carriedBy, hu, Bool.false_and]⟩
  · rw [hs] at h
    cases h
  · rw [hs] at h
    exact ⟨h, hc⟩
  · rw [hs] at h
    exact ⟨h, hc⟩

/-- What a block must be to a wallet's books: what the wallet opens under a commitment has that
commitment's value; a payment the block confirms is in it whole, its inputs unspent coins of the
wallet that no other payment in it spends, its change an output that the wallet recognises; and
no other payment's change is made, that of a failed payment included. -/
structure CarriesWhole (valueOf : Point32 → Nat) (w : WalletCore) (batch : Batch) : Prop where
  opens : ∀ o ∈ batch.created, ∀ p, w.view.scan o.1 = some p → p.1 = valueOf o.1.commitment
  spends : ∀ s ∈ w.sent, s.carriedBy batch.body.kernelIds → ∀ i ∈ s.inputs,
    i ∈ batch.body.inputCommitments ∧ ∃ c ∈ w.coins, c.commitment = i ∧ c.spentHeight = none
  apart : w.sent.Pairwise fun s t => s.carriedBy batch.body.kernelIds →
    t.carriedBy batch.body.kernelIds → s.inputs.Disjoint t.inputs
  returns : ∀ s ∈ w.sent, s.carriedBy batch.body.kernelIds → ∀ i, s.change = some i →
    ∃ o ∈ batch.created, o.1.commitment = i ∧ Recognises w.view w.keys o.1
  only : ∀ s ∈ w.sent, s.height = none → ∀ o ∈ batch.created,
    s.change = some o.1.commitment → s.carriedBy batch.body.kernelIds

omit [Decryption] [Primitives] in
theorem carried_unconfirmed {kernels : List Bytes32} {s : Sent} (h : s.carriedBy kernels) :
    s.height = none := by
  have hu := (Bool.and_eq_true_iff.mp h).1
  exact Option.isNone_iff_eq_none.mp (Bool.and_eq_true_iff.mp hu).1

omit [Primitives] [Decryption] in
theorem spent_of_markSpent {spent : List Point32} {c : WalletCoin}
    (h : (Wallet.markSpent height spent c).spentHeight = some k) :
    c.spentHeight = some k ∨ c.spentHeight = none ∧ c.commitment ∈ spent ∧ k = height := by
  unfold Wallet.markSpent at h
  split at h
  · rename_i hnow
    obtain ⟨hnone, hmem⟩ := Bool.and_eq_true_iff.mp hnow
    exact .inr ⟨Option.isNone_iff_eq_none.mp hnone, of_decide_eq_true hmem,
      (Option.some.inj h).symm⟩
  · exact .inl h

theorem Accounted.disjoint_carried {valueOf : Point32 → Nat} {w : WalletCore} {batch : Batch}
    (h : Accounted valueOf w.scannedHeight w.coins w.sent) (hwhole : CarriesWhole valueOf w batch)
    (hs : s ∈ w.sent) (hk : s.height = some k) (ht : t ∈ w.sent)
    (hcarried : t.carriedBy batch.body.kernelIds) : s.inputs.Disjoint t.inputs := by
  intro i hi hi'
  obtain ⟨c, hc, hci, hck⟩ := h.spent s hs k hk i hi
  obtain ⟨-, d, hd, hdi, hnone⟩ := hwhole.spends t ht hcarried i hi'
  obtain rfl := coin_unique h.distinct hc hd (hci.trans hdi.symm)
  rw [hck] at hnone
  cases hnone

def coinsAfter (w : WalletCore) (sent : List Sent) (batch : Batch) : List WalletCoin :=
  batch.created.foldl (addDetected w.view w.keys sent w.scannedHeight)
    (w.coins.map (Wallet.markSpent w.scannedHeight batch.body.inputCommitments))

theorem coinsAfter_spec {w : WalletCore} (sent : List Sent) (batch : Batch)
    (h : (w.coins.map WalletCoin.commitment).Nodup) :
    ((coinsAfter w sent batch).map WalletCoin.commitment).Nodup ∧
      (∀ c ∈ w.coins, Wallet.markSpent w.scannedHeight batch.body.inputCommitments c ∈
        coinsAfter w sent batch) ∧
      (∀ c ∈ coinsAfter w sent batch,
        (∃ d ∈ w.coins, c = Wallet.markSpent w.scannedHeight batch.body.inputCommitments d) ∨
          MadeAt w.view w.scannedHeight batch.created c) ∧
      ∀ o ∈ batch.created, Recognises w.view w.keys o.1 →
        ∃ c ∈ coinsAfter w sent batch, c.commitment = o.1.commitment := by
  have hsame : (w.coins.map (Wallet.markSpent w.scannedHeight
      batch.body.inputCommitments)).map WalletCoin.commitment =
        w.coins.map WalletCoin.commitment := by
    rw [List.map_map]
    exact List.map_congr_left fun c _ => Wallet.markSpent_commitment
  obtain ⟨hnodup, hkept, hcoins, hall⟩ := @foldl_addDetected_spec _ _ w.scannedHeight w.view
    w.keys sent _ batch.created (hsame ▸ h)
  refine ⟨hnodup, fun c hc => hkept _ (List.mem_map_of_mem hc), ?_, hall⟩
  intro c hc
  refine (hcoins c hc).imp (fun hmem => ?_) id
  obtain ⟨d, hd, rfl⟩ := List.mem_map.mp hmem
  exact ⟨d, hd, rfl⟩

omit [Primitives] [Decryption] in
@[simp] theorem markSpent_height {spent : List Point32} {c : WalletCoin} :
    (Wallet.markSpent height spent c).height = c.height := by
  unfold Wallet.markSpent
  split <;> rfl

omit [Primitives] [Decryption] in
theorem markSpent_of_spent {spent : List Point32} {c : WalletCoin} (h : c.spentHeight = some k) :
    (Wallet.markSpent height spent c).spentHeight = some k := by
  rw [Wallet.markSpent, h, Option.isNone_some, Bool.false_and, if_neg Bool.false_ne_true]
  exact h

omit [Primitives] [Decryption] in
theorem markSpent_of_mem {spent : List Point32} {c : WalletCoin} (h : c.spentHeight = none)
    (hmem : c.commitment ∈ spent) :
    (Wallet.markSpent height spent c).spentHeight = some height := by
  rw [Wallet.markSpent, h, decide_eq_true hmem]
  rfl

omit [Decryption] in
theorem Accounted.waiting_after {valueOf : Point32 → Nat} {w : WalletCore} {batch : Batch}
    (h : Accounted valueOf w.scannedHeight w.coins w.sent) (hs : s ∈ w.sent)
    (hnone : (Wallet.settle w.scannedHeight batch.body.inputCommitments batch.body.kernelIds
      s).height = none) (hd : d ∈ w.coins) (hmem : d.commitment ∈ s.inputs)
    (hk : (Wallet.markSpent w.scannedHeight batch.body.inputCommitments d).spentHeight = some k) :
    ∃ j, (Wallet.settle w.scannedHeight batch.body.inputCommitments batch.body.kernelIds
      s).failedAt = some j ∧ j ≤ k := by
  obtain ⟨hnone, hnot⟩ := settle_height_none hnone
  rcases spent_of_markSpent hk with hk | ⟨hunspent, hspent, rfl⟩
  · obtain ⟨j, hj, hjk⟩ := h.waiting s hs hnone d hd hmem k hk
    rw [Wallet.settle_of_settled (.inr (Option.isSome_iff_exists.mpr ⟨j, hj⟩))]
    exact ⟨j, hj, hjk⟩
  · rcases settle_cases w.scannedHeight batch.body.inputCommitments batch.body.kernelIds s with
      ⟨hu, heq⟩ | ⟨hcarried, -⟩ | ⟨-, -, heq⟩ | ⟨-, -, hapart, -⟩
    · rw [heq]
      cases hfailed : s.failedAt with
      | none =>
        rw [Sent.unsettled, hnone, hfailed] at hu
        cases hu
      | some j => exact ⟨j, rfl, (h.dated s hs).2 j (.inr hfailed)⟩
    · rw [hnot] at hcarried
      cases hcarried
    · rw [heq]
      exact ⟨_, rfl, Nat.le_refl _⟩
    · exact absurd hspent (hapart _ hmem)

section Carried

variable {valueOf : Point32 → Nat} {w : WalletCore} {batch : Batch}

theorem Accounted.apart_settled (h : Accounted valueOf w.scannedHeight w.coins w.sent)
    (hwhole : CarriesWhole valueOf w batch) :
    (w.sent.map (Wallet.settle w.scannedHeight batch.body.inputCommitments
      batch.body.kernelIds)).Pairwise fun s t =>
        s.height.isSome → t.height.isSome → s.inputs.Disjoint t.inputs := by
  rw [List.pairwise_map]
  refine (h.apart.and hwhole.apart).imp_of_mem ?_
  intro s t hs ht hst hsome hsome'
  obtain ⟨k, hk⟩ := Option.isSome_iff_exists.mp hsome
  obtain ⟨k', hk'⟩ := Option.isSome_iff_exists.mp hsome'
  rw [(settle_fields _ _ _ s).1, (settle_fields _ _ _ t).1]
  rcases settle_height hk with hk | ⟨hcarried, -⟩
  · rcases settle_height hk' with hk' | ⟨hcarried', -⟩
    · exact hst.1 (Option.isSome_iff_exists.mpr ⟨k, hk⟩)
        (Option.isSome_iff_exists.mpr ⟨k', hk'⟩)
    · exact h.disjoint_carried hwhole hs hk ht hcarried'
  · rcases settle_height hk' with hk' | ⟨hcarried', -⟩
    · exact (h.disjoint_carried hwhole ht hk' hs hcarried).symm
    · exact hst.2 hcarried hcarried'

theorem Accounted.returned_carried (h : Accounted valueOf w.scannedHeight w.coins w.sent)
    (hwhole : CarriesWhole valueOf w batch) (sent : List Sent) (hs : s ∈ w.sent)
    (hcarried : s.carriedBy batch.body.kernelIds) (hi : s.change = some i) :
    ∃ c ∈ coinsAfter w sent batch, c.commitment = i ∧ c.height = w.scannedHeight := by
  obtain ⟨-, -, hfrom, hall⟩ := coinsAfter_spec sent batch h.distinct
  obtain ⟨o, ho, hoi, hrec⟩ := hwhole.returns s hs hcarried i hi
  obtain ⟨c, hc, hco⟩ := hall o ho hrec
  refine ⟨c, hc, hco.trans hoi, ?_⟩
  rcases hfrom c hc with ⟨d, hd, rfl⟩ | hmade
  · -- The change is no coin of the wallet before the block that confirms its payment.
    rw [Wallet.markSpent_commitment] at hco
    exact absurd (hi.trans (congrArg some (hoi.symm.trans hco.symm)))
      (h.unreturned s hs (carried_unconfirmed hcarried) d hd)
  · exact hmade.height_eq

end Carried

theorem Accounted.scan {valueOf : Point32 → Nat} {w : WalletCore} {batch : Batch}
    (h : Accounted valueOf w.scannedHeight w.coins w.sent) (hwhole : CarriesWhole valueOf w batch)
    (sent : List Sent) :
    Accounted valueOf (w.scannedHeight + 1) (coinsAfter w sent batch)
      (w.sent.map (Wallet.settle w.scannedHeight batch.body.inputCommitments
        batch.body.kernelIds)) := by
  obtain ⟨hnodup, hold, hfrom, hall⟩ := coinsAfter_spec sent batch h.distinct
  refine ⟨hnodup, ?_, ?_, ?_, ?_, ?_, ?_, ?_, ?_, ?_, ?_, ?_⟩
  · intro c hc
    rcases hfrom c hc with ⟨d, hd, rfl⟩ | hmade
    · rw [markSpent_value, Wallet.markSpent_commitment]
      exact h.worth d hd
    · obtain ⟨o, ho, heq⟩ := hmade.made
      obtain ⟨ok, hopens⟩ := hmade.opens
      rw [← heq] at hopens
      have hvalue := hwhole.opens o ho _ hopens
      rw [heq] at hvalue
      exact hvalue
  · intro c hc
    rcases hfrom c hc with ⟨d, hd, rfl⟩ | hmade
    · obtain ⟨hmade, hspent⟩ := h.seen d hd
      rw [markSpent_height]
      refine ⟨hmade.trans (Nat.lt_succ_self _), ?_⟩
      intro k hk
      rcases spent_of_markSpent hk with hk | ⟨-, -, rfl⟩
      · exact ⟨(hspent k hk).1, (hspent k hk).2.trans (Nat.lt_succ_self _)⟩
      · exact ⟨hmade, Nat.lt_succ_self _⟩
    · rw [hmade.height_eq, hmade.unspent]
      exact ⟨Nat.lt_succ_self _, nofun⟩
  · intro s hsent
    obtain ⟨s, hs, rfl⟩ := List.mem_map.mp hsent
    rw [(settle_fields _ _ _ s).1]
    exact h.inputs s hs
  · intro s hsent
    obtain ⟨s, hs, rfl⟩ := List.mem_map.mp hsent
    obtain ⟨hinputs, hamount, hfee, hchange⟩ := settle_fields w.scannedHeight
      batch.body.inputCommitments batch.body.kernelIds s
    rw [Sent.changeValue, hinputs, hamount, hfee, hchange]
    exact h.balanced s hs
  · rw [List.filterMap_map]
    have hchange : w.sent.filterMap (Sent.change ∘ Wallet.settle w.scannedHeight
        batch.body.inputCommitments batch.body.kernelIds) = w.sent.filterMap Sent.change :=
      List.filterMap_congr fun s _ => (settle_fields _ _ _ s).2.2.2
    rw [hchange]
    exact h.changes
  · intro s hsent
    obtain ⟨s, hs, rfl⟩ := List.mem_map.mp hsent
    exact (h.dated s hs).settle
  · intro s hsent k hk i hi
    obtain ⟨s, hs, rfl⟩ := List.mem_map.mp hsent
    rw [(settle_fields _ _ _ s).1] at hi
    rcases settle_height hk with hk | ⟨hcarried, rfl⟩
    · obtain ⟨c, hc, hci, hck⟩ := h.spent s hs k hk i hi
      exact ⟨_, hold c hc, Wallet.markSpent_commitment.trans hci, markSpent_of_spent hck⟩
    · obtain ⟨hspent, c, hc, rfl, hnone⟩ := hwhole.spends s hs hcarried i hi
      exact ⟨_, hold c hc, Wallet.markSpent_commitment, markSpent_of_mem hnone hspent⟩
  · intro s hsent k hk i hi
    obtain ⟨s, hs, rfl⟩ := List.mem_map.mp hsent
    rw [(settle_fields _ _ _ s).2.2.2] at hi
    rcases settle_height hk with hk | ⟨hcarried, rfl⟩
    · obtain ⟨c, hc, hci, hck⟩ := h.returned s hs k hk i hi
      exact ⟨_, hold c hc, Wallet.markSpent_commitment.trans hci, markSpent_height.trans hck⟩
    · exact h.returned_carried hwhole sent hs hcarried hi
  · intro s hsent hnone c hc hchange
    obtain ⟨s, hs, rfl⟩ := List.mem_map.mp hsent
    rw [(settle_fields _ _ _ s).2.2.2] at hchange
    obtain ⟨hnone, hnot⟩ := settle_height_none hnone
    rcases hfrom c hc with ⟨d, hd, rfl⟩ | hmade
    · rw [Wallet.markSpent_commitment] at hchange
      exact h.unreturned s hs hnone d hd hchange
    · obtain ⟨o, ho, heq⟩ := hmade.made
      have hcarried := hwhole.only s hs hnone o ho (heq ▸ hchange)
      rw [hnot] at hcarried
      cases hcarried
  · intro s hsent hnone c hc hmem k hk
    obtain ⟨s, hs, rfl⟩ := List.mem_map.mp hsent
    rw [(settle_fields _ _ _ s).1] at hmem
    rcases hfrom c hc with ⟨d, hd, rfl⟩ | hmade
    · rw [Wallet.markSpent_commitment] at hmem
      exact h.waiting_after hs hnone hd hmem hk
    · rw [hmade.unspent] at hk
      cases hk
  · exact h.apart_settled hwhole

end Scanning

end Midwimble
