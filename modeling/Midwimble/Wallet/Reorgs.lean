import Midwimble.Wallet.Reservations

namespace Midwimble
open Fallible
set_option autoImplicit true

namespace WalletCoin

/-- A coin without its reservation. -/
def unreserved (c : WalletCoin) : WalletCoin := { c with pendingTx := none }

@[simp] theorem unreserved_commitment (c : WalletCoin) : c.unreserved.commitment = c.commitment :=
  rfl

end WalletCoin

/-- A payment without the transaction kept for broadcasting. -/
def Sent.bare (s : Sent) : Sent := { s with tx := none }

namespace Wallet

section Undo

variable {coins : List WalletCoin} {sent : List Sent} {height k : Nat} {spent : List Point32}
  {kernels : List Bytes32}

/-- What rolling back to a height leaves of coins, reservations apart. -/
def undoCoins (height : Nat) (coins : List WalletCoin) : List WalletCoin :=
  (coins.filter (·.height < height)).map fun c => (unspend height c).unreserved

def undoSent (height : Nat) (sent : List Sent) : List Sent :=
  sent.map fun s => (s.unsettle height).bare

theorem undoCoins_markSpent (hk : height ≤ k) :
    undoCoins height (coins.map (markSpent k spent)) = undoCoins height coins := by
  induction coins with
  | nil => rfl
  | cons c coins ih =>
    have hheight : (markSpent k spent c).height = c.height := by
      unfold markSpent
      split <;> rfl
    have hundone : (unspend height (markSpent k spent c)).unreserved =
        (unspend height c).unreserved := by
      rcases markSpent_cases k spent c with ⟨hunspent, -, heq⟩ | ⟨-, heq⟩
      · rw [heq]
        simp [unspend, WalletCoin.unreserved, hunspent, hk]
      · rw [heq]
    simp only [undoCoins, List.map_cons, List.filter_cons, hheight] at ih ⊢
    split
    · rw [List.map_cons, List.map_cons, hundone, ih]
    · exact ih

theorem undoSent_settle (hk : height ≤ k) :
    undoSent height ((sent.map (settle k spent kernels)).map (forget k)) =
      undoSent height sent := by
  rw [undoSent, List.map_map, List.map_map, undoSent]
  apply List.map_congr_left
  intro s _
  have hforget (s : Sent) : ((forget k s).unsettle height).bare = (s.unsettle height).bare := by
    unfold forget
    split <;> rfl
  simp only [Function.comp_apply, hforget]
  unfold settle
  split
  · rfl
  · rename_i hsettled
    simp only [Bool.or_eq_true, not_or, Option.not_isSome_iff_eq_none] at hsettled
    split
    · simp [Sent.unsettle, Sent.bare, hsettled.1, hk]
    · split
      · simp [Sent.unsettle, Sent.bare, hsettled.2, hk]
      · rfl

variable [Primitives] [Decryption] {keys : WalletKeys} {created : List (Output × Bool)}

theorem undoCoins_addCoins (hk : height ≤ k) :
    undoCoins height (created.foldl (addCoin keys sent k) coins) = undoCoins height coins := by
  induction created generalizing coins with
  | nil => rfl
  | cons o created ih =>
    rw [List.foldl_cons, ih]
    unfold addCoin
    split
    · rfl
    · split
      · have hnot : ¬ k < height := Nat.not_lt.mpr hk
        simp [undoCoins, List.filter_append, hnot]
      · rfl

end Undo

section Views

theorem filter_below {o : Option Nat} {n : Nat} (h : ∀ k ∈ o, k < n) : o.filter (· < n) = o := by
  cases o with
  | none => rfl
  | some k => simp [h k rfl]

variable [Primitives]

/-- Wallets that agree on coins, payments and height, reservations and kept transactions apart. -/
structure Agree (v w : Wallet) : Prop where
  keys : v.keys = w.keys
  coins : v.coins.map WalletCoin.unreserved = w.coins.map WalletCoin.unreserved
  sent : v.sent.map Sent.bare = w.sent.map Sent.bare
  height : v.scannedHeight = w.scannedHeight

/-- What was learned from blocks below the scanned height, their last hashes recorded. -/
structure Scanned (w : Wallet) : Prop where
  coins : ∀ c ∈ w.coins, c.height < w.scannedHeight ∧ ∀ k ∈ c.spentHeight, k < w.scannedHeight
  sent : ∀ s ∈ w.sent, (∀ k ∈ s.height, k < w.scannedHeight) ∧
    ∀ k ∈ s.failedAt, k < w.scannedHeight
  recent : w.recent.map Prod.fst =
    List.range' (w.scannedHeight - w.recent.length) w.recent.length
  kept : w.recent.length ≤ reorgWindow
  born : w.birthHeight + w.recent.length ≤ w.scannedHeight

variable {w w' : Wallet} {height : Nat}

theorem rollbackTo_coins (w : Wallet) (height : Nat) :
    (w.rollbackTo height).1.coins.map WalletCoin.unreserved = undoCoins height w.coins := by
  have hreserve (revived : List Sent) (c : WalletCoin) :
      (revived.foldl reserveFor c).unreserved = c.unreserved := by
    induction revived generalizing c with
    | nil => rfl
    | cons s revived ih =>
      rw [List.foldl_cons, ih]
      unfold reserveFor
      split <;> rfl
  rw [rollbackTo, foldl_reserve, List.map_map, List.map_map, undoCoins]
  exact List.map_congr_left fun c _ => hreserve _ _

theorem rollbackTo_sent (w : Wallet) (height : Nat) :
    (w.rollbackTo height).1.sent.map Sent.bare = undoSent height w.sent :=
  List.map_map

omit [Primitives] in
theorem undoCoins_below {coins : List WalletCoin} {n : Nat}
    (h : ∀ c ∈ coins, c.height < n ∧ ∀ k ∈ c.spentHeight, k < n) :
    undoCoins n coins = coins.map WalletCoin.unreserved := by
  rw [undoCoins, List.filter_eq_self.mpr fun c hc => decide_eq_true (h c hc).1]
  apply List.map_congr_left
  intro c hc
  have hspent : c.spentHeight.filter (· < n) = c.spentHeight := filter_below (h c hc).2
  rw [unspend, hspent]

theorem Scanned.undoCoins_eq (h : w.Scanned) :
    undoCoins w.scannedHeight w.coins = w.coins.map WalletCoin.unreserved :=
  undoCoins_below h.coins

theorem Scanned.undoSent_eq (h : w.Scanned) :
    undoSent w.scannedHeight w.sent = w.sent.map Sent.bare := by
  apply List.map_congr_left
  intro s hs
  have hheight : s.height.filter (· < w.scannedHeight) = s.height :=
    filter_below (h.sent s hs).1
  have hfailed : s.failedAt.filter (· < w.scannedHeight) = s.failedAt :=
    filter_below (h.sent s hs).2
  rw [Sent.unsettle, hheight, hfailed]

end Views

section Scans

variable [Primitives] [Decryption] {v w w' w'' : Wallet} {height k : Nat} {batch : Batch}
  {batches : List Batch} {x : Bytes32}

theorem scanBlock_eq_ok : w.scanBlock height batch = .ok w' ↔
    height = w.scannedHeight ∧
    (0 < height → ∀ x ∈ w.recordedHash (height - 1), x = batch.prevHeaderHash) ∧
    { w with
      coins := batch.created.foldl (addCoin w.keys (w.sent.map
        (settle height batch.body.inputCommitments batch.body.kernelIds)) height)
          (w.coins.map (markSpent height batch.body.inputCommitments))
      sent := (w.sent.map (settle height batch.body.inputCommitments batch.body.kernelIds)).map
        (forget height)
      recent :=
        if (w.recent ++ [(height, batch.extension.finalHash)]).length > reorgWindow then
          (w.recent ++ [(height, batch.extension.finalHash)]).tail
        else w.recent ++ [(height, batch.extension.finalHash)]
      scannedHeight := height + 1 } = w' := by
  simp only [scanBlock, bind_eq_ok, bailIf_eq_ok, not_not, Except.ok.injEq, exists_const,
    not_and]
  constructor
  · rintro ⟨rfl, hlinked, rfl⟩
    refine ⟨rfl, ?_, rfl⟩
    intro hpos x hx
    have hany := hlinked hpos
    rw [Option.mem_def.mp hx] at hany
    simpa using hany
  · rintro ⟨rfl, hlinked, rfl⟩
    refine ⟨rfl, ?_, rfl⟩
    intro hpos
    cases hx : w.recordedHash (w.scannedHeight - 1) with
    | none => simp
    | some x => simpa using hlinked hpos x hx

omit [Decryption] in
theorem Scanned.mem_recent (h : w.Scanned) : w.recordedHash k = some x ↔ (k, x) ∈ w.recent := by
  have hnodup : (w.recent.map Prod.fst).Nodup := h.recent ▸ List.nodup_range'
  unfold recordedHash
  constructor
  · intro hx
    obtain ⟨⟨k', x'⟩, hfound, rfl⟩ := Option.map_eq_some_iff.mp hx
    obtain rfl : k' = k := by simpa using List.find?_some hfound
    exact List.mem_of_find?_eq_some hfound
  · intro hmem
    cases hfound : w.recent.find? fun p => p.1 = k with
    | none => exact absurd (List.find?_eq_none.mp hfound _ hmem) (by simp)
    | some p =>
      have hk : p.1 = k := by simpa using List.find?_some hfound
      rw [List.inj_on_of_nodup_map hnodup (List.mem_of_find?_eq_some hfound) hmem hk]
      rfl

omit [Primitives] [Decryption] in
theorem below_markSpent {c : WalletCoin} {n : Nat} {spent : List Point32}
    (h : c.height < n ∧ ∀ k ∈ c.spentHeight, k < n) :
    (markSpent n spent c).height < n + 1 ∧ ∀ k ∈ (markSpent n spent c).spentHeight, k < n + 1 := by
  rcases markSpent_cases n spent c with ⟨-, -, heq⟩ | ⟨-, heq⟩
  · rw [heq]
    refine ⟨Nat.lt_succ_of_lt h.1, ?_⟩
    intro k hk
    obtain rfl := Option.some.inj hk
    exact Nat.lt_succ_self _
  · rw [heq]
    exact ⟨Nat.lt_succ_of_lt h.1, fun k hk => Nat.lt_succ_of_lt (h.2 k hk)⟩

theorem below_addCoins {keys : WalletKeys} {sent : List Sent} {created : List (Output × Bool)}
    {coins : List WalletCoin} {n : Nat}
    (h : ∀ c ∈ coins, c.height < n + 1 ∧ ∀ k ∈ c.spentHeight, k < n + 1) :
    ∀ c ∈ created.foldl (addCoin keys sent n) coins,
      c.height < n + 1 ∧ ∀ k ∈ c.spentHeight, k < n + 1 := by
  induction created generalizing coins with
  | nil => exact h
  | cons o created ih =>
    apply ih
    unfold addCoin
    split
    · exact h
    · split
      · intro c hc
        rcases List.mem_append.mp hc with hc | hc
        · exact h c hc
        · obtain rfl := List.mem_singleton.mp hc
          exact ⟨Nat.lt_succ_self _, nofun⟩
      · exact h

omit [Primitives] [Decryption] in
theorem below_settle {s : Sent} {n : Nat} {spent : List Point32} {kernels : List Bytes32}
    (h : (∀ k ∈ s.height, k < n) ∧ ∀ k ∈ s.failedAt, k < n) :
    (∀ k ∈ (forget n (settle n spent kernels s)).height, k < n + 1) ∧
      ∀ k ∈ (forget n (settle n spent kernels s)).failedAt, k < n + 1 := by
  have hweak : (∀ k ∈ s.height, k < n + 1) ∧ ∀ k ∈ s.failedAt, k < n + 1 :=
    ⟨fun k hk => Nat.lt_succ_of_lt (h.1 k hk), fun k hk => Nat.lt_succ_of_lt (h.2 k hk)⟩
  have hnow : ∀ k ∈ some n, k < n + 1 := by
    intro k hk
    obtain rfl := Option.some.inj hk
    exact Nat.lt_succ_self _
  rw [forget_height, forget_failedAt]
  unfold settle
  split
  · exact hweak
  · split
    · exact ⟨hnow, hweak.2⟩
    · split
      · exact ⟨hweak.1, hnow⟩
      · exact hweak

theorem Scanned.scanBlock (h : w.Scanned) (hok : w.scanBlock height batch = .ok w') :
    w'.Scanned := by
  obtain ⟨rfl, -, rfl⟩ := scanBlock_eq_ok.mp hok
  have hlen : (w.recent ++ [(w.scannedHeight, batch.extension.finalHash)]).length =
      w.recent.length + 1 := List.length_append
  have hborn := h.born
  have hkept := h.kept
  have hheights : (w.recent ++ [(w.scannedHeight, batch.extension.finalHash)]).map Prod.fst =
      List.range' (w.scannedHeight - w.recent.length) (w.recent.length + 1) := by
    rw [List.map_append, h.recent, List.range'_concat]
    have hend : w.scannedHeight - w.recent.length + 1 * w.recent.length = w.scannedHeight := by
      omega
    rw [hend]
    rfl
  constructor
  · apply below_addCoins
    intro d hd
    obtain ⟨c, hc, rfl⟩ := List.mem_map.mp hd
    exact below_markSpent (h.coins c hc)
  · intro t ht
    obtain ⟨u, hu, rfl⟩ := List.mem_map.mp ht
    obtain ⟨s, hs, rfl⟩ := List.mem_map.mp hu
    exact below_settle (h.sent s hs)
  · dsimp only
    split
    · rw [List.map_tail, hheights, List.length_tail, hlen, List.range'_succ, List.tail_cons]
      congr 1
      omega
    · rw [hheights, hlen]
      congr 1
      omega
  · dsimp only
    split
    · rw [List.length_tail, hlen]
      exact hkept
    · rename_i hle
      exact Nat.not_lt.mp hle
  · dsimp only
    split
    · rw [List.length_tail, hlen]
      omega
    · rw [hlen]
      omega

omit [Primitives] [Decryption] in
theorem range'_filter_lt (a n h : Nat) :
    (List.range' a n).filter (· < h) = List.range' a (min n (h - a)) := by
  induction n generalizing a with
  | zero => simp
  | succ n ih =>
    rw [List.range'_succ, List.filter_cons]
    split
    · rename_i hlt
      have hlt : a < h := of_decide_eq_true hlt
      have hmin : min (n + 1) (h - a) = min n (h - (a + 1)) + 1 := by omega
      rw [ih, hmin, List.range'_succ]
    · rename_i hle
      have hle : h ≤ a := by simpa using hle
      have hmin : min (n + 1) (h - a) = 0 := by omega
      have hrest : min n (h - (a + 1)) = 0 := by omega
      rw [ih, hmin, hrest, List.range'_zero, List.range'_zero]

omit [Decryption] in
theorem Scanned.recent_rollbackTo (h : w.Scanned) (height : Nat) :
    ((w.rollbackTo height).1.recent).map Prod.fst =
      List.range' (w.scannedHeight - w.recent.length)
        (min w.recent.length (height - (w.scannedHeight - w.recent.length))) := by
  rw [← range'_filter_lt, ← h.recent, List.filter_map]
  rfl

omit [Decryption] in
theorem Scanned.length_rollbackTo (h : w.Scanned) (height : Nat) :
    (w.rollbackTo height).1.recent.length =
      min w.recent.length (height - (w.scannedHeight - w.recent.length)) := by
  have hlen := congrArg List.length (h.recent_rollbackTo height)
  rwa [List.length_map, List.length_range'] at hlen

omit [Decryption] in
theorem Scanned.rollbackTo (h : w.Scanned) (hborn : w.birthHeight ≤ height) :
    (w.rollbackTo height).1.Scanned := by
  have hborn' := h.born
  have hheights := h.recent_rollbackTo height
  have hlen := h.length_rollbackTo height
  have hscanned : (w.rollbackTo height).1.scannedHeight = min w.scannedHeight height := rfl
  have hbirth : (w.rollbackTo height).1.birthHeight = w.birthHeight := rfl
  constructor
  · intro d hd
    have hmem := List.mem_map_of_mem (f := WalletCoin.unreserved) hd
    rw [rollbackTo_coins] at hmem
    obtain ⟨c, hc, heq⟩ := List.mem_map.mp hmem
    obtain ⟨hc, hlt⟩ := List.mem_filter.mp hc
    have hheight : c.height = d.height := (congrArg WalletCoin.height heq :)
    have hspent : c.spentHeight.filter (· < height) = d.spentHeight :=
      (congrArg WalletCoin.spentHeight heq :)
    obtain ⟨hbelow, hspentBelow⟩ := h.coins c hc
    rw [hscanned, ← hheight, ← hspent]
    refine ⟨Nat.lt_min.mpr ⟨hbelow, of_decide_eq_true hlt⟩, ?_⟩
    intro k hk
    obtain ⟨hk, hklt⟩ := Option.filter_eq_some_iff.mp hk
    exact Nat.lt_min.mpr ⟨hspentBelow k hk, of_decide_eq_true hklt⟩
  · intro t ht
    obtain ⟨s, hs, rfl⟩ := List.mem_map.mp ht
    obtain ⟨hheight, hfailed⟩ := h.sent s hs
    refine ⟨?_, ?_⟩
    · intro k hk
      obtain ⟨hk, hklt⟩ := Option.filter_eq_some_iff.mp hk
      exact Nat.lt_min.mpr ⟨hheight k hk, of_decide_eq_true hklt⟩
    · intro k hk
      obtain ⟨hk, hklt⟩ := Option.filter_eq_some_iff.mp hk
      exact Nat.lt_min.mpr ⟨hfailed k hk, of_decide_eq_true hklt⟩
  · rw [hheights, hlen, hscanned]
    by_cases hempty : height ≤ w.scannedHeight - w.recent.length
    · have hzero : min w.recent.length (height - (w.scannedHeight - w.recent.length)) = 0 := by
        omega
      rw [hzero, List.range'_zero, List.range'_zero]
    · congr 1
      omega
  · rw [hlen]
    exact (Nat.min_le_left _ _).trans h.kept
  · rw [hbirth, hlen, hscanned]
    omega

theorem undo_scanBlock (hk : height ≤ w.scannedHeight) {h : Nat}
    (hok : w.scanBlock h batch = .ok w') :
    undoCoins height w'.coins = undoCoins height w.coins ∧
      undoSent height w'.sent = undoSent height w.sent ∧
      w'.recent.filter (·.1 < height) <:+ w.recent.filter (·.1 < height) ∧
      height ≤ w'.scannedHeight ∧ w'.keys = w.keys ∧ w'.birthHeight = w.birthHeight := by
  obtain ⟨rfl, -, rfl⟩ := scanBlock_eq_ok.mp hok
  refine ⟨?_, undoSent_settle hk, ?_, Nat.le_succ_of_le hk, rfl, rfl⟩
  · rw [undoCoins_addCoins hk, undoCoins_markSpent hk]
  · have hnew : (w.recent ++ [(w.scannedHeight, batch.extension.finalHash)]).filter
        (·.1 < height) = w.recent.filter (·.1 < height) := by
      simp [List.filter_append, hk]
    dsimp only
    split
    · rw [← hnew]
      exact (List.tail_suffix _).filter _
    · rw [hnew]

theorem undo_scanAll (hk : height ≤ w.scannedHeight) (hok : w.scanAll batches = .ok w') :
    undoCoins height w'.coins = undoCoins height w.coins ∧
      undoSent height w'.sent = undoSent height w.sent ∧
      w'.recent.filter (·.1 < height) <:+ w.recent.filter (·.1 < height) ∧
      height ≤ w'.scannedHeight ∧ w'.keys = w.keys ∧ w'.birthHeight = w.birthHeight := by
  induction batches generalizing w with
  | nil =>
    obtain rfl := pure_eq_ok.mp hok
    exact ⟨rfl, rfl, List.suffix_rfl, hk, rfl, rfl⟩
  | cons b batches ih =>
    obtain ⟨mid, hmid, hrest⟩ := foldlM_cons_eq_ok.mp hok
    obtain ⟨hcoins, hsent, hrecent, hheight, hkeys, hbirth⟩ := undo_scanBlock hk hmid
    obtain ⟨hcoins', hsent', hrecent', hheight', hkeys', hbirth'⟩ := ih hheight hrest
    exact ⟨hcoins'.trans hcoins, hsent'.trans hsent, hrecent'.trans hrecent, hheight',
      hkeys'.trans hkeys, hbirth'.trans hbirth⟩

theorem Scanned.rollback_scanAll (h : w.Scanned) (hok : w.scanAll batches = .ok w') :
    (w'.rollbackTo w.scannedHeight).1.Agree w ∧
      (w'.rollbackTo w.scannedHeight).1.recent <:+ w.recent := by
  obtain ⟨hcoins, hsent, hrecent, hheight, hkeys, -⟩ := undo_scanAll (Nat.le_refl _) hok
  refine ⟨⟨hkeys, ?_, ?_, Nat.min_eq_right hheight⟩, ?_⟩
  · rw [rollbackTo_coins, hcoins, h.undoCoins_eq]
  · rw [rollbackTo_sent, hsent, h.undoSent_eq]
  · have hall : w.recent.filter (·.1 < w.scannedHeight) = w.recent := by
      apply List.filter_eq_self.mpr
      intro p hp
      have hborn := h.born
      have hmem := List.mem_map_of_mem (f := Prod.fst) hp
      rw [h.recent, List.mem_range'_1] at hmem
      apply decide_eq_true
      omega
    rw [hall] at hrecent
    exact hrecent

end Scans

section Lockstep

variable {height : Nat} {spent : List Point32} {kernels : List Bytes32}

theorem markSpent_unreserved (c : WalletCoin) :
    (markSpent height spent c).unreserved = markSpent height spent c.unreserved := by
  unfold markSpent
  simp only [WalletCoin.unreserved_commitment]
  by_cases hspent : (c.spentHeight.isNone && decide (c.commitment ∈ spent)) = true
  · rw [if_pos hspent]
    exact (if_pos hspent).symm
  · rw [if_neg hspent]
    exact (if_neg hspent).symm

theorem settle_bare (s : Sent) :
    (forget height (settle height spent kernels s)).bare = settle height spent kernels s.bare := by
  have hforget (s : Sent) : (forget height s).bare = s.bare := by
    unfold forget
    split <;> rfl
  rw [hforget, settle, settle, apply_ite Sent.bare, apply_ite Sent.bare, apply_ite Sent.bare]
  rfl

theorem map_markSpent_unreserved {coins coins' : List WalletCoin}
    (h : coins.map WalletCoin.unreserved = coins'.map WalletCoin.unreserved) :
    (coins.map (markSpent height spent)).map WalletCoin.unreserved =
      (coins'.map (markSpent height spent)).map WalletCoin.unreserved := by
  have hcommute : WalletCoin.unreserved ∘ markSpent height spent =
      markSpent height spent ∘ WalletCoin.unreserved := funext markSpent_unreserved
  rw [List.map_map, List.map_map, hcommute, ← List.map_map, ← List.map_map, h]

theorem map_settle_bare {sent sent' : List Sent} (h : sent.map Sent.bare = sent'.map Sent.bare) :
    ((sent.map (settle height spent kernels)).map (forget height)).map Sent.bare =
      ((sent'.map (settle height spent kernels)).map (forget height)).map Sent.bare := by
  have hcommute : (Sent.bare ∘ forget height) ∘ settle height spent kernels =
      settle height spent kernels ∘ Sent.bare := funext settle_bare
  rw [List.map_map, List.map_map, List.map_map, List.map_map, hcommute, ← List.map_map,
    ← List.map_map, h]

variable [Primitives] [Decryption] {v v' w w' : Wallet} {batch : Batch} {batches : List Batch}

theorem addCoins_unreserved {keys : WalletKeys} {sent sent' : List Sent}
    {created : List (Output × Bool)} {coins coins' : List WalletCoin}
    (h : coins.map WalletCoin.unreserved = coins'.map WalletCoin.unreserved) :
    (created.foldl (addCoin keys sent height) coins).map WalletCoin.unreserved =
      (created.foldl (addCoin keys sent' height) coins').map WalletCoin.unreserved := by
  induction created generalizing coins coins' with
  | nil => exact h
  | cons o created ih =>
    have hknown : coins.map WalletCoin.commitment = coins'.map WalletCoin.commitment := by
      have hmap := congrArg (List.map WalletCoin.commitment) h
      rw [List.map_map, List.map_map] at hmap
      exact hmap
    apply ih
    unfold addCoin
    rw [hknown]
    split
    · exact h
    · split
      · rw [List.map_append, List.map_append, h]
        rfl
      · exact h

omit [Primitives] [Decryption] in
theorem suffix_push {r l : List (Nat × Bytes32)} {e : Nat × Bytes32} (h : r <:+ l)
    (hl : l.length ≤ reorgWindow) :
    (if (r ++ [e]).length > reorgWindow then (r ++ [e]).tail else r ++ [e]) <:+
      (if (l ++ [e]).length > reorgWindow then (l ++ [e]).tail else l ++ [e]) := by
  have hle := h.length_le
  cases l with
  | nil =>
    obtain rfl := List.suffix_nil.mp h
    exact List.suffix_rfl
  | cons a l =>
    rcases List.suffix_cons_iff.mp h with rfl | h
    · exact List.suffix_rfl
    · have hshort := h.length_le
      have hlen : (r ++ [e]).length = r.length + 1 := List.length_append
      have hfits : ¬ (r ++ [e]).length > reorgWindow := by
        rw [List.length_cons] at hl
        omega
      have hpushed : r ++ [e] <:+ l ++ [e] := by
        obtain ⟨t, rfl⟩ := h
        exact ⟨t, (List.append_assoc _ _ _).symm⟩
      rw [if_neg hfits]
      split
      · exact hpushed
      · exact hpushed.trans (List.suffix_cons a _)

theorem Agree.scanBlock (h : v.Agree w) (hw : w.Scanned) (hrecent : v.recent <:+ w.recent)
    (hok : w.scanBlock height batch = .ok w') :
    ∃ v', v.scanBlock height batch = .ok v' ∧ v'.Agree w' ∧ v'.recent <:+ w'.recent := by
  obtain ⟨rfl, hlinked, rfl⟩ := scanBlock_eq_ok.mp hok
  refine ⟨_, scanBlock_eq_ok.mpr ⟨h.height.symm, ?_, rfl⟩,
    ⟨h.keys, ?_, map_settle_bare h.sent, rfl⟩,
    suffix_push hrecent hw.kept⟩
  · intro hpos x hx
    apply hlinked hpos x
    obtain ⟨p, hfound, rfl⟩ := Option.map_eq_some_iff.mp hx
    have hp : p.1 = w.scannedHeight - 1 := by simpa using List.find?_some hfound
    have hmem := hrecent.subset (List.mem_of_find?_eq_some hfound)
    exact hw.mem_recent.mpr (hp ▸ hmem)
  · rw [h.keys]
    exact addCoins_unreserved (map_markSpent_unreserved h.coins)

theorem Agree.scanAll (h : v.Agree w) (hw : w.Scanned) (hrecent : v.recent <:+ w.recent)
    (hok : w.scanAll batches = .ok w') :
    ∃ v', v.scanAll batches = .ok v' ∧ v'.Agree w' := by
  induction batches generalizing v w with
  | nil =>
    obtain rfl := pure_eq_ok.mp hok
    exact ⟨v, rfl, h⟩
  | cons b batches ih =>
    obtain ⟨mid, hmid, hrest⟩ := foldlM_cons_eq_ok.mp hok
    obtain ⟨v', hv', hagree, hsuffix⟩ := h.scanBlock hw hrecent hmid
    obtain ⟨v'', hv'', hagree'⟩ := ih hagree (hw.scanBlock hmid) hsuffix hrest
    exact ⟨v'', foldlM_cons_eq_ok.mpr ⟨v', h.height ▸ hv', hv''⟩, hagree'⟩

end Lockstep

section Steps

variable {coins : List WalletCoin} {sent : List Sent} {a b : Nat}

theorem filter_filter_below (o : Option Nat) (hle : b ≤ a) :
    (o.filter (· < a)).filter (· < b) = o.filter (· < b) := by
  rw [Option.filter_filter]
  congr 1
  funext k
  by_cases hk : k < b
  · simp [hk, Nat.lt_of_lt_of_le hk hle]
  · simp [hk]

theorem undoCoins_unreserved :
    undoCoins a (coins.map WalletCoin.unreserved) = undoCoins a coins := by
  induction coins with
  | nil => rfl
  | cons c coins ih =>
    simp only [undoCoins, List.map_cons, List.filter_cons] at ih ⊢
    have hheight : c.unreserved.height = c.height := rfl
    rw [hheight]
    split
    · rw [List.map_cons, List.map_cons, ih]
      rfl
    · exact ih

theorem undoCoins_undoCoins (hle : b ≤ a) :
    undoCoins b (undoCoins a coins) = undoCoins b coins := by
  induction coins with
  | nil => rfl
  | cons c coins ih =>
    have hspent := filter_filter_below c.spentHeight hle
    simp only [undoCoins, List.filter_cons] at ih ⊢
    by_cases hb : c.height < b
    · have ha : c.height < a := Nat.lt_of_lt_of_le hb hle
      have hkept : (unspend a c).unreserved.height = c.height := rfl
      rw [if_pos (decide_eq_true ha), if_pos (decide_eq_true hb), List.map_cons, List.map_cons,
        List.filter_cons, hkept, if_pos (decide_eq_true hb), List.map_cons, ih]
      congr 1
      simp only [unspend, WalletCoin.unreserved, hspent]
    · have hkept : (unspend a c).unreserved.height = c.height := rfl
      have hnot : ¬ decide (c.height < b) = true := by simpa using hb
      rw [if_neg hnot]
      split
      · rw [List.map_cons, List.filter_cons, hkept, if_neg hnot]
        exact ih
      · exact ih

theorem undoSent_bare : undoSent a (sent.map Sent.bare) = undoSent a sent := by
  rw [undoSent, undoSent, List.map_map]
  rfl

theorem undoSent_undoSent (hle : b ≤ a) : undoSent b (undoSent a sent) = undoSent b sent := by
  rw [undoSent, undoSent, undoSent, List.map_map]
  apply List.map_congr_left
  intro s _
  simp only [Function.comp_apply, Sent.unsettle, Sent.bare, filter_filter_below _ hle]

variable [Primitives] {v w : Wallet}

theorem Agree.rollbackTo (h : v.Agree (w.rollbackTo a).1) (hle : b ≤ a) :
    (v.rollbackTo b).1.Agree (w.rollbackTo b).1 where
  keys := h.keys
  coins := by
    rw [rollbackTo_coins, rollbackTo_coins, ← undoCoins_unreserved, h.coins, rollbackTo_coins,
      undoCoins_undoCoins hle]
  sent := by
    rw [rollbackTo_sent, rollbackTo_sent, ← undoSent_bare, h.sent, rollbackTo_sent,
      undoSent_undoSent hle]
  height := by
    have hheight : v.scannedHeight = min w.scannedHeight a := h.height
    show min v.scannedHeight b = min w.scannedHeight b
    omega

theorem Scanned.agree_rollbackTo (h : w.Scanned) :
    w.Agree (w.rollbackTo w.scannedHeight).1 where
  keys := rfl
  coins := by rw [rollbackTo_coins, h.undoCoins_eq]
  sent := by rw [rollbackTo_sent, h.undoSent_eq]
  height := (Nat.min_self _).symm

end Steps

section Forks

variable [Primitives] {v w : Wallet} {chain : List Batch} {fork : Nat}

/-- The recorded hashes are the chain's below the fork, and others from it on. -/
def ForksAt (w : Wallet) (chain : List Batch) (fork : Nat) : Prop :=
  ∀ k x b, (k, x) ∈ w.recent → chain[k]? = some b → (x = b.extension.finalHash ↔ k < fork)

/-- The recorded hashes are the chain's. -/
def OnChain (w : Wallet) (chain : List Batch) : Prop :=
  ∀ k x b, (k, x) ∈ w.recent → chain[k]? = some b → x = b.extension.finalHash

/-- Each block builds on the one before it. -/
def Linked (chain : List Batch) : Prop :=
  ∀ k b c, chain[k]? = some b → chain[k + 1]? = some c → c.prevHeaderHash = b.extension.finalHash

def idAt (chain : List Batch) (height : Nat) : Result (Option Bytes32) :=
  .ok (chain[height]?.map fun b => b.extension.finalHash)

/-- A node that answers with blocks of the chain, as many as it likes but at least one. -/
def Serves (fetch : Nat → Nat → Result (List Batch)) (chain : List Batch) : Prop :=
  ∀ start n, start < chain.length → 0 < n →
    ∃ m, 0 < m ∧ m ≤ n ∧ fetch start n = .ok ((chain.drop start).take m)

theorem ForksAt.rollbackTo (h : w.ForksAt chain fork) (height : Nat) :
    (w.rollbackTo height).1.ForksAt chain fork :=
  fun k x b hmem => h k x b (List.mem_filter.mp hmem).1

/-- A step back forgets eleven recorded hashes or all of them, and no block below the birth
height. -/
theorem stepBack_ok {f : Following} (hf : f.wallet.Scanned)
    (hrollbacks : f.rollbacks < maxRollbacks) :
    ∃ f' height, f.stepBack = (f', .ok ()) ∧ f'.wallet = (f.wallet.rollbackTo height).1 ∧
      f'.rollbacks = f.rollbacks + 1 ∧ f.wallet.birthHeight ≤ height ∧
      height ≤ f.wallet.scannedHeight ∧
      f'.wallet.recent.length ≤ f.wallet.recent.length - 11 ∧
      height - f'.wallet.recent.length ≤ f.wallet.scannedHeight - f.wallet.recent.length := by
  have hborn := hf.born
  have hnot : ¬ f.rollbacks + 1 > maxRollbacks := by omega
  have hlen := hf.length_rollbackTo
  have hnear : ∃ height, (height = f.wallet.birthHeight ∨
      f.wallet.birthHeight < height ∧ height = f.wallet.scannedHeight - 11) ∧
      height = if decide (max f.wallet.birthHeight (f.wallet.scannedHeight - 11) >
          f.wallet.birthHeight) && (f.wallet.recordedHash
            (max f.wallet.birthHeight (f.wallet.scannedHeight - 11) - 1)).isNone
        then f.wallet.birthHeight
        else max f.wallet.birthHeight (f.wallet.scannedHeight - 11) := by
    refine ⟨_, ?_, rfl⟩
    split
    · exact .inl rfl
    · rcases Nat.le_total (f.wallet.scannedHeight - 11) f.wallet.birthHeight with hle | hle
      · exact .inl (Nat.max_eq_left hle)
      · rw [Nat.max_eq_right hle]
        rcases Nat.eq_or_lt_of_le hle with heq | hlt
        · exact .inl heq.symm
        · exact .inr ⟨hlt, rfl⟩
  obtain ⟨height, hcases, hheight⟩ := hnear
  refine ⟨_, height, by rw [Following.stepBack, if_neg hnot], by rw [hheight], rfl, ?_, ?_, ?_, ?_⟩
  · omega
  · omega
  · show (f.wallet.rollbackTo _).1.recent.length ≤ _
    rw [← hheight, hlen]
    omega
  · show height - (f.wallet.rollbackTo _).1.recent.length ≤ _
    rw [← hheight, hlen]
    omega

theorem Scanned.mem_heights (h : w.Scanned) {k : Nat} {x : Bytes32} (hmem : (k, x) ∈ w.recent) :
    k < w.scannedHeight := by
  have hborn := h.born
  have hk := List.mem_map_of_mem (f := Prod.fst) hmem
  rw [h.recent, List.mem_range'_1] at hk
  omega

theorem Scanned.recorded_last (h : w.Scanned)
    (hnone : w.recordedHash (w.scannedHeight - 1) = none) :
    w.recent.length = 0 := by
  have hborn := h.born
  by_contra hne
  have hlast : w.scannedHeight - 1 ∈ w.recent.map Prod.fst := by
    rw [h.recent, List.mem_range'_1]
    omega
  obtain ⟨⟨k, x⟩, hmem, hk⟩ := List.mem_map.mp hlast
  rw [h.mem_recent.mpr (hk ▸ hmem : (w.scannedHeight - 1, x) ∈ w.recent)] at hnone
  cases hnone

theorem ForksAt.onChain (h : w.ForksAt chain fork) (hw : w.Scanned)
    (hle : w.scannedHeight ≤ fork) : w.OnChain chain :=
  fun k x b hmem hb => (h k x b hmem hb).mpr (Nat.lt_of_lt_of_le (hw.mem_heights hmem) hle)

/-- Either the last block is the node's or unknown, at or below the fork, or there is a hash
left and a step back. -/
theorem checkLastBlock_succ {f : Following} (hf : f.wallet.Scanned)
    (hforks : f.wallet.ForksAt chain fork)
    (hdeep : f.wallet.scannedHeight - f.wallet.recent.length ≤ fork)
    (htip : f.wallet.scannedHeight ≤ chain.length) (n : Nat) :
    f.checkLastBlock chain.length (idAt chain) (n + 1) = (f, .ok ()) ∧
        f.wallet.scannedHeight ≤ fork ∨
      0 < f.wallet.recent.length ∧
        f.checkLastBlock chain.length (idAt chain) (n + 1) = match f.stepBack with
          | (f, .error e) => (f, .error e)
          | (f, .ok _) => f.checkLastBlock chain.length (idAt chain) n := by
  by_cases hzero : f.wallet.scannedHeight = 0
  · refine .inl ⟨?_, hzero ▸ Nat.zero_le _⟩
    rw [Following.checkLastBlock, if_pos (.inl hzero)]
  · have hnot : ¬ (f.wallet.scannedHeight = 0 ∨ f.wallet.scannedHeight > chain.length) := by omega
    cases hrecorded : f.wallet.recordedHash (f.wallet.scannedHeight - 1) with
    | none =>
      have hlen := hf.recorded_last hrecorded
      refine .inl ⟨?_, by omega⟩
      simp only [Following.checkLastBlock, if_neg hnot, hrecorded]
    | some recorded =>
      have hmem := hf.mem_recent.mp hrecorded
      obtain ⟨b, hb⟩ : ∃ b, chain[f.wallet.scannedHeight - 1]? = some b :=
        ⟨_, List.getElem?_eq_getElem (by omega)⟩
      by_cases hsame : b.extension.finalHash = recorded
      · refine .inl ⟨?_, ?_⟩
        · simp only [Following.checkLastBlock, if_neg hnot, hrecorded, idAt, hb, Option.map_some,
            if_pos hsame]
        · have hlt := (hforks _ _ b hmem hb).mp hsame.symm
          omega
      · refine .inr ⟨List.length_pos_of_mem hmem, ?_⟩
        rcases hstep : f.stepBack with ⟨g, e | _⟩
        all_goals
          simp only [Following.checkLastBlock, if_neg hnot, hrecorded, idAt, hb, Option.map_some,
            if_neg hsame, hstep]

/-- Checking the last block steps back to the fork or below, within the rollbacks allowed. -/
theorem checkLastBlock_ok {f : Following} {n fuel : Nat} (hf : f.wallet.Scanned)
    (hforks : f.wallet.ForksAt chain fork)
    (hdeep : f.wallet.scannedHeight - f.wallet.recent.length ≤ fork)
    (htip : f.wallet.scannedHeight ≤ chain.length) (hleft : f.wallet.recent.length ≤ 11 * n)
    (hrollbacks : f.rollbacks + n ≤ maxRollbacks) (hfuel : n < fuel)
    (hagree : f.wallet.Agree (w.rollbackTo f.wallet.scannedHeight).1) :
    ∃ f', f.checkLastBlock chain.length (idAt chain) fuel = (f', .ok ()) ∧
      f'.wallet.Scanned ∧ f'.wallet.OnChain chain ∧ f'.wallet.scannedHeight ≤ fork ∧
      f'.wallet.scannedHeight ≤ f.wallet.scannedHeight ∧
      f'.wallet.birthHeight = f.wallet.birthHeight ∧
      f'.wallet.Agree (w.rollbackTo f'.wallet.scannedHeight).1 := by
  obtain ⟨fuel, rfl⟩ : ∃ k, fuel = k + 1 := ⟨fuel - 1, by omega⟩
  induction n generalizing f fuel with
  | zero =>
    rcases checkLastBlock_succ hf hforks hdeep htip fuel with ⟨hstop, hle⟩ | ⟨hpos, -⟩
    · exact ⟨f, hstop, hf, hforks.onChain hf hle, hle, Nat.le_refl _, rfl, hagree⟩
    · omega
  | succ n ih =>
    rcases checkLastBlock_succ hf hforks hdeep htip fuel with ⟨hstop, hle⟩ | ⟨hpos, hstep⟩
    · exact ⟨f, hstop, hf, hforks.onChain hf hle, hle, Nat.le_refl _, rfl, hagree⟩
    · obtain ⟨f', height, hback, hwallet, hcount, hborn, hheight, hshrunk, hlow⟩ :=
        stepBack_ok hf (by omega)
      have hscanned : f'.wallet.scannedHeight = height := by
        rw [hwallet]
        exact Nat.min_eq_right hheight
      have hbirth : f'.wallet.birthHeight = f.wallet.birthHeight := by
        rw [hwallet]
        rfl
      have hf' : f'.wallet.Scanned := hwallet ▸ hf.rollbackTo hborn
      have hforks' : f'.wallet.ForksAt chain fork := hwallet ▸ hforks.rollbackTo height
      have hagree' : f'.wallet.Agree (w.rollbackTo f'.wallet.scannedHeight).1 := by
        rw [hscanned, hwallet]
        exact hagree.rollbackTo hheight
      obtain ⟨fuel, rfl⟩ : ∃ k, fuel = k + 1 := ⟨fuel - 1, by omega⟩
      obtain ⟨g, hrun, hg, honchain, hle, hback', hgbirth, hgagree⟩ :=
        ih hf' hforks' (by omega) (by omega) (by omega) (by omega) hagree' fuel (by omega)
      refine ⟨g, ?_, hg, honchain, hle, hback'.trans (hscanned ▸ hheight), hgbirth.trans hbirth,
        hgagree⟩
      rw [hstep, hback]
      exact hrun

variable [Decryption]

/-- Blocks of the chain that follow the scanned ones are scanned. -/
theorem scanBatches_ok {f : Following} {batches : List Batch} (hlinked : Linked chain)
    (hf : f.wallet.Scanned) (hchain : f.wallet.OnChain chain)
    (hnext : batches <+: chain.drop f.wallet.scannedHeight) :
    ∃ f', Following.scanBatches f.wallet.scannedHeight batches f = (f', .ok ()) ∧
      f.wallet.scanAll batches = .ok f'.wallet ∧ f'.wallet.Scanned ∧ f'.wallet.OnChain chain ∧
      f'.wallet.scannedHeight = f.wallet.scannedHeight + batches.length := by
  induction batches generalizing f with
  | nil => exact ⟨f, rfl, rfl, hf, hchain, rfl⟩
  | cons b batches ih =>
    obtain ⟨rest, hrest⟩ := hnext
    have hb : chain[f.wallet.scannedHeight]? = some b := by
      have hhead := congrArg (·[0]?) hrest
      simpa using hhead.symm
    have hok : ∃ w', f.wallet.scanBlock f.wallet.scannedHeight b = .ok w' := by
      refine ⟨_, scanBlock_eq_ok.mpr ⟨rfl, ?_, rfl⟩⟩
      intro hpos x hx
      obtain ⟨k, hk⟩ : ∃ k, f.wallet.scannedHeight = k + 1 :=
        ⟨f.wallet.scannedHeight - 1, by omega⟩
      rw [hk, Nat.add_sub_cancel] at hx
      obtain ⟨a, ha⟩ : ∃ a, chain[k]? = some a := by
        have hlt : k + 1 < chain.length := by
          rw [← hk]
          exact (List.getElem?_eq_some_iff.mp hb).1
        exact ⟨_, List.getElem?_eq_getElem (by omega)⟩
      rw [hchain k x a (hf.mem_recent.mp hx) ha]
      exact (hlinked k a b ha (hk ▸ hb)).symm
    obtain ⟨w', hw'⟩ := hok
    have hscanned := hf.scanBlock hw'
    obtain ⟨-, -, heq⟩ := scanBlock_eq_ok.mp hw'
    have hheight : w'.scannedHeight = f.wallet.scannedHeight + 1 := heq ▸ rfl
    have hrecent : ∀ p ∈ w'.recent,
        p ∈ f.wallet.recent ++ [(f.wallet.scannedHeight, b.extension.finalHash)] := by
      rw [← heq]
      intro p hp
      dsimp only at hp
      split at hp
      · exact List.mem_of_mem_tail hp
      · exact hp
    have hchain' : w'.OnChain chain := by
      intro k x a hmem ha
      rcases List.mem_append.mp (hrecent _ hmem) with hold | hnew
      · exact hchain k x a hold ha
      · obtain ⟨rfl, rfl⟩ := Prod.mk.inj (List.mem_singleton.mp hnew)
        rw [Option.some.inj (hb.symm.trans ha)]
    have hnext' : batches <+: chain.drop w'.scannedHeight := by
      refine ⟨rest, ?_⟩
      rw [hheight, ← List.drop_drop, ← hrest]
      rfl
    obtain ⟨g, hrun, hall, hg, hgchain, hgheight⟩ :=
      @ih { f with wallet := w', report := { f.report with blocks := f.report.blocks + 1 } }
        hscanned hchain' hnext'
    refine ⟨g, ?_, foldlM_cons_eq_ok.mpr ⟨w', hw', hall⟩, hg, hgchain, ?_⟩
    · rw [Following.scanBatches, hw']
      rw [← hheight]
      exact hrun
    · rw [hgheight, List.length_cons]
      show w'.scannedHeight + _ = _
      omega

/-- Scanning forward on a node's chain ends at its tip. -/
theorem scanForward_ok {f : Following} {fetch : Nat → Nat → Result (List Batch)} {fuel : Nat}
    (hlinked : Linked chain) (hserves : Serves fetch chain) (hf : f.wallet.Scanned)
    (hchain : f.wallet.OnChain chain) (htip : f.wallet.scannedHeight ≤ chain.length)
    (hfuel : chain.length - f.wallet.scannedHeight < fuel) :
    ∃ f', f.scanForward chain.length fetch fuel = (f', .ok ()) ∧
      f.wallet.scanAll (chain.drop f.wallet.scannedHeight) = .ok f'.wallet ∧
      f'.wallet.OnChain chain ∧ f'.wallet.scannedHeight = chain.length := by
  induction fuel generalizing f with
  | zero => omega
  | succ fuel ih =>
    by_cases hlt : f.wallet.scannedHeight < chain.length
    · obtain ⟨m, hm, hle, hfetch⟩ :=
        hserves f.wallet.scannedHeight (min (chain.length - f.wallet.scannedHeight) 64) hlt
          (by omega)
      have hlen : ((chain.drop f.wallet.scannedHeight).take m).length = m := by
        rw [List.length_take, List.length_drop]
        omega
      obtain ⟨g, hrun, hall, hg, hgchain, hgheight⟩ :=
        scanBatches_ok hlinked hf hchain (List.take_prefix m (chain.drop f.wallet.scannedHeight))
      rw [hlen] at hgheight
      obtain ⟨g', hrun', hall', hgchain', hgheight'⟩ :=
        ih hg hgchain (by omega) (by omega)
      refine ⟨g', ?_, ?_, hgchain', hgheight'⟩
      · rw [Following.scanForward]
        simp only [if_pos hlt, hfetch]
        cases hbatches : (chain.drop f.wallet.scannedHeight).take m with
        | nil =>
          rw [hbatches] at hlen
          rw [← hlen] at hm
          cases hm
        | cons b batches =>
          rw [hbatches] at hrun
          simp only [hrun]
          exact hrun'
      · have hsplit : chain.drop f.wallet.scannedHeight =
            (chain.drop f.wallet.scannedHeight).take m ++ chain.drop g.wallet.scannedHeight := by
          rw [hgheight, ← List.drop_drop, List.take_append_drop]
        rw [hsplit, scanAll, List.foldlM_append]
        exact bind_eq_ok.mpr ⟨g.wallet, hall, hall'⟩
    · refine ⟨f, ?_, ?_, hchain, by omega⟩
      · rw [Following.scanForward]
        simp only [if_neg hlt]
      · rw [List.drop_eq_nil_of_le (Nat.not_lt.mp hlt)]
        rfl

end Forks

section Following

variable [Primitives] [Decryption] {w w' : Wallet}

/-- Calls that no rescan lowers the birth height by: blocks, payments and their release, and
rollbacks to the birth height or above. -/
def Fed (w : Wallet) : Call → Prop
  | .buildSend .. | .cancelPending _ | .scanBlock .. => True
  | .rollbackTo height => w.birthHeight ≤ height
  | _ => False

omit [Decryption] in
theorem Scanned.rebook (h : w.Scanned) {f : WalletCoin → WalletCoin} {sent : List Sent}
    (hf : ∀ c, (f c).height = c.height ∧ (f c).spentHeight = c.spentHeight)
    (hsent : ∀ t ∈ sent, (t.height = none ∧ t.failedAt = none) ∨
      ∃ s ∈ w.sent, t.height = s.height ∧ t.failedAt = s.failedAt) :
    Scanned { w with coins := w.coins.map f, sent := sent } where
  coins := by
    intro d hd
    obtain ⟨c, hc, rfl⟩ := List.mem_map.mp hd
    rw [(hf c).1, (hf c).2]
    exact h.coins c hc
  sent := by
    intro t ht
    rcases hsent t ht with ⟨hheight, hfailed⟩ | ⟨s, hs, hheight, hfailed⟩
    · rw [hheight, hfailed]
      exact ⟨nofun, nofun⟩
    · rw [hheight, hfailed]
      exact h.sent s hs
  recent := h.recent
  kept := h.kept
  born := h.born

theorem Scanned.buildSend (h : w.Scanned) {«to» : StealthAddress} {amount : Nat}
    {fee : Option Nat} {tipHeight now : Nat} {draw : TransactionDraw} :
    (w.buildSend «to» amount fee tipHeight now draw).1.Scanned := by
  unfold Wallet.buildSend
  split
  · exact h
  · rename_i hprepared
    obtain ⟨-, kernel, hkernel⟩ := prepareSend_eq_ok hprepared
    rw [hkernel]
    apply h.rebook
    · intro c
      split <;> exact ⟨rfl, rfl⟩
    · intro t ht
      rcases List.mem_append.mp ht with ht | ht
      · exact .inr ⟨t, ht, rfl, rfl⟩
      · obtain rfl := List.mem_singleton.mp ht
        exact .inl ⟨rfl, rfl⟩

omit [Decryption] in
theorem Scanned.cancelPending (h : w.Scanned) {txHash : Bytes32} :
    (w.cancelPending txHash).1.Scanned := by
  apply h.rebook
  · intro c
    split <;> exact ⟨rfl, rfl⟩
  · intro t ht
    obtain ⟨s, hs, rfl⟩ := List.mem_map.mp ht
    refine .inr ⟨s, hs, ?_, ?_⟩ <;> split <;> rfl

theorem scanned_of_run {keys : WalletKeys} {birthHeight : Nat}
    (h : Run Fed (restore keys birthHeight) w) : w.Scanned := by
  induction h with
  | start => exact ⟨nofun, nofun, rfl, Nat.zero_le _, Nat.le_refl _⟩
  | @call v v' c _ hfed hok ih =>
    cases c with
    | buildSend =>
      obtain rfl := Except.ok.inj hok
      exact ih.buildSend
    | cancelPending =>
      obtain rfl := Except.ok.inj hok
      exact ih.cancelPending
    | discardSend => exact hfed.elim
    | scanBlock => exact ih.scanBlock hok
    | rollbackTo =>
      obtain rfl := Except.ok.inj hok
      exact ih.rollbackTo hfed
    | rescanFrom => exact hfed.elim
    | settleOrphans => exact hfed.elim

/-- Checking the last block and scanning forward: the wallet goes back to the fork or below, not
below its birth height, and scans the node's chain on from there to its tip. -/
def Follows (w : Wallet) (chain : List Batch) (fork : Nat)
    (fetch : Nat → Nat → Result (List Batch)) (checks scans : Nat) : Prop :=
  ∃ f f', Following.checkLastBlock chain.length (idAt chain) checks ⟨w, 0, ⟨0, none, false⟩⟩ =
      (f, .ok ()) ∧
    f.scanForward chain.length fetch scans = (f', .ok ()) ∧
    w.birthHeight ≤ f.wallet.scannedHeight ∧ f.wallet.scannedHeight ≤ fork ∧
    f.wallet.Agree (w.rollbackTo f.wallet.scannedHeight).1 ∧
    f.wallet.scanAll (chain.drop f.wallet.scannedHeight) = .ok f'.wallet ∧
    f'.wallet.OnChain chain ∧ f'.wallet.scannedHeight = chain.length

/-- Rolling back leaves no trace of scanned blocks: coins, payments and height are what they were,
and another branch then scans as it would have at once. -/
theorem reorg_leaves_no_trace {keys : WalletKeys} {birthHeight : Nat}
    (h : Run Fed (restore keys birthHeight) w) :
    (∀ batches w', w.scanAll batches = .ok w' → (w'.rollbackTo w.scannedHeight).1.Agree w) ∧
    (∀ as bs wa wb, w.scanAll as = .ok wa → w.scanAll bs = .ok wb →
      ∃ wb', (wa.rollbackTo w.scannedHeight).1.scanAll bs = .ok wb' ∧ wb'.Agree wb) ∧
    ∀ (chain : List Batch) (fork : Nat) (fetch : Nat → Nat → Result (List Batch)),
      Linked chain → Serves fetch chain → w.ForksAt chain fork →
      w.scannedHeight - w.recent.length ≤ fork → w.scannedHeight ≤ chain.length →
      ∀ checks scans, maxRollbacks < checks → chain.length < scans →
      w.Follows chain fork fetch checks scans := by
  have hscanned := scanned_of_run h
  refine ⟨fun batches w' hok => (hscanned.rollback_scanAll hok).1, ?_, ?_⟩
  · intro as bs wa wb ha hb
    obtain ⟨hagree, hrecent⟩ := hscanned.rollback_scanAll ha
    exact hagree.scanAll hscanned hrecent hb
  · intro chain fork fetch hlinked hserves hforks hdeep htip checks scans hchecks hscans
    have hkept := hscanned.kept
    have hwindow : reorgWindow = 200 := rfl
    have hmax : maxRollbacks = 64 := rfl
    let start : Following := ⟨w, 0, ⟨0, none, false⟩⟩
    have hleft : start.wallet.recent.length ≤ 11 * maxRollbacks := by
      show w.recent.length ≤ _
      omega
    obtain ⟨f, hcheck, hf, hchain, hle, hback, hbirth, hagree⟩ :=
      checkLastBlock_ok (f := start) hscanned hforks hdeep htip hleft (Nat.zero_add _).le hchecks
        hscanned.agree_rollbackTo
    obtain ⟨f', hscan, hall, hchain', hheight⟩ :=
      scanForward_ok hlinked hserves hf hchain (hback.trans htip)
        (Nat.lt_of_le_of_lt (Nat.sub_le _ _) hscans)
    have hborn := hf.born
    refine ⟨f, f', hcheck, hscan, ?_, hle, hagree, hall, hchain', hheight⟩
    rw [hbirth] at hborn
    exact (Nat.le_add_right _ _).trans hborn

end Following

section Fixed

local instance forkWords : Primitives := Primitives.words

local instance forkOpening : Decryption := ⟨fun _ _ data => some (data.take 40)⟩

/-- An empty block of a given hash and predecessor. -/
def emptyBlock (prev hash : Bytes32) : Batch :=
  { Batch.genesis with prevHeaderHash := prev, extension := ⟨0, hash⟩ }

/-- A wallet that scanned two empty blocks. -/
def twoBlocks : Wallet := ⟨⟨1, 1, 0⟩, 2, [(0, 1), (1, 2)], [], 0, []⟩

theorem twoBlocks_run : Run Fed (restore ⟨1, 1, 0⟩ 0) twoBlocks := by
  have hfirst : (restore ⟨1, 1, 0⟩ 0).scanBlock 0 (emptyBlock 0 1) =
      .ok ⟨⟨1, 1, 0⟩, 1, [(0, 1)], [], 0, []⟩ := scanBlock_eq_ok.mpr ⟨rfl, nofun, rfl⟩
  have hsecond : Wallet.scanBlock ⟨⟨1, 1, 0⟩, 1, [(0, 1)], [], 0, []⟩ 1 (emptyBlock 1 2) =
      .ok twoBlocks := by
    refine scanBlock_eq_ok.mpr ⟨rfl, ?_, rfl⟩
    intro _ x hx
    exact (Option.some.inj hx).symm
  exact (Run.start.call (c := .scanBlock 0 (emptyBlock 0 1)) trivial hfirst).call
    (c := .scanBlock 1 (emptyBlock 1 2)) trivial hsecond

theorem linked_pair {a b : Batch} (h : b.prevHeaderHash = a.extension.finalHash) :
    Linked [a, b] := by
  intro k c d hc hd
  match k with
  | 0 =>
    obtain rfl := Option.some.inj hc
    obtain rfl := Option.some.inj hd
    exact h
  | k + 1 => cases hd

theorem serves_take (chain : List Batch) :
    Serves (fun start n => .ok ((chain.drop start).take n)) chain :=
  fun _ n _ hn => ⟨n, hn, Nat.le_refl n, rfl⟩

theorem ok_of_isOk {r : Result α} (h : r.isOk = true) (d : α) : r = .ok (r.toOption.getD d) := by
  cases r with
  | ok a => rfl
  | error e => cases h

/-- A block that pays the wallet one output. -/
def payingBlock (prev hash : Bytes32) : Batch :=
  { emptyBlock prev hash with
    body := ⟨⟨[], [⟨[⟨1000, 1 <<< 128, 1, 0,
      List.replicate 62 0 ++ [3, 232] ++ List.replicate 16 0, 0⟩], []⟩], []⟩, 0, 0⟩ }

/-- A block that spends it. -/
def spendingBlock (prev hash : Bytes32) : Batch :=
  { emptyBlock prev hash with body := ⟨⟨[⟨1000, 1 <<< 128, ⟨0, 0⟩⟩], [], []⟩, 0, 0⟩ }

def paidWallet : Wallet :=
  ((restore ⟨1, 1, 0⟩ 0).scanBlock 0 (payingBlock 0 1)).toOption.getD (restore ⟨1, 1, 0⟩ 0)

def paidThenSpent : Wallet := (paidWallet.scanBlock 1 (spendingBlock 1 2)).toOption.getD paidWallet

theorem paidWallet_run : Run Fed (restore ⟨1, 1, 0⟩ 0) paidWallet :=
  Run.start.call (c := .scanBlock 0 (payingBlock 0 1)) trivial
    (ok_of_isOk (by decide +kernel) (restore ⟨1, 1, 0⟩ 0))

theorem paidThenSpent_scanned : paidWallet.scanBlock 1 (spendingBlock 1 2) = .ok paidThenSpent :=
  ok_of_isOk (by decide +kernel) paidWallet

/-- The block that spends the coin gives way to another. -/
theorem reorg_leaves_no_trace_spent :
    paidThenSpent.coins.map WalletCoin.spentHeight = [some 1] ∧
      paidWallet.coins.map WalletCoin.spentHeight = [none] ∧
      (paidThenSpent.rollbackTo 1).1.Agree paidWallet ∧
      paidThenSpent.Follows [payingBlock 0 1, emptyBlock 1 3] 1
        (fun start n => .ok (([payingBlock 0 1, emptyBlock 1 3].drop start).take n)) 65 3 := by
  have hrun : Run Fed (restore ⟨1, 1, 0⟩ 0) paidThenSpent :=
    paidWallet_run.call (c := .scanBlock 1 (spendingBlock 1 2)) trivial paidThenSpent_scanned
  have hheight : paidWallet.scannedHeight = 1 := by decide +kernel
  have hall : paidWallet.scanAll [spendingBlock 1 2] = .ok paidThenSpent := by
    rw [scanAll, List.foldlM_cons, hheight, paidThenSpent_scanned]
    rfl
  have hback := (reorg_leaves_no_trace paidWallet_run).1 _ _ hall
  rw [hheight] at hback
  have hrecent : paidThenSpent.recent = [(0, 1), (1, 2)] := by decide +kernel
  refine ⟨by decide +kernel, by decide +kernel, hback,
    (reorg_leaves_no_trace hrun).2.2 _ 1 _ (linked_pair rfl) (serves_take _) ?_
      (by decide +kernel) (by decide +kernel) 65 3 (by decide) (by decide)⟩
  intro k x b hmem hb
  rw [hrecent] at hmem
  match k with
  | 0 =>
    obtain rfl := Option.some.inj hb
    have hx : x = 1 := by simpa using hmem
    simp [hx, payingBlock, emptyBlock]
  | 1 =>
    obtain rfl := Option.some.inj hb
    have hx : x = 2 := by simpa using hmem
    simp [hx, emptyBlock]
  | k + 2 => cases hb

/-- A wallet rolled back below its birth height that scanned one block. -/
def unborn : Wallet := ⟨⟨1, 1, 0⟩, 4, [(3, 1)], [], 10, []⟩

theorem unborn_run : Run (fun _ _ => True) (restore ⟨1, 1, 0⟩ 10) unborn := by
  have hscan : Wallet.scanBlock ⟨⟨1, 1, 0⟩, 3, [], [], 10, []⟩ 3 (emptyBlock 0 1) = .ok unborn :=
    scanBlock_eq_ok.mpr ⟨rfl, nofun, rfl⟩
  exact (Run.start.call (c := .rollbackTo 3) trivial rfl).call
    (c := .scanBlock 3 (emptyBlock 0 1)) trivial hscan

theorem unborn_stalls {chain : List Batch} {b : Batch} (hb : chain[3]? = some b)
    (hother : b.extension.finalHash ≠ 1) (htip : 4 ≤ chain.length) (n : Nat) {f : Following}
    (hf : f.wallet = unborn) :
    (f.checkLastBlock chain.length (idAt chain) n).2 ≠ .ok () := by
  induction n generalizing f with
  | zero => exact nofun
  | succ n ih =>
    have hscanned : f.wallet.scannedHeight = 4 := hf ▸ rfl
    have hrecorded : f.wallet.recordedHash 3 = some 1 := hf ▸ rfl
    have hnot : ¬ (4 = 0 ∨ 4 > chain.length) := by omega
    simp only [Following.checkLastBlock, hscanned, if_neg hnot, Nat.add_one_sub_one, hrecorded,
      idAt, hb, Option.map_some, if_neg hother]
    by_cases hover : f.rollbacks + 1 > maxRollbacks
    · rw [Following.stepBack, if_pos hover]
      exact nofun
    · rw [Following.stepBack, if_neg hover]
      apply ih
      dsimp only
      rw [hf]
      rfl

/-- A node below the scanned height is waited for, and a wallet rolled back below its birth height
cannot step back. -/
theorem follows_only_higher_nodes :
    (¬ ∀ (w : Wallet), Run Fed (restore ⟨1, 1, 0⟩ 0) w → ∀ chain fork fetch, Linked chain →
      Serves fetch chain → w.ForksAt chain fork → w.scannedHeight - w.recent.length ≤ fork →
      ∀ checks scans, maxRollbacks < checks → chain.length < scans →
        w.Follows chain fork fetch checks scans) ∧
    ¬ ∀ (w : Wallet), Run (fun _ _ => True) (restore ⟨1, 1, 0⟩ 10) w → ∀ chain fork fetch,
      Linked chain → Serves fetch chain → w.ForksAt chain fork →
      w.scannedHeight - w.recent.length ≤ fork → w.scannedHeight ≤ chain.length →
      ∀ checks scans, maxRollbacks < checks → chain.length < scans →
        w.Follows chain fork fetch checks scans := by
  constructor
  · intro hall
    have hforks : twoBlocks.ForksAt [emptyBlock 0 3] 0 := by
      intro k x b hmem hb
      match k with
      | 0 =>
        obtain rfl := Option.some.inj hb
        have hx : x = 1 := by simpa [twoBlocks] using hmem
        simp [hx, emptyBlock]
      | k + 1 => cases hb
    have hlinked : Linked [emptyBlock 0 3] := fun k b c hb hc => by cases hc
    obtain ⟨f, f', hcheck, hscan, -, hle, -⟩ := hall twoBlocks twoBlocks_run [emptyBlock 0 3] 0 _
      hlinked (serves_take _) hforks (by decide) 65 2 (by decide) (by decide)
    have hstays : (f, (.ok () : Result Unit)) = (⟨twoBlocks, 0, ⟨0, none, false⟩⟩, .ok ()) :=
      hcheck.symm.trans rfl
    obtain ⟨rfl, -⟩ := Prod.mk.inj hstays
    cases hle
  · intro hall
    let chain := [emptyBlock 0 3, emptyBlock 3 3, emptyBlock 3 3, emptyBlock 3 3]
    have hlinked : Linked chain := by
      intro k b c hb hc
      match k with
      | 0 | 1 | 2 =>
        obtain rfl := Option.some.inj hb
        obtain rfl := Option.some.inj hc
        rfl
      | k + 3 => cases hc
    have hforks : unborn.ForksAt chain 3 := by
      intro k x b hmem hb
      obtain ⟨rfl, rfl⟩ := Prod.mk.inj (List.mem_singleton.mp hmem)
      obtain rfl := Option.some.inj hb
      simp [emptyBlock]
    obtain ⟨f, -, hcheck, -⟩ := hall unborn unborn_run chain 3 _ hlinked (serves_take _) hforks
      (by decide) (by decide) 65 5 (by decide) (by decide)
    have hstalls : (Following.checkLastBlock chain.length (idAt chain) 65
        ⟨unborn, 0, ⟨0, none, false⟩⟩).2 ≠ .ok () :=
      unborn_stalls (b := emptyBlock 3 3) rfl (by decide) (by decide) 65 rfl
    rw [hcheck] at hstalls
    exact hstalls rfl

end Fixed

end Wallet

end Midwimble
