import Midwimble.Wallet.Balance
import Midwimble.Wallet.Building

namespace Midwimble
open Fallible WalletCore
set_option autoImplicit true

section General

variable [Primitives]

variable [Decryption]

/-- A coin that the wallet's keys open, on an output that consensus let through. -/
structure WalletCoin.Kept (keys : WalletKeys) (c : WalletCoin) : Prop where
  encoding : c.output.checkEncoding = .ok ()
  opens : ∃ owned, scanOutput keys c.output = some owned ∧ owned.value = c.value

/-- The states of a wallet with spending keys. -/
inductive Scanned (keys : WalletKeys) : WalletCore → Prop
  | restored : w.view = keys.viewOnly → w.keys = some keys → w.coins = [] → Scanned keys w
  | block : Scanned keys w → (∀ o ∈ Batch.created batch, o.1.checkEncoding = .ok ()) →
      w.scanBlock height batch = .ok w' → Scanned keys w'
  | rebooked : Scanned keys w → w'.view = w.view → w'.keys = w.keys →
      (w'.coins.map fun c => (c.output, c.value)).Sublist
        (w.coins.map fun c => (c.output, c.value)) → Scanned keys w'

/-- What scanning establishes. -/
structure HoldsCoins (keys : WalletKeys) (w : WalletCore) : Prop where
  view_eq : w.view = keys.viewOnly
  keys_eq : w.keys = some keys
  kept : ∀ c ∈ w.coins, c.Kept keys
  distinct : (w.coins.map WalletCoin.commitment).Nodup

theorem WalletCoin.Kept.of_eq {keys : WalletKeys} {c d : WalletCoin} (h : c.Kept keys)
    (houtput : d.output = c.output) (hvalue : d.value = c.value) : d.Kept keys := by
  obtain ⟨hencoding, owned, howned, heq⟩ := h
  refine ⟨?_, owned, ?_, ?_⟩
  · rw [houtput]
    exact hencoding
  · rw [houtput]
    exact howned
  · rw [hvalue]
    exact heq

omit [Primitives] [Decryption] in
theorem markSpent_output {height : Nat} {spent : List Point32} {c : WalletCoin} :
    (Wallet.markSpent height spent c).output = c.output := by
  unfold Wallet.markSpent
  split <;> rfl

omit [Primitives] [Decryption] in
theorem markSpent_value {height : Nat} {spent : List Point32} {c : WalletCoin} :
    (Wallet.markSpent height spent c).value = c.value := by
  unfold Wallet.markSpent
  split <;> rfl

section Holding

variable {keys : WalletKeys} {w w' : WalletCore} {coins : List WalletCoin} {sent : List Sent}
  {height : Nat}

theorem addDetected_kept {o : Output × Bool} (hcoins : ∀ c ∈ coins, c.Kept keys)
    (hdistinct : (coins.map WalletCoin.commitment).Nodup) (ho : o.1.checkEncoding = .ok ()) :
    (∀ c ∈ addDetected keys.viewOnly (some keys) sent height coins o, c.Kept keys) ∧
      ((addDetected keys.viewOnly (some keys) sent height coins o).map
        WalletCoin.commitment).Nodup := by
  unfold addDetected
  by_cases hknown : o.1.commitment ∈ coins.map WalletCoin.commitment
  · rw [if_pos hknown]
    exact ⟨hcoins, hdistinct⟩
  · rw [if_neg hknown, scan_viewOnly]
    cases howned : scanOutput keys o.1 with
    | none => exact ⟨hcoins, hdistinct⟩
    | some owned =>
      have hconfirm : confirmDetected (some keys) o.1 = true := by
        rw [confirmDetected, Option.all_some, howned]
        rfl
      dsimp only [Option.map_some]
      rw [if_pos hconfirm]
      refine ⟨?_, ?_⟩
      · intro c hc
        rcases List.mem_append.mp hc with hc | hc
        · exact hcoins c hc
        · obtain rfl := List.mem_singleton.mp hc
          exact ⟨ho, owned, howned, rfl⟩
      · rw [List.map_append, List.map_singleton]
        apply List.nodup_append'.mpr
        refine ⟨hdistinct, List.nodup_singleton _, ?_⟩
        intro c hc hc'
        obtain rfl := List.mem_singleton.mp hc'
        exact hknown hc

theorem foldl_addDetected_kept {created : List (Output × Bool)}
    (hcoins : ∀ c ∈ coins, c.Kept keys) (hdistinct : (coins.map WalletCoin.commitment).Nodup)
    (hcreated : ∀ o ∈ created, o.1.checkEncoding = .ok ()) :
    (∀ c ∈ created.foldl (addDetected keys.viewOnly (some keys) sent height) coins,
        c.Kept keys) ∧
      ((created.foldl (addDetected keys.viewOnly (some keys) sent height) coins).map
        WalletCoin.commitment).Nodup := by
  induction created generalizing coins with
  | nil => exact ⟨hcoins, hdistinct⟩
  | cons o created ih =>
    obtain ⟨ho, hcreated⟩ := List.forall_mem_cons.mp hcreated
    obtain ⟨hkept, hapart⟩ := @addDetected_kept _ _ keys coins sent height o hcoins hdistinct ho
    exact ih hkept hapart hcreated

theorem Scanned.holds (h : Scanned keys w) : HoldsCoins keys w := by
  induction h with
  | restored hview hkeys hcoins =>
    refine ⟨hview, hkeys, ?_, ?_⟩
    · rw [hcoins]
      nofun
    · rw [hcoins]
      exact List.nodup_nil
  | @block w batch height w' _ hcreated hscan ih =>
    obtain ⟨_, -, hscan⟩ := bind_eq_ok.mp hscan
    obtain ⟨_, -, hscan⟩ := bind_eq_ok.mp hscan
    cases hscan
    have hmarked : ∀ c ∈ w.coins.map (Wallet.markSpent height batch.body.inputCommitments),
        c.Kept keys := by
      intro c hc
      obtain ⟨d, hd, rfl⟩ := List.mem_map.mp hc
      exact (ih.kept d hd).of_eq markSpent_output markSpent_value
    have hnodup : ((w.coins.map (Wallet.markSpent height batch.body.inputCommitments)).map
        WalletCoin.commitment).Nodup := by
      have hsame : (w.coins.map (Wallet.markSpent height batch.body.inputCommitments)).map
          WalletCoin.commitment = w.coins.map WalletCoin.commitment := by
        rw [List.map_map]
        apply List.map_congr_left
        intro c _
        exact congrArg Output.commitment markSpent_output
      rw [hsame]
      exact ih.distinct
    have hadded := @foldl_addDetected_kept _ _ keys _ (w.sent.map (Wallet.settle height
      batch.body.inputCommitments batch.body.kernelIds)) height _ hmarked hnodup hcreated
    rw [← ih.view_eq, ← ih.keys_eq] at hadded
    exact ⟨ih.view_eq, ih.keys_eq, hadded.1, hadded.2⟩
  | @rebooked w w' _ hview hkeys hsub ih =>
    refine ⟨hview.trans ih.view_eq, hkeys.trans ih.keys_eq, ?_, ?_⟩
    · intro c hc
      obtain ⟨d, hd, heq⟩ := List.mem_map.mp (hsub.subset (List.mem_map_of_mem hc))
      obtain ⟨houtput, hvalue⟩ := Prod.mk.inj heq
      exact (ih.kept d hd).of_eq houtput.symm hvalue.symm
    · have hcommitments := hsub.map fun p : Output × Nat => p.1.commitment
      rw [List.map_map, List.map_map] at hcommitments
      exact ih.distinct.sublist hcommitments

end Holding

section Spending

variable {keys : WalletKeys} {w : WalletCore} {coins : List WalletCoin}

theorem opens_of_scanOutput {output : Output} {owned : OwnedOutput}
    (hencoding : output.checkEncoding = .ok ()) (h : scanOutput keys output = some owned) :
    (⟨output.commitment, owned.value, owned.blinding, owned.ownerSecret⟩ : Spendable).Opens := by
  rw [scanOutput_eq] at h
  obtain ⟨⟨value, blinding, tweak, salt⟩, hdetect, rfl⟩ := Option.map_eq_some_iff.mp h
  have howner := detect_owner hdetect
  obtain ⟨-, -, -, -, hcommitment, -⟩ := detect_eq_some.mp hdetect
  refine ⟨hcommitment.symm, ?_⟩
  intro hzero
  obtain ⟨_, -, hencoding⟩ := bind_eq_ok.mp hencoding
  obtain ⟨_, hkey, -⟩ := bind_eq_ok.mp hencoding
  rw [bailIf_eq_ok, ← howner, isNonIdentity, Primitives.decompress_compress] at hkey
  apply hkey
  dsimp only [OwnedOutput.ofDetected] at hzero
  rw [hzero]
  simp

theorem spendables_eq_ok (hkeys : w.keys = some keys) (hkept : ∀ c ∈ coins, c.Kept keys) :
    ∃ spend, w.spendables coins = .ok spend ∧ (∀ s ∈ spend, s.Opens) ∧
      spend.map Spendable.commitment = coins.map WalletCoin.commitment ∧
      spend.map Spendable.value = coins.map WalletCoin.value := by
  unfold spendables
  rw [hkeys, orBail_some, bind_ok]
  induction coins with
  | nil => exact ⟨[], rfl, nofun, rfl, rfl⟩
  | cons c coins ih =>
    obtain ⟨hc, hkept⟩ := List.forall_mem_cons.mp hkept
    obtain ⟨spend, hspend, hopens, hcommitments, hvalues⟩ := ih hkept
    obtain ⟨hencoding, owned, howned, hvalue⟩ := hc
    refine ⟨⟨c.commitment, owned.value, owned.blinding, owned.ownerSecret⟩ :: spend, ?_, ?_, ?_, ?_⟩
    · rw [List.mapM_cons, howned, hspend]
      rfl
    · exact List.forall_mem_cons.mpr ⟨opens_of_scanOutput hencoding howned, hopens⟩
    · rw [List.map_cons, List.map_cons, hcommitments]
    · rw [List.map_cons, List.map_cons, hvalues, hvalue]

omit [Decryption] in
theorem Fresh.subset {draw : TransactionDraw} {scan spendKey : Primitives.Point} {value : Nat}
    {few many : List Point32} (h : Fresh draw scan spendKey value many) (hsub : few ⊆ many) :
    Fresh draw scan spendKey value few :=
  ⟨h.nonce, h.commitment, h.ownerKey, fun hc => h.apart (hsub hc), h.offsets, h.shuffle⟩

omit [Decryption] in
theorem candidates_perm (w : WalletCore) (tipHeight : Nat) :
    (w.candidates tipHeight).Perm (w.coins.filter (Wallet.spendable tipHeight)) :=
  List.perm_insertionSort _ _

omit [Decryption] in
theorem mem_coins_of_mem_candidates {tipHeight : Nat} {c : WalletCoin}
    (h : c ∈ w.candidates tipHeight) : c ∈ w.coins :=
  List.mem_of_mem_filter ((candidates_perm w tipHeight).mem_iff.mp h)

omit [Decryption] in
theorem nodup_candidates {tipHeight : Nat} (h : (w.coins.map WalletCoin.commitment).Nodup) :
    ((w.candidates tipHeight).map WalletCoin.commitment).Nodup := by
  apply ((candidates_perm w tipHeight).map WalletCoin.commitment).nodup_iff.mpr
  exact h.sublist (List.filter_sublist.map _)

variable {options : SendOptions} {rate tipHeight now : Nat} {payee : StealthAddress}
  {scan spendKey : Primitives.Point} {draw : TransactionDraw}

/-- The largest payment is built exactly if its coins are not too heavy. -/
theorem buildSendWith_max_iff (hlib : LibrariesWork) (hholds : HoldsCoins keys w)
    (hrate : options.rate = .ok rate) (hfit : totalValue (w.candidates tipHeight) ≤ u64Max)
    (hpoints : payee.points = .ok (scan, spendKey))
    (hfresh : Fresh draw scan spendKey (w.maxSendableWith options tipHeight)
      (w.coins.map WalletCoin.commitment))
    (hpos : 0 < w.maxSendableWith options tipHeight) :
    (∃ out, w.buildSendWith payee (w.maxSendableWith options tipHeight) options tipHeight now
        draw = .ok out) ↔
      (w.paying options rate tipHeight).length * inputWeight + outputWeight + kernelWeight ≤
        maxTxWeight := by
  have hmax := maxSendableWith_eq hrate hfit
  have hselect := selectWith_max hrate hfit hpos
  have hsub : (w.paying options rate tipHeight).Sublist (w.candidates tipHeight) := paying_sublist
  have htotal := totalValue_le_of_sublist hsub
  generalize w.maxSendableWith options tipHeight = m at hmax hselect hfresh hpos ⊢
  generalize w.paying options rate tipHeight = coins at hmax hselect hsub htotal ⊢
  have hkept : ∀ c ∈ coins, c.Kept keys := fun c hc =>
    hholds.kept c (mem_coins_of_mem_candidates (hsub.subset hc))
  obtain ⟨spend, hspend, hopens, hcommitments, hvalues⟩ := spendables_eq_ok hholds.keys_eq hkept
  have hnodup : (spend.map Spendable.commitment).Nodup := by
    rw [hcommitments]
    exact (nodup_candidates hholds.distinct).sublist (hsub.map _)
  have hsubset : spend.map Spendable.commitment ⊆ w.coins.map WalletCoin.commitment := by
    rw [hcommitments]
    apply List.map_subset
    intro c hc
    exact mem_coins_of_mem_candidates (hsub.subset hc)
  have hsum : (spend.map Spendable.value).sum = m + feeAt rate coins.length := by
    rw [hvalues]
    show totalValue coins = _
    omega
  have hlen : spend.length = coins.length := by
    have h := congrArg List.length hcommitments
    rwa [List.length_map, List.length_map] at h
  have hbuild : (∃ built, buildTransaction spend [⟨payee, m⟩] w.view.address
      (feeAt rate coins.length) tipHeight draw = .ok built) ↔ _ :=
    buildTransaction_exact hlib hopens hnodup (Nat.ne_of_gt hpos) hsum (by omega) hpoints
      (hfresh.subset hsubset)
  rw [hlen] at hbuild
  rw [← hbuild]
  unfold buildSendWith
  rw [hselect, bind_ok]
  dsimp only
  rw [hspend, bind_ok]
  constructor
  · rintro ⟨out, h⟩
    obtain ⟨built, hbuilt, -⟩ := bind_eq_ok.mp h
    exact ⟨built, hbuilt⟩
  · rintro ⟨built, hbuilt⟩
    obtain ⟨kernel, hkernel⟩ := Wallet.buildTransaction_kernels hbuilt
    unfold finishSend
    rw [hbuilt, bind_ok, hkernel]
    exact ⟨_, rfl⟩

end Spending

/-- What the wallet says it can send it can send, and no more: a payment of the largest amount is
built for every address, none of any larger amount is, and largest-first selection fails only where
no choice of coins covers the amount and its fee. -/
theorem max_sendable_iff {keys : WalletKeys} {w : WalletCore} {options : SendOptions}
    {rate tipHeight now : Nat} {payee : StealthAddress} {scan spendKey : Primitives.Point}
    {draw : TransactionDraw} (hlib : LibrariesWork) (hscanned : Scanned keys w)
    (hrate : options.rate = .ok rate) (hfit : totalValue (w.candidates tipHeight) ≤ u64Max)
    (hpoints : payee.points = .ok (scan, spendKey))
    (hfresh : Fresh draw scan spendKey (w.maxSendableWith options tipHeight)
      (w.coins.map WalletCoin.commitment)) :
    ((0 < w.maxSendableWith options tipHeight → ∃ out, w.buildSendWith payee
        (w.maxSendableWith options tipHeight) options tipHeight now draw = .ok out) ∧
      (∀ amount > w.maxSendableWith options tipHeight, ∀ (draw : TransactionDraw) out,
        w.buildSendWith payee amount options tipHeight now draw ≠ .ok out) ∧
      ∀ amount > 0, (∀ out, w.selectBy amount (fun n => feeAt rate (max n 1)) tipHeight ≠ .ok out) →
        ∀ chosen : List WalletCoin, chosen.Sublist (w.candidates tipHeight) →
          totalValue chosen < amount + feeAt rate chosen.length) ↔
      (w.paying options rate tipHeight).length * inputWeight + outputWeight + kernelWeight ≤
          maxTxWeight ∨
        totalValue (w.paying options rate tipHeight) ≤
          feeAt rate (w.paying options rate tipHeight).length := by
  have hmax := maxSendableWith_eq hrate hfit
  have hbuild : 0 < w.maxSendableWith options tipHeight → ((∃ out, w.buildSendWith payee
      (w.maxSendableWith options tipHeight) options tipHeight now draw = .ok out) ↔ _) :=
    buildSendWith_max_iff hlib hscanned.holds hrate hfit hpoints hfresh
  have hless : ∀ amount > w.maxSendableWith options tipHeight, ∀ (draw : TransactionDraw) out,
      w.buildSendWith payee amount options tipHeight now draw ≠ .ok out := by
    intro amount hamount draw out h
    obtain ⟨selected, hselected, -⟩ := bind_eq_ok.mp h
    exact Nat.not_lt_of_le (selectWith_above hrate hfit hselected) hamount
  have hcomplete : ∀ amount > 0,
      (∀ out, w.selectBy amount (fun n => feeAt rate (max n 1)) tipHeight ≠ .ok out) →
        ∀ chosen : List WalletCoin, chosen.Sublist (w.candidates tipHeight) →
          totalValue chosen < amount + feeAt rate chosen.length := by
    intro amount hamount hfails chosen hchosen
    by_contra hcovers
    rw [Nat.not_lt] at hcovers
    have hone : max chosen.length 1 = chosen.length := by
      cases chosen with
      | nil =>
        have hempty : totalValue [] = 0 := rfl
        omega
      | cons c chosen => exact Nat.max_eq_left (Nat.succ_le_succ (Nat.zero_le _))
    have hmono : Monotone fun n => feeAt rate (max n 1) :=
      fun a b hab => feeAt_mono (max_le_max_right 1 hab)
    obtain ⟨out, hout⟩ := selectBy_complete hmono (Nat.ne_of_gt hamount) hfit hchosen
      (by rw [hone]; exact hcovers)
    exact hfails out hout
  constructor
  · rintro ⟨hsend, -, -⟩
    rcases Nat.eq_zero_or_pos (w.maxSendableWith options tipHeight) with hzero | hpos
    · exact .inr (Nat.sub_eq_zero_iff_le.mp (hmax.symm.trans hzero))
    · exact .inl ((hbuild hpos).mp (hsend hpos))
  · intro hcondition
    refine ⟨?_, hless, hcomplete⟩
    intro hpos
    apply (hbuild hpos).mpr
    rcases hcondition with hweight | hworth
    · exact hweight
    · omega

end General

section Words

local instance unitWords : Primitives := { Primitives.words with genG := (1 : Bytes32) }

local instance unitOpening : Decryption :=
  ⟨fun _ _ ciphertext => some (ciphertext.take (ciphertext.length - 16))⟩

theorem unit_libraries : LibrariesWork where
  rangeVerifies := fun _ _ _ _ _ _ _ _ => rfl
  rangeProves := fun _ _ _ _ _ => ⟨List.replicate 672 0, rfl, by
    rw [List.length_replicate]
    decide +kernel⟩
  seals := fun _ _ plaintext _ => ⟨plaintext ++ List.replicate 16 0, rfl, by
    rw [List.length_append, List.length_replicate]⟩
  primeG := fun s h => (mul_one (s : Bytes32)).symm.trans h
  primeH := fun s h => (mul_one (s : Bytes32)).symm.trans h

theorem unit_opens : AeadOpens := by
  intro key nonce plaintext ciphertext _ hseal
  cases hseal
  constructor
  · rw [List.length_append, List.length_replicate]
  · show some _ = some plaintext
    rw [List.length_append, List.length_replicate, Nat.add_sub_cancel, List.take_left]

def unitKeys : WalletKeys := ⟨(1 : Bytes32), (1 : Bytes32), 0⟩

theorem unit_points : unitKeys.address.points = .ok ((1 : Bytes32), (1 : Bytes32)) := by
  decide +kernel

/-- A payment's randomness, given the blinding of its output. -/
def unitDraw (blinding : Bytes32) : TransactionDraw where
  output _ := ⟨(1 : Bytes32), blinding, List.replicate 24 0⟩
  shuffle created := created
  seed := []
  inputAux _ := 0
  offsets := [((0 : Bytes32), (0 : Bytes32)), ((1 : Bytes32), (1 : Bytes32)),
    ((2 : Bytes32), (2 : Bytes32))]
  kernelAux := 0

theorem unit_commit (value : Nat) (blinding : Bytes32) :
    commit value blinding = BitVec.ofNat 256 value + blinding := by
  show (value : Bytes32) * 1 + blinding * 1 = BitVec.ofNat 256 value + blinding
  rw [mul_one, mul_one]
  rfl

theorem unit_pairs (s t : Bytes32) :
    s ≠ 0 ∧ t ≠ 0 ∨ s ≠ 1 ∧ t ≠ 1 ∨ s ≠ 2 ∧ t ≠ 2 := by
  have h01 : (0 : Bytes32) ≠ 1 := by decide
  have h02 : (0 : Bytes32) ≠ 2 := by decide
  have h12 : (1 : Bytes32) ≠ 2 := by decide
  grind

theorem unit_fresh {value : Nat} {blinding : Bytes32} {commitments : List Point32}
    (hne : BitVec.ofNat 256 value + blinding ≠ 0)
    (hapart : BitVec.ofNat 256 value + blinding ∉ commitments) :
    Fresh (unitDraw blinding) (1 : Bytes32) (1 : Bytes32) value commitments where
  nonce := List.length_replicate
  commitment := by
    show commit value blinding ≠ 0
    rw [unit_commit]
    exact hne
  ownerKey := by
    have htweak : ∀ t, ownerTweak t = (0 : Bytes32) := fun _ => rfl
    rw [htweak]
    decide +kernel
  apart := by
    show commit value blinding ∉ commitments
    rw [unit_commit]
    exact hapart
  offsets := by
    intro s t
    -- Each excess rules out one of the three pairs.
    rcases unit_pairs s t with ⟨hs, ht⟩ | ⟨hs, ht⟩ | ⟨hs, ht⟩
    · exact ⟨_, List.mem_cons_self, sub_ne_zero.mpr hs, sub_ne_zero.mpr ht⟩
    · exact ⟨_, List.mem_cons_of_mem _ List.mem_cons_self, sub_ne_zero.mpr hs, sub_ne_zero.mpr ht⟩
    · exact ⟨_, List.mem_cons_of_mem _ (List.mem_cons_of_mem _ List.mem_cons_self),
        sub_ne_zero.mpr hs, sub_ne_zero.mpr ht⟩
  shuffle := fun created => .refl created

/-- The output that pays the wallet 1000 under a blinding. -/
def unitOutput (blinding : Nat) : Output :=
  match newOutput unitKeys.address 1000 ((unitDraw (BitVec.ofNat 256 blinding)).output 0) with
  | .ok c => c.output
  | .error _ => ⟨0, 0, 0, 0, [], 0⟩

theorem unitOutput_commitment_toNat {blinding : Nat} (h : blinding < 2 ^ 64) :
    (BitVec.ofNat 256 1000 + BitVec.ofNat 256 blinding : Bytes32).toNat = 1000 + blinding := by
  rw [BitVec.toNat_add, BitVec.toNat_ofNat, BitVec.toNat_ofNat]
  omega

theorem unitOutput_spec {blinding : Nat} (h : blinding < 2 ^ 64) :
    (unitOutput blinding).checkEncoding = .ok () ∧
      (unitOutput blinding).commitment.toNat = 1000 + blinding ∧
      ∃ owned, scanOutput unitKeys (unitOutput blinding) = some owned ∧ owned.value = 1000 := by
  have hne : BitVec.ofNat 256 1000 + BitVec.ofNat 256 blinding ≠ (0 : Bytes32) := by
    intro hzero
    have htoNat := unitOutput_commitment_toNat h
    have hnat : (0 : Bytes32).toNat = 0 := rfl
    rw [hzero, hnat] at htoNat
    omega
  obtain ⟨c, hc, -, -, hcommitment, hencoding⟩ :=
    newOutput_fresh unit_libraries unit_points (unit_fresh hne List.not_mem_nil)
  have houtput : unitOutput blinding = c.output := by
    rw [unitOutput, hc]
  obtain ⟨tweak, salt, hdetect, -⟩ := detect_newOutput unit_opens List.length_replicate
    (by decide) hc
  have hscan : scanOutput unitKeys c.output = some (.ofDetected unitKeys c.output
      (1000, BitVec.ofNat 256 blinding, tweak, salt)) := by
    rw [scanOutput_eq, hdetect]
    rfl
  have hnat : c.output.commitment.toNat = 1000 + blinding := by
    rw [hcommitment]
    show (commit 1000 (BitVec.ofNat 256 blinding)).toNat = _
    rw [unit_commit, unitOutput_commitment_toNat h]
  rw [houtput]
  exact ⟨hencoding, hnat, _, hscan, rfl⟩

/-- A block that pays the wallet 1000 so many times. -/
def unitBlock (n : Nat) : Batch :=
  { Batch.genesis with
    body := ⟨⟨[], [⟨(List.range n).map unitOutput, []⟩], []⟩, 0, 0⟩
    coinbase := none }

def unitCoin (blinding : Nat) : WalletCoin := ⟨unitOutput blinding, 1000, 0, false, none, none⟩

/-- The wallet before any block. -/
def unitWallet : WalletCore := ⟨unitKeys.viewOnly, some unitKeys, 0, [], [], []⟩

/-- The wallet after that block. -/
def unitPaid (n : Nat) : WalletCore :=
  { unitWallet with coins := (List.range n).map unitCoin }.finishBlock 0
    Batch.genesis.extension.finalHash

theorem unitOutput_apart {i n : Nat} (hi : i < n) (hn : n < 2 ^ 64) :
    (unitOutput i).commitment ≠ (unitOutput n).commitment := by
  intro h
  have hnat := congrArg BitVec.toNat h
  rw [(unitOutput_spec (hi.trans hn)).2.1, (unitOutput_spec hn).2.1] at hnat
  omega

theorem addDetected_unitOutput {n : Nat} (hn : n < 2 ^ 64) :
    addDetected unitKeys.viewOnly (some unitKeys) [] 0 ((List.range n).map unitCoin)
      (unitOutput n, false) = (List.range n).map unitCoin ++ [unitCoin n] := by
  obtain ⟨-, -, owned, hscan, hvalue⟩ := unitOutput_spec hn
  have hnew : (unitOutput n).commitment ∉
      ((List.range n).map unitCoin).map WalletCoin.commitment := by
    intro h
    rw [List.map_map] at h
    obtain ⟨i, hi, heq⟩ := List.mem_map.mp h
    exact unitOutput_apart (List.mem_range.mp hi) hn heq
  have hconfirm : confirmDetected (some unitKeys) (unitOutput n) = true := by
    rw [confirmDetected, Option.all_some, hscan]
    rfl
  rw [addDetected, if_neg hnew, scan_viewOnly, hscan]
  dsimp only [Option.map_some]
  rw [if_pos hconfirm, hvalue]
  rfl

theorem foldl_unitOutput {n : Nat} (hn : n ≤ 2 ^ 64) :
    ((List.range n).map fun i => (unitOutput i, false)).foldl
      (addDetected unitKeys.viewOnly (some unitKeys) [] 0) [] = (List.range n).map unitCoin := by
  induction n with
  | zero => rfl
  | succ n ih =>
    rw [List.range_succ, List.map_append, List.foldl_append, ih (by omega), List.map_singleton,
      List.foldl_cons, List.foldl_nil, addDetected_unitOutput (by omega), List.map_append,
      List.map_singleton]

theorem unitPaid_scanned {n : Nat} (hn : n ≤ 2 ^ 64) : Scanned unitKeys (unitPaid n) := by
  have hstart : Scanned unitKeys unitWallet := .restored rfl rfl rfl
  have hcreated : (unitBlock n).created = (List.range n).map fun i => (unitOutput i, false) := by
    have hbody : (unitBlock n).body.outputs = (List.range n).map unitOutput :=
      List.append_nil _
    rw [created_eq, hbody, List.map_map]
    exact List.append_nil _
  have hencodings : ∀ o ∈ (unitBlock n).created, o.1.checkEncoding = .ok () := by
    intro o ho
    rw [hcreated] at ho
    obtain ⟨i, hi, rfl⟩ := List.mem_map.mp ho
    exact (unitOutput_spec ((List.mem_range.mp hi).trans_le hn)).1
  have hscan : unitWallet.scanBlock 0 (unitBlock n) = .ok (unitPaid n) := by
    have hbuilds : ¬ ((!unitWallet.buildsOn 0 (unitBlock n).prevHeaderHash) = true) := by
      nofun
    have hheight : ¬ (0 ≠ unitWallet.scannedHeight) := not_not.mpr rfl
    rw [scanBlock, bailIf_neg hheight, bind_ok, bailIf_neg hbuilds, bind_ok]
    have hcoins : (unitBlock n).created.foldl
        (addDetected unitWallet.view unitWallet.keys [] 0) [] = (List.range n).map unitCoin := by
      rw [hcreated]
      exact foldl_unitOutput hn
    exact congrArg (fun coins => Except.ok ({ unitWallet with coins := coins }.finishBlock 0
      Batch.genesis.extension.finalHash)) hcoins
  exact hstart.block hencodings hscan

theorem unit_candidates (n : Nat) :
    ((unitPaid n).candidates 1).Perm ((List.range n).map unitCoin) := by
  have hall : ((List.range n).map unitCoin).filter (Wallet.spendable 1) =
      (List.range n).map unitCoin := by
    apply List.filter_eq_self.mpr
    intro c hc
    obtain ⟨i, -, rfl⟩ := List.mem_map.mp hc
    rfl
  have hperm := candidates_perm (unitPaid n) 1
  exact hperm.trans (.of_eq hall)

theorem unit_paying (n : Nat) :
    ((unitPaid n).paying ⟨none, none⟩ 100 1).Perm ((List.range n).map unitCoin) := by
  have hall : worthSpending 100 ((unitPaid n).candidates 1) = (unitPaid n).candidates 1 := by
    apply List.filter_eq_self.mpr
    intro c hc
    obtain ⟨i, -, rfl⟩ := List.mem_map.mp ((unit_candidates n).mem_iff.mp hc)
    rfl
  show (worthSpending 100 ((unitPaid n).candidates 1)).Perm _
  rw [hall]
  exact unit_candidates n

theorem totalValue_unitCoins {coins : List WalletCoin} {n : Nat}
    (h : coins.Perm ((List.range n).map unitCoin)) :
    coins.length = n ∧ totalValue coins = n * 1000 := by
  have hvalues : ((List.range n).map unitCoin).map WalletCoin.value = List.replicate n 1000 := by
    rw [List.map_map]
    apply List.eq_replicate_iff.mpr
    refine ⟨by rw [List.length_map, List.length_range], ?_⟩
    intro v hv
    obtain ⟨i, -, rfl⟩ := List.mem_map.mp hv
    rfl
  constructor
  · rw [h.length_eq, List.length_map, List.length_range]
  · rw [totalValue, (h.map WalletCoin.value).sum_eq, hvalues, List.sum_replicate, smul_eq_mul]

theorem unit_rate : (⟨none, none⟩ : SendOptions).rate = .ok 100 := rfl

theorem unit_fits {n : Nat} (hn : n ≤ 2 ^ 40) :
    totalValue ((unitPaid n).candidates 1) ≤ u64Max := by
  rw [(totalValue_unitCoins (unit_candidates n)).2]
  unfold u64Max
  omega

theorem unit_max {n : Nat} (hn : n ≤ 2 ^ 40) :
    (unitPaid n).maxSendableWith ⟨none, none⟩ 1 = n * 1000 - feeAt 100 n := by
  obtain ⟨hlen, htotal⟩ := totalValue_unitCoins (unit_paying n)
  rw [maxSendableWith_eq unit_rate (unit_fits hn), hlen, htotal]

theorem unit_fresh_amount {n value : Nat} (hvalue : value < 2 ^ 64) (h0 : value ≠ 0)
    (hn : n ≤ 2 ^ 40) (hoff : value < 1000 ∨ 1000 + n ≤ value) :
    Fresh (unitDraw 0) (1 : Bytes32) (1 : Bytes32) value
      ((unitPaid n).coins.map WalletCoin.commitment) := by
  have hnat : (BitVec.ofNat 256 value + 0 : Bytes32).toNat = value := by
    rw [add_zero, BitVec.toNat_ofNat]
    omega
  apply unit_fresh
  · intro hzero
    rw [hzero] at hnat
    exact h0 hnat.symm
  · intro hmem
    obtain ⟨c, hc, heq⟩ := List.mem_map.mp hmem
    obtain ⟨i, hi, rfl⟩ := List.mem_map.mp (show c ∈ (List.range n).map unitCoin from hc)
    have hi := List.mem_range.mp hi
    have hcoin := (unitOutput_spec (show i < 2 ^ 64 by omega)).2.1
    have heq := congrArg BitVec.toNat heq
    rw [hnat] at heq
    have hcoin' : (unitCoin i).commitment.toNat = 1000 + i := hcoin
    omega

/-- Six coins of 1000 pay 900, the largest amount. -/
theorem max_sendable_six_coins :
    ∃ out, (unitPaid 6).buildSendWith unitKeys.address 900 ⟨none, none⟩ 1 0 (unitDraw 0) =
      .ok out := by
  have hmax : (unitPaid 6).maxSendableWith ⟨none, none⟩ 1 = 900 := by
    rw [unit_max (by decide)]
    rfl
  obtain ⟨hlen, -⟩ := totalValue_unitCoins (unit_paying 6)
  have hfresh : Fresh (unitDraw 0) (1 : Bytes32) (1 : Bytes32)
      ((unitPaid 6).maxSendableWith ⟨none, none⟩ 1)
      ((unitPaid 6).coins.map WalletCoin.commitment) := by
    rw [hmax]
    exact unit_fresh_amount (by decide) (by decide) (by decide) (.inl (by decide))
  have h := @max_sendable_iff _ _ unitKeys (unitPaid 6) ⟨none, none⟩ 100 1 0 _ _ _ _ unit_libraries
    (unitPaid_scanned (by decide)) unit_rate (unit_fits (by decide)) unit_points hfresh
  rw [hlen, hmax] at h
  obtain ⟨hsend, -, -⟩ := h.mpr (.inl (by decide))
  exact hsend (by decide)

/-- A wallet of 9977 coins of 1000 says that it can send 8974800, and cannot. -/
theorem max_sendable_too_heavy :
    Scanned unitKeys (unitPaid 9977) ∧
      (unitPaid 9977).maxSendableWith ⟨none, none⟩ 1 = 8974800 ∧
      unitKeys.address.points = .ok ((1 : Bytes32), (1 : Bytes32)) ∧
      Fresh (unitDraw 0) (1 : Bytes32) (1 : Bytes32) 8974800
        ((unitPaid 9977).coins.map WalletCoin.commitment) ∧
      ¬ ∃ out, (unitPaid 9977).buildSendWith unitKeys.address 8974800 ⟨none, none⟩ 1 0
        (unitDraw 0) = .ok out := by
  have hmax : (unitPaid 9977).maxSendableWith ⟨none, none⟩ 1 = 8974800 := by
    rw [unit_max (by decide)]
    rfl
  have hfresh : Fresh (unitDraw 0) (1 : Bytes32) (1 : Bytes32) 8974800
      ((unitPaid 9977).coins.map WalletCoin.commitment) :=
    unit_fresh_amount (by decide) (by decide) (by decide) (.inr (by decide))
  have hscanned : Scanned unitKeys (unitPaid 9977) := unitPaid_scanned (by decide)
  obtain ⟨hlen, -⟩ := totalValue_unitCoins (unit_paying 9977)
  refine ⟨hscanned, hmax, unit_points, hfresh, ?_⟩
  have hfresh' : Fresh (unitDraw 0) (1 : Bytes32) (1 : Bytes32)
      ((unitPaid 9977).maxSendableWith ⟨none, none⟩ 1)
      ((unitPaid 9977).coins.map WalletCoin.commitment) := by
    rw [hmax]
    exact hfresh
  have hpos : 0 < (unitPaid 9977).maxSendableWith ⟨none, none⟩ 1 := by
    rw [hmax]
    decide
  have hbuild : (∃ out, (unitPaid 9977).buildSendWith unitKeys.address
      ((unitPaid 9977).maxSendableWith ⟨none, none⟩ 1) ⟨none, none⟩ 1 0 (unitDraw 0) = .ok out) ↔
        _ := buildSendWith_max_iff unit_libraries hscanned.holds unit_rate
    (unit_fits (by decide)) unit_points hfresh' hpos
  rw [hmax, hlen] at hbuild
  rw [hbuild]
  decide

end Words

end Midwimble
