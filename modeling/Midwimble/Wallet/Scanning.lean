import Midwimble.Core.WebWallet

namespace Midwimble
open Fallible
set_option autoImplicit true

variable [Primitives]

theorem address_points {keys : WalletKeys} (h : keys.address.points = .ok (scan, spend)) :
    scan = keys.scanSecret • genG ∧ spend = keys.spendSecret • genG := by
  rw [StealthAddress.points, WalletKeys.address, Primitives.decompress_compress,
    Primitives.decompress_compress] at h
  simp only [orBail_some, bind_ok, check_bind_eq_ok] at h
  cases h.2
  exact ⟨rfl, rfl⟩

theorem sharedSecret_swap (keys : WalletKeys) (r : Primitives.Scalar) :
    sharedSecret (keys.scanSecret • r • genG) = sharedSecret (r • keys.scanSecret • genG) := by
  rw [smul_comm]

theorem newOutput_address {keys : WalletKeys} {draw : OutputDraw}
    (h : newOutput keys.address value draw = .ok created) :
    ∃ t payload, t = sharedSecret (keys.scanSecret • draw.ephemeral • genG) ∧
      sealPayload t value draw.blinding draw.nonce = .ok payload ∧
      keys.address.points = .ok (keys.scanSecret • genG, keys.spendSecret • genG) ∧
      created = ⟨⟨compress (commit value draw.blinding),
        compress ((ownerTweak t + keys.spendSecret) • genG), compress (draw.ephemeral • genG),
        viewTag t, payload, recoveryCommitment keys.recoveryKey value (scalarToBytes draw.blinding)
          (recoverySalt t)⟩, value, draw.blinding, draw.ephemeral⟩ := by
  rw [newOutput] at h
  obtain ⟨⟨scan, spend⟩, hpoints, h⟩ := bind_eq_ok.mp h
  obtain ⟨payload, hseal, h⟩ := bind_eq_ok.mp h
  obtain ⟨rfl, rfl⟩ := address_points hpoints
  rw [← sharedSecret_swap] at hseal
  refine ⟨_, payload, rfl, hseal, hpoints, ?_⟩
  cases h
  rw [sharedSecret_swap, add_smul]
  rfl

variable [Decryption]

theorem detect_eq_some :
    detect scanSecret spendPublic output = some (value, blinding, tweak, salt) ↔
      ∃ ephemeral, decompress output.ephemeralKey = some ephemeral ∧
        viewTag (sharedSecret (scanSecret • ephemeral)) = output.viewTag ∧
        openPayload (sharedSecret (scanSecret • ephemeral)) output.payload =
          some (value, blinding) ∧
        compress (commit value blinding) = output.commitment ∧
        ∃ spend, decompress spendPublic = some spend ∧
          compress (tweak • genG + spend) = output.ownerKey ∧
          ownerTweak (sharedSecret (scanSecret • ephemeral)) = tweak ∧
          recoverySalt (sharedSecret (scanSecret • ephemeral)) = salt := by
  rw [detect]
  simp only [Option.bind_eq_bind, ite_not, Option.bind_none, Option.ite_none_right_eq_some,
    Option.bind_eq_some_iff, Option.some.injEq, Prod.mk.injEq, Prod.exists]
  constructor
  · rintro ⟨ephemeral, hephemeral, htag, v, b, hopen, hcommit, spend, hspend, howner, rfl, rfl,
      rfl, rfl⟩
    exact ⟨ephemeral, hephemeral, htag, hopen, hcommit, spend, hspend, howner, rfl, rfl⟩
  · rintro ⟨ephemeral, hephemeral, htag, hopen, hcommit, spend, hspend, howner, rfl, rfl⟩
    exact ⟨ephemeral, hephemeral, htag, _, _, hopen, hcommit, spend, hspend, howner, rfl, rfl,
      rfl, rfl⟩

theorem detect_owner {keys : WalletKeys}
    (h : detect keys.scanSecret keys.address.spend output = some (value, blinding, tweak, salt)) :
    compress ((tweak + keys.spendSecret) • genG) = output.ownerKey := by
  obtain ⟨ephemeral, -, -, -, -, spend, hspend, howner, -, -⟩ := detect_eq_some.mp h
  rw [WalletKeys.address, Primitives.decompress_compress, Option.some.injEq] at hspend
  rw [add_smul, hspend]
  exact howner

/-- What `scan_output` makes of a detected output. -/
def OwnedOutput.ofDetected (keys : WalletKeys) (output : Output) :
    Nat × Primitives.Scalar × Primitives.Scalar × Bytes32 → OwnedOutput
  | (value, blinding, tweak, salt) =>
    ⟨value, blinding, tweak + keys.spendSecret, salt, output.recoveryCommitment =
      recoveryCommitment keys.recoveryKey value (scalarToBytes blinding) salt⟩

theorem scanOutput_eq (keys : WalletKeys) (output : Output) :
    scanOutput keys output =
      (detect keys.scanSecret keys.address.spend output).map (.ofDetected keys output) := by
  rw [scanOutput]
  cases hd : detect keys.scanSecret keys.address.spend output with
  | none => rfl
  | some found =>
    obtain ⟨value, blinding, tweak, salt⟩ := found
    have howner := detect_owner hd
    simp only [Option.bind_eq_bind, Option.bind_some, Option.map_some]
    rw [if_neg (not_not.mpr howner)]
    rfl

theorem scan_viewOnly (keys : WalletKeys) (output : Output) :
    keys.viewOnly.scan output =
      (scanOutput keys output).map fun owned => (owned.value, owned.recoveryOk) := by
  rw [scanOutput_eq, Option.map_map]
  rfl

theorem mayOwn_of_detect {keys : WalletKeys}
    (h : detect keys.scanSecret keys.address.spend output = some found) :
    keys.viewOnly.mayOwn output.ephemeralKey output.viewTag = true := by
  obtain ⟨ephemeral, hephemeral, htag, -⟩ := detect_eq_some.mp h
  rw [ViewKey.mayOwn, hephemeral, Option.any_some]
  exact decide_eq_true htag

/-- The cipher gives back what it encrypted, in 16 bytes more. -/
def AeadOpens : Prop :=
  ∀ (key : Bytes32) (nonce plaintext ciphertext : Bytes), nonce.length = 24 →
    Primitives.aeadSeal key nonce plaintext = some ciphertext →
      ciphertext.length = plaintext.length + 16 ∧
        Decryption.aeadOpen key nonce ciphertext = some plaintext

omit [Primitives] [Decryption] in
theorem foldl_be (h : value < 2 ^ 64) :
    (Bytes.le 8 value).reverse.foldl (fun n b => n * 256 + b.toNat) 0 = value := by
  rw [List.foldl_reverse, Bytes.foldr_le]
  exact Nat.mod_eq_of_lt h

theorem openPayload_sealPayload (haead : AeadOpens) (hnonce : nonce.length = 24)
    (hvalue : value < 2 ^ 64) (h : sealPayload t value blinding nonce = .ok payload) :
    openPayload t payload = some (value, blinding) := by
  rw [sealPayload] at h
  obtain ⟨ciphertext, hseal, h⟩ := bind_eq_ok.mp h
  rw [orBail_eq_ok] at hseal
  cases h
  have hfront : ((Bytes.le 8 value).reverse).length = 8 := by simp
  have hback : (scalarToBytes blinding).toBytes.length = 32 := by simp [Bytes32.toBytes]
  obtain ⟨hlen, hopen⟩ := haead _ _ _ _ hnonce hseal
  rw [List.length_append, hfront, hback] at hlen
  have hpayload : (nonce ++ ciphertext).length = payloadLen := by
    rw [List.length_append, hnonce, hlen]
    rfl
  have hword := wordOf_toBytes (scalarToBytes blinding) []
  rw [List.append_nil] at hword
  rw [openPayload, if_neg (not_not.mpr hpayload), List.take_left' hnonce, List.drop_left' hnonce]
  simp only [Option.bind_eq_bind, hopen, Option.bind_some]
  rw [if_neg (by rw [List.length_append, hfront, hback]; exact not_not.mpr rfl),
    List.drop_left' hfront, List.take_left' hfront, hword, Primitives.scalarFromBytes_toBytes,
    Option.bind_some, foldl_be hvalue]

theorem detect_newOutput {keys : WalletKeys} {draw : OutputDraw} (haead : AeadOpens)
    (hnonce : draw.nonce.length = 24) (hvalue : value < 2 ^ 64)
    (h : newOutput keys.address value draw = .ok created) :
    ∃ tweak salt, detect keys.scanSecret keys.address.spend created.output =
        some (value, draw.blinding, tweak, salt) ∧
      created.output.recoveryCommitment =
        recoveryCommitment keys.recoveryKey value (scalarToBytes draw.blinding) salt := by
  obtain ⟨t, payload, rfl, hseal, -, rfl⟩ := newOutput_address h
  refine ⟨_, _, detect_eq_some.mpr ⟨draw.ephemeral • genG, ?_, rfl, ?_, rfl,
    keys.spendSecret • genG, ?_, ?_, rfl, rfl⟩, rfl⟩
  · exact Primitives.decompress_compress _
  · exact openPayload_sealPayload haead hnonce hvalue hseal
  · exact Primitives.decompress_compress _
  · rw [add_smul]

omit [Decryption] in
theorem verify_payoutReceipt {keys : WalletKeys} {draw : OutputDraw} (index : Nat)
    (h : newOutput keys.address value draw = .ok created) :
    (payoutReceipt index created).verify keys.address created.output = true := by
  obtain ⟨t, payload, rfl, -, hpoints, rfl⟩ := newOutput_address h
  rw [PayoutReceipt.verify, payoutReceipt, hpoints, Primitives.scalarFromBytes_toBytes,
    Primitives.scalarFromBytes_toBytes]
  dsimp only
  rw [if_neg (not_not.mpr rfl), ← sharedSecret_swap, ← add_smul]
  exact decide_eq_true ⟨rfl, rfl, rfl, rfl⟩

/-- Watch-only and full scanning agree on every output, and find with its value and blinding
whatever is sent to the wallet's address, whose receipt the wallet can audit. -/
theorem scanners_agree (keys : WalletKeys) (haead : AeadOpens) :
    (∀ (output : Output) (value : Nat) (recoveryOk : Bool),
      keys.viewOnly.scan output = some (value, recoveryOk) ↔
        ∃ owned, scanOutput keys output = some owned ∧ owned.value = value ∧
          owned.recoveryOk = recoveryOk) ∧
    (∀ (output : Output) (owned : OwnedOutput), scanOutput keys output = some owned →
      keys.viewOnly.mayOwn output.ephemeralKey output.viewTag = true ∧
        compress (owned.ownerSecret • genG) = output.ownerKey) ∧
    ∀ (value : Nat) (draw : OutputDraw) (created : NewOutput) (index : Nat),
      value < 2 ^ 64 → draw.nonce.length = 24 →
      newOutput keys.address value draw = .ok created →
        (∃ owned, scanOutput keys created.output = some owned ∧ owned.value = value ∧
          owned.blinding = created.blinding ∧ owned.recoveryOk = true) ∧
        (payoutReceipt index created).verify keys.address created.output = true := by
  refine ⟨?_, ?_, ?_⟩
  · intro output value recoveryOk
    rw [scan_viewOnly, Option.map_eq_some_iff]
    simp only [Prod.mk.injEq]
  · intro output owned howned
    rw [scanOutput_eq, Option.map_eq_some_iff] at howned
    obtain ⟨⟨value, blinding, tweak, salt⟩, hd, rfl⟩ := howned
    exact ⟨mayOwn_of_detect hd, detect_owner hd⟩
  · intro value draw created index hvalue hnonce h
    obtain ⟨tweak, salt, hd, hrecovery⟩ := detect_newOutput haead hnonce hvalue h
    have hblinding : created.blinding = draw.blinding := by
      obtain ⟨t, payload, -, -, -, rfl⟩ := newOutput_address h
      rfl
    constructor
    · refine ⟨_, by rw [scanOutput_eq, hd, Option.map_some], rfl, hblinding.symm, ?_⟩
      exact decide_eq_true hrecovery
    · exact verify_payoutReceipt index h

omit [Primitives] [Decryption] in
theorem scanners_agree_words :
    letI := Primitives.words
    letI : Decryption := ⟨fun _ _ ciphertext => some (ciphertext.take (ciphertext.length - 16))⟩
    ∃ (created : NewOutput) (owned : OwnedOutput),
      newOutput (WalletKeys.address ⟨3, 5, 7⟩) 12345 ⟨11, 13, List.replicate 24 0⟩ =
        .ok created ∧
      scanOutput ⟨3, 5, 7⟩ created.output = some owned ∧ owned.value = 12345 := by
  let := Primitives.words
  let : Decryption := ⟨fun _ _ ciphertext => some (ciphertext.take (ciphertext.length - 16))⟩
  have haead : AeadOpens := by
    intro key nonce plaintext ciphertext _ hseal
    cases hseal
    constructor
    · rw [List.length_append, List.length_replicate]
    · show some _ = some plaintext
      rw [List.length_append, List.length_replicate, Nat.add_sub_cancel, List.take_left]
  cases hcreated : newOutput (WalletKeys.address ⟨3, 5, 7⟩) 12345
      ⟨11, 13, List.replicate 24 0⟩ with
  | error e =>
    have hok : (newOutput (WalletKeys.address ⟨3, 5, 7⟩) 12345
      ⟨11, 13, List.replicate 24 0⟩).isOk = true := by decide +kernel
    rw [hcreated] at hok
    cases hok
  | ok created =>
    obtain ⟨⟨owned, hscan, hvalue, -, -⟩, -⟩ :=
      (scanners_agree ⟨3, 5, 7⟩ haead).2.2 12345 _ created 0
      (by decide) rfl hcreated
    exact ⟨created, owned, rfl, hscan, hvalue⟩

end Midwimble
