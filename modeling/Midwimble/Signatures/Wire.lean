import Midwimble.Bond.Script
import Midwimble.ProofOfWork.Lanes
import Midwimble.Signatures.Keys

namespace Midwimble
open Fallible
set_option autoImplicit true

section Digits

variable {ds es : List Nat} {m m' : Bytes32}

theorem checksum_le_of_forall₂ (h : List.Forall₂ (· ≤ ·) ds es) (he : ∀ e ∈ es, e ≤ maxDigit) :
    checksum es ≤ checksum ds ∧ (checksum es = checksum ds → ds = es) := by
  induction h with
  | nil => exact ⟨Nat.le_refl _, fun _ => rfl⟩
  | @cons d e ds es hde _ ih =>
    obtain ⟨hle, heq⟩ := ih fun x hx => he x (List.mem_cons_of_mem e hx)
    have hmax : e ≤ maxDigit := he e List.mem_cons_self
    unfold checksum at hle heq ⊢
    rw [List.map_cons, List.map_cons, List.sum_cons, List.sum_cons]
    refine ⟨by omega, ?_⟩
    intro h
    rw [heq (by omega), show d = e by omega]

theorem checksum_le (h : ds.length = 16) : checksum ds ≤ 16 * maxDigit := by
  have hsum := List.sum_le_card_nsmul (ds.map fun d => maxDigit - d) maxDigit (by
    intro x hx
    obtain ⟨d, -, rfl⟩ := List.mem_map.mp hx
    exact Nat.sub_le _ _)
  rw [List.length_map, h] at hsum
  exact hsum

theorem messageDigits_inj (h : messageDigits m = messageDigits m') : m = m' := by
  apply BitVec.eq_of_getLsbD_eq
  intro i hi
  have hdigit := congrArg (fun l : List Nat => l[15 - i / 16]?) h
  have hj : 15 - i / 16 < 16 := by omega
  have hshift : 16 * (15 - (15 - i / 16)) + i % 16 = i := by omega
  rw [messageDigits, messageDigits, List.getElem?_map, List.getElem?_map,
    List.getElem?_range hj] at hdigit
  have hbit := congrArg (fun n => n.testBit (i % 16)) (Option.some.inj hdigit)
  have hlow : i % 16 < 16 := Nat.mod_lt i (by decide)
  simp only [Nat.testBit_mod_two_pow, Nat.testBit_shiftRight, hshift, hlow, decide_true,
    Bool.true_and] at hbit
  exact hbit

theorem eq_of_wotsDigits_le (h : List.Forall₂ (· ≤ ·) (wotsDigits m) (wotsDigits m')) :
    m = m' := by
  have hmessage := List.forall₂_take 16 h
  have hcheck := List.forall₂_drop 16 h
  rw [wotsDigits_eq, wotsDigits_eq] at hmessage hcheck
  rw [List.take_left' (length_messageDigits m), List.take_left' (length_messageDigits m')]
    at hmessage
  rw [List.drop_left' (length_messageDigits m), List.drop_left' (length_messageDigits m')]
    at hcheck
  obtain ⟨hle, heq⟩ := checksum_le_of_forall₂ hmessage (messageDigits_le m')
  have hbound := checksum_le (length_messageDigits m)
  obtain ⟨hhigh, hlow⟩ := List.forall₂_cons.mp hcheck
  obtain ⟨hlow, -⟩ := List.forall₂_cons.mp hlow
  rw [Nat.shiftRight_eq_div_pow, Nat.shiftRight_eq_div_pow] at hhigh
  generalize checksum (messageDigits m) = c at hle heq hbound hhigh hlow
  generalize checksum (messageDigits m') = c' at hle heq hhigh hlow
  unfold maxDigit at hbound
  exact messageDigits_inj (heq (by omega))

end Digits

namespace MssSignature

variable {data front rest : Bytes} {start n : Nat} {words : List Bytes32} {s : MssSignature}

theorem wordsAt_succ :
    wordsAt data start (n + 1) = wordOf (data.drop start) :: wordsAt data (start + 32) n := by
  rw [wordsAt, wordsAt, List.range_succ_eq_map, List.map_cons, List.map_map, Nat.zero_mul,
    Nat.add_zero]
  congr 1
  apply List.map_congr_left
  intro i _
  dsimp only [Function.comp_apply]
  rw [Nat.succ_mul, Nat.add_right_comm start 32, Nat.add_assoc]

theorem length_toBytes (x : Bytes32) : x.toBytes.length = 32 := by
  rw [Bytes32.toBytes, List.length_reverse, Bytes.length_le]

theorem length_flatMap_toBytes (words : List Bytes32) :
    (words.flatMap Bytes32.toBytes).length = words.length * 32 := by
  induction words with
  | nil => rfl
  | cons w words ih =>
    rw [List.flatMap_cons, List.length_append, length_toBytes, ih, List.length_cons]
    omega

theorem wordsAt_flatMap (hstart : front.length = start) :
    wordsAt (front ++ (words.flatMap Bytes32.toBytes ++ rest)) start words.length = words := by
  induction words generalizing front start with
  | nil => rfl
  | cons w words ih =>
    have hfront : (front ++ w.toBytes).length = start + 32 := by
      rw [List.length_append, length_toBytes, hstart]
    have htail := ih hfront
    rw [List.length_cons, wordsAt_succ, List.drop_left' hstart, List.flatMap_cons,
      List.append_assoc w.toBytes, wordOf_toBytes]
    rw [List.append_assoc] at htail
    rw [htail]

theorem toBytes_wordOf_drop (h : start + 32 ≤ data.length) :
    (wordOf (data.drop start)).toBytes = (data.drop start).take 32 := by
  have hlen : ((data.drop start).take 32).length = 32 := by
    rw [List.length_take, List.length_drop]
    omega
  have hword : wordOf (data.drop start) = wordOf ((data.drop start).take 32) := by
    rw [wordOf, wordOf, List.take_take, Nat.min_self]
  rw [hword, toBytes_wordOf hlen]

theorem flatMap_wordsAt (h : start + n * 32 ≤ data.length) :
    (wordsAt data start n).flatMap Bytes32.toBytes = (data.drop start).take (n * 32) := by
  induction n generalizing start with
  | zero => rw [Nat.zero_mul, List.take_zero]; rfl
  | succ n ih =>
    rw [wordsAt_succ, List.flatMap_cons, toBytes_wordOf_drop (by omega), ih (by omega),
      Nat.succ_mul, Nat.add_comm (n * 32), List.take_add, List.drop_drop]

theorem le_fromLeBytes (h : data.length = n) : Bytes.le n (fromLeBytes data) = data := by
  rw [← h]
  exact le_foldr data

theorem fromBytes_eq_ok :
    fromBytes data = .ok s ↔ minSize ≤ data.length ∧ authLen data ≤ maxHeight ∧
      (authLen data = 0 ∨ data.length = minSize + authLen data * 32) ∧
      s = ⟨fromLeBytes (data.take 8), wordOf (data.drop 8), wordsAt data 40 wotsChains,
        wordsAt data minSize (authLen data)⟩ := by
  simp only [fromBytes, bind_eq_ok, bailIf_eq_ok, not_lt, gt_iff_lt, not_and, ne_eq, not_not,
    Except.ok.injEq]
  constructor
  · rintro ⟨_, hmin, _, hmax, _, hlen, rfl⟩
    refine ⟨hmin, hmax, ?_, rfl⟩
    rcases Nat.eq_zero_or_pos (authLen data) with hzero | hpos
    · exact .inl hzero
    · have := hlen hpos
      omega
  · rintro ⟨hmin, hmax, hlen, rfl⟩
    refine ⟨(), hmin, (), hmax, (), ?_, rfl⟩
    intro hpos
    omega

theorem minSize_eq : minSize = 620 := rfl

theorem chains_size : wotsChains * 32 = 576 := rfl

theorem toBytes_of_fromBytes (h : fromBytes data = .ok s) :
    s.toBytes = data.take (minSize + authLen data * 32) := by
  obtain ⟨hmin, -, hlen, rfl⟩ := fromBytes_eq_ok.mp h
  rw [minSize_eq] at hmin hlen ⊢
  have hpath : (wordsAt data 620 (authLen data)).length = authLen data := by
    rw [wordsAt, List.length_map, List.length_range]
  have hindex : Bytes.le 8 (fromLeBytes (data.take 8)) = data.take 8 := by
    apply le_fromLeBytes
    rw [List.length_take]
    omega
  have hkey : (wordOf (data.drop 8)).toBytes = (data.drop 8).take 32 :=
    toBytes_wordOf_drop (by omega)
  have hsig : (wordsAt data 40 wotsChains).flatMap Bytes32.toBytes = (data.drop 40).take 576 := by
    rw [flatMap_wordsAt (by rw [chains_size]; omega), chains_size]
  have hcount : Bytes.le 4 (authLen data) = (data.drop 616).take 4 := by
    apply le_fromLeBytes
    rw [List.length_take, List.length_drop]
    omega
  have hnodes : (wordsAt data 620 (authLen data)).flatMap Bytes32.toBytes =
      (data.drop 620).take (authLen data * 32) := flatMap_wordsAt (by omega)
  unfold toBytes
  rw [hpath, hindex, hkey, hsig, hcount, hnodes, ← List.take_add, ← List.take_add,
    ← List.take_add, ← List.take_add]

theorem canonical_iff (data : Bytes) :
    (∀ s, fromBytes data = .ok s → s.toBytes = data) ↔
      data.length ≤ minSize ∨ authLen data ≠ 0 := by
  constructor
  · intro h
    by_contra hbad
    obtain ⟨hlong, hzero⟩ := not_or.mp hbad
    rw [not_not] at hzero
    have hok := fromBytes_eq_ok.mpr ⟨Nat.le_of_lt (Nat.lt_of_not_le hlong),
      hzero ▸ Nat.zero_le maxHeight, .inl hzero, rfl⟩
    have hall := congrArg List.length ((toBytes_of_fromBytes hok).symm.trans (h _ hok))
    rw [List.length_take, hzero] at hall
    omega
  · intro h s hs
    obtain ⟨hmin, -, hlen, -⟩ := fromBytes_eq_ok.mp hs
    rw [toBytes_of_fromBytes hs]
    apply List.take_of_length_le
    rcases h with h | h <;> omega

theorem length_toBytes_eq (hs : s.wotsSig.length = wotsChains) :
    s.toBytes.length = minSize + s.authPath.length * 32 := by
  unfold toBytes
  rw [List.length_append, List.length_append, List.length_append, List.length_append,
    Bytes.length_le, Bytes.length_le, length_toBytes, length_flatMap_toBytes,
    length_flatMap_toBytes, hs, minSize, sigSize]

theorem authLen_toBytes (hs : s.wotsSig.length = wotsChains) :
    authLen s.toBytes = s.authPath.length % 2 ^ 32 := by
  have hfront : (Bytes.le 8 s.leafIndex ++ s.wotsPk.toBytes ++
      s.wotsSig.flatMap Bytes32.toBytes).length = 616 := by
    rw [List.length_append, List.length_append, Bytes.length_le, length_toBytes,
      length_flatMap_toBytes, hs, chains_size]
  rw [authLen, toBytes, List.append_assoc _ (Bytes.le 4 _), List.drop_left' hfront,
    List.take_left' Bytes.length_le, fromLeBytes_le]
  rfl

/-- A signature is read back as it was written exactly if its path is not too long. -/
theorem fromBytes_toBytes_iff (hindex : s.leafIndex < 2 ^ 64)
    (hs : s.wotsSig.length = wotsChains) :
    fromBytes s.toBytes = .ok s ↔ s.authPath.length ≤ maxHeight := by
  have hlen := length_toBytes_eq hs
  constructor
  · intro h
    obtain ⟨-, hmax, -, heq⟩ := fromBytes_eq_ok.mp h
    have hpath := congrArg (fun s => s.authPath.length) heq
    dsimp only at hpath
    rw [wordsAt, List.length_map, List.length_range] at hpath
    rw [hpath]
    exact hmax
  · intro h
    have hcount : authLen s.toBytes = s.authPath.length := by
      rw [authLen_toBytes hs, Nat.mod_eq_of_lt]
      unfold maxHeight at h
      omega
    have hfirst : fromLeBytes (s.toBytes.take 8) = s.leafIndex := by
      unfold toBytes
      rw [List.append_assoc, List.append_assoc, List.append_assoc, List.take_left' Bytes.length_le,
        fromLeBytes_le, Nat.mod_eq_of_lt]
      omega
    have hkey : wordOf (s.toBytes.drop 8) = s.wotsPk := by
      unfold toBytes
      rw [List.append_assoc, List.append_assoc, List.append_assoc, List.drop_left' Bytes.length_le,
        wordOf_toBytes]
    have hsig : wordsAt s.toBytes 40 wotsChains = s.wotsSig := by
      have hfront : (Bytes.le 8 s.leafIndex ++ s.wotsPk.toBytes).length = 40 := by
        rw [List.length_append, Bytes.length_le, length_toBytes]
      unfold toBytes
      rw [List.append_assoc, List.append_assoc, ← hs]
      exact wordsAt_flatMap hfront
    have hnodes : wordsAt s.toBytes minSize s.authPath.length = s.authPath := by
      have hfront : (Bytes.le 8 s.leafIndex ++ s.wotsPk.toBytes ++
          s.wotsSig.flatMap Bytes32.toBytes ++ Bytes.le 4 s.authPath.length).length = minSize := by
        rw [List.length_append, List.length_append, List.length_append, Bytes.length_le,
          Bytes.length_le, length_toBytes, length_flatMap_toBytes, hs, minSize, sigSize]
      have h : wordsAt (_ ++ (s.authPath.flatMap Bytes32.toBytes ++ [])) minSize
          s.authPath.length = s.authPath := wordsAt_flatMap hfront
      rw [List.append_nil] at h
      exact h
    apply fromBytes_eq_ok.mpr
    rw [hcount, hfirst, hkey, hsig, hnodes]
    exact ⟨by omega, h, .inr hlen, rfl⟩

end MssSignature

/-- Keys, signatures and their wire form. -/
theorem mss_complete_and_canonical_iff [Primitives] :
    (∀ (seed : Bytes32) (height : Nat), 1 ≤ height → height ≤ maxHeight →
      ∃ keys, keygenSequential seed height = .ok keys ∧
        (∀ checkpoint, ResumesOwn seed height checkpoint →
          ∃ saves, keygenNative seed height checkpoint = .ok (keys, saves) ∧
            ∀ saved ∈ saves, PartialLeaves seed (2 ^ height) saved) ∧
        rootFromLeaves ((List.range (2 ^ height)).map (leafPublicKey seed)) =
          .ok keys.masterPk ∧
        ∀ leaf < 2 ^ height, ∀ message, ∃ sig,
          { keys with nextLeaf := leaf }.sign message =
            ({ keys with nextLeaf := leaf + 1 }, .ok sig) ∧
          sig.leafIndex = leaf ∧ sig.verify message keys.masterPk = true ∧
          MssSignature.fromBytes sig.toBytes = .ok sig) ∧
      (∀ s : MssSignature, s.leafIndex < 2 ^ 64 → s.wotsSig.length = wotsChains →
        (MssSignature.fromBytes s.toBytes = .ok s ↔ s.authPath.length ≤ maxHeight)) ∧
      (∀ data : Bytes, (∀ s, MssSignature.fromBytes data = .ok s → s.toBytes = data) ↔
        data.length ≤ MssSignature.minSize ∨ MssSignature.authLen data ≠ 0) ∧
      ∀ m m' : Bytes32, m ≠ m' →
        ¬ List.Forall₂ (· ≤ ·) (wotsDigits m) (wotsDigits m') ∧
          ¬ List.Forall₂ (· ≤ ·) (wotsDigits m') (wotsDigits m) := by
  refine ⟨?_, fun s => MssSignature.fromBytes_toBytes_iff, MssSignature.canonical_iff, ?_⟩
  · intro seed height h1 h20
    refine ⟨keypairOf seed height, keygenSequential_eq h1 h20,
      fun checkpoint => keygenNative_eq h1 h20, rootFromLeaves_eq h1 h20, ?_⟩
    intro leaf hleaf message
    obtain ⟨sig, hsign, hindex, hpath, hsig, hverify⟩ := verify_sign message h20 hleaf
    have hsmall : sig.leafIndex < 2 ^ 64 := by
      have hpow : 2 ^ height ≤ 2 ^ 64 := Nat.pow_le_pow_right (by omega) (by
        unfold maxHeight at h20
        omega)
      omega
    exact ⟨sig, hsign, hindex, hverify,
      (MssSignature.fromBytes_toBytes_iff hsmall hsig).mpr (hpath ▸ h20)⟩
  · intro m m' hne
    exact ⟨fun h => hne (eq_of_wotsDigits_le h), fun h => hne (eq_of_wotsDigits_le h).symm⟩

theorem mss_complete_and_canonical_iff_low :
    letI := Primitives.words
    ∃ keys sig, keygenSequential 7 1 = .ok keys ∧
      { keys with nextLeaf := 1 }.sign 5 = ({ keys with nextLeaf := 2 }, .ok sig) ∧
        sig.verify 5 keys.masterPk = true ∧ MssSignature.fromBytes sig.toBytes = .ok sig := by
  let := Primitives.words
  obtain ⟨keys, hkeys, -, -, hsigns⟩ :=
    mss_complete_and_canonical_iff.1 7 1 (Nat.le_refl 1) (by decide)
  obtain ⟨sig, hsign, -, hverify, hbytes⟩ := hsigns 1 (by decide) 5
  exact ⟨keys, sig, hkeys, hsign, hverify, hbytes⟩

/-- A byte after an empty path is dropped: 621 zeros are read as the signature that is written
as 620. -/
theorem from_bytes_drops_trailing_byte :
    ∃ s : MssSignature, MssSignature.fromBytes (List.replicate 621 0) = .ok s ∧
      s.toBytes ≠ List.replicate 621 0 := by
  have hbad : ¬ (∀ s, MssSignature.fromBytes (List.replicate 621 0) = .ok s →
      s.toBytes = List.replicate 621 0) := by
    rw [MssSignature.canonical_iff]
    rintro (hlen | hcount)
    · rw [List.length_replicate] at hlen
      exact absurd hlen (by decide)
    · rw [MssSignature.authLen, List.drop_replicate, List.take_replicate] at hcount
      exact hcount rfl
  obtain ⟨s, hs⟩ := not_forall.mp hbad
  exact ⟨s, Classical.not_imp.mp hs⟩

end Midwimble
