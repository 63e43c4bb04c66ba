import Midwimble.Core.Filter
import Midwimble.Lib.Bits

namespace Midwimble
set_option autoImplicit true

/-- The bits of a value's code. -/
def golombBits (value : Nat) : List Bool :=
  List.replicate (value / 2 ^ golombP) true ++ false :: Bits.low golombP (value % 2 ^ golombP)

/-- The bits of the distances between ascending values. -/
def deltaBits : (last : Nat) → List Nat → List Bool
  | _, [] => []
  | last, h :: hashes => golombBits (h - last) ++ deltaBits h hashes

namespace BitWriter

/-- The bits written so far. -/
def bits (w : BitWriter) : List Bool :=
  Bits.ofBytes w.buffer ++ (List.range w.bitsInByte).map fun i => w.currentByte.testBit (7 - i)

/-- The byte in hand has room, and its bits that are not written yet are clear. -/
structure Valid (w : BitWriter) : Prop where
  room : w.bitsInByte < 8
  clear : ∀ j, j < 8 - w.bitsInByte ∨ 8 ≤ j → w.currentByte.testBit j = false

theorem valid_new : new.Valid := ⟨by decide, fun j _ => Nat.zero_testBit j⟩

theorem testBit_current (w : BitWriter) (bit : Bool) (j : Nat) :
    (if bit then w.currentByte ||| 1 <<< (7 - w.bitsInByte) else w.currentByte).testBit j =
      (w.currentByte.testBit j || (bit && decide (j = 7 - w.bitsInByte))) := by
  cases bit with
  | false => simp
  | true =>
    rw [if_pos rfl, Nat.testBit_or, Nat.one_shiftLeft, Nat.testBit_two_pow, Bool.true_and]
    congr 1
    exact decide_eq_decide.mpr eq_comm

theorem ofByte_ofNat {n : Nat} :
    Bits.ofByte (UInt8.ofNat n) = (List.range 8).map fun i => n.testBit (7 - i) := by
  have hmod : (UInt8.ofNat n).toNat = n % 2 ^ 8 := UInt8.toNat_ofNat'
  simp only [Bits.ofByte, hmod, Nat.testBit_mod_two_pow]
  apply List.map_congr_left
  intro i _
  have h7 : 7 - i < 8 := by omega
  simp [h7]

/-- Writing a bit appends it. -/
theorem Valid.writeBit {w : BitWriter} (h : w.Valid) (bit : Bool) :
    (w.writeBit bit).Valid ∧ (w.writeBit bit).bits = w.bits ++ [bit] := by
  have hroom := h.room
  have hlast : w.currentByte.testBit (7 - w.bitsInByte) = false := h.clear _ (.inl (by omega))
  have hkept : ∀ i ∈ List.range w.bitsInByte,
      (if bit then w.currentByte ||| 1 <<< (7 - w.bitsInByte) else w.currentByte).testBit (7 - i) =
        w.currentByte.testBit (7 - i) := by
    intro i hi
    have hne : ¬ 7 - i = 7 - w.bitsInByte := by
      have := List.mem_range.mp hi
      omega
    simp [testBit_current, hne]
  have hbits : (List.range (w.bitsInByte + 1)).map (fun i =>
      (if bit then w.currentByte ||| 1 <<< (7 - w.bitsInByte) else w.currentByte).testBit
        (7 - i)) =
      (List.range w.bitsInByte).map (fun i => w.currentByte.testBit (7 - i)) ++ [bit] := by
    rw [List.range_succ, List.map_append, List.map_singleton, testBit_current, hlast,
      List.map_congr_left hkept]
    simp
  unfold BitWriter.writeBit
  by_cases hfull : w.bitsInByte + 1 = 8
  · rw [if_pos hfull]
    refine ⟨⟨by simp, fun j _ => Nat.zero_testBit j⟩, ?_⟩
    rw [hfull] at hbits
    simp only [bits, Bits.ofBytes_append, List.range_zero, List.map_nil, List.append_nil,
      List.append_assoc]
    rw [← hbits, ← ofByte_ofNat]
    simp [Bits.ofBytes]
  · rw [if_neg hfull]
    refine ⟨⟨by simp only; omega, fun j hj => ?_⟩, ?_⟩
    · have hne : ¬ j = 7 - w.bitsInByte := by
        simp only at hj
        omega
      rw [testBit_current, h.clear j (by simp only at hj; omega)]
      simp [hne]
    · simp only [bits, List.append_assoc]
      rw [hbits]

theorem Valid.writeOnes {w : BitWriter} (h : w.Valid) (n : Nat) :
    (writeOnes n w).Valid ∧ (writeOnes n w).bits = w.bits ++ List.replicate n true := by
  induction n generalizing w with
  | zero => simp [BitWriter.writeOnes, h]
  | succ n ih =>
    obtain ⟨hv, hb⟩ := h.writeBit true
    obtain ⟨hv', hb'⟩ := ih hv
    refine ⟨hv', ?_⟩
    rw [BitWriter.writeOnes, hb', hb, List.append_assoc, List.replicate_succ, List.singleton_append]

theorem Valid.writeBits {w : BitWriter} (h : w.Valid) (value count : Nat) :
    (w.writeBits value count).Valid ∧
      (w.writeBits value count).bits = w.bits ++ Bits.low count value := by
  induction count generalizing w with
  | zero => simp [BitWriter.writeBits, Bits.low, h]
  | succ count ih =>
    obtain ⟨hv, hb⟩ := h.writeBit (value.testBit count)
    obtain ⟨hv', hb'⟩ := ih hv
    have hstep : w.writeBits value (count + 1) =
        (w.writeBit (value.testBit count)).writeBits value count := by
      simp [BitWriter.writeBits, List.range_succ]
    rw [hstep, hb', hb, Bits.low_succ, List.append_assoc, List.singleton_append]
    exact ⟨hv', rfl⟩

theorem Valid.encodeGolomb {w : BitWriter} (h : w.Valid) (value : Nat) :
    (encodeGolomb w value).Valid ∧ (encodeGolomb w value).bits = w.bits ++ golombBits value := by
  obtain ⟨hv, hb⟩ := h.writeOnes (value / 2 ^ golombP)
  obtain ⟨hv', hb'⟩ := hv.writeBit false
  obtain ⟨hv'', hb''⟩ := hv'.writeBits (value % 2 ^ golombP) golombP
  refine ⟨hv'', ?_⟩
  rw [Midwimble.encodeGolomb, hb'', hb', hb, golombBits]
  simp only [List.append_assoc, List.singleton_append]

theorem Valid.encodeDeltas {w : BitWriter} (h : w.Valid) (last : Nat) (hashes : List Nat) :
    (encodeDeltas last hashes w).Valid ∧
      (encodeDeltas last hashes w).bits = w.bits ++ deltaBits last hashes := by
  induction hashes generalizing w last with
  | nil => simp [Midwimble.encodeDeltas, deltaBits, h]
  | cons x hashes ih =>
    obtain ⟨hv, hb⟩ := h.encodeGolomb (x - last)
    obtain ⟨hv', hb'⟩ := ih hv x
    refine ⟨hv', ?_⟩
    rw [Midwimble.encodeDeltas, hb', hb, deltaBits, List.append_assoc]

theorem Valid.ofBytes_intoBytes {w : BitWriter} (h : w.Valid) :
    ∃ padding, Bits.ofBytes w.intoBytes = w.bits ++ padding := by
  have hroom := h.room
  unfold intoBytes
  by_cases hb : w.bitsInByte > 0
  · rw [if_pos hb, Bits.ofBytes_append]
    have hbyte : Bits.ofBytes [UInt8.ofNat w.currentByte] =
        Bits.ofByte (UInt8.ofNat w.currentByte) := by simp [Bits.ofBytes]
    have hrange : List.range 8 = List.range w.bitsInByte ++
        (List.range (8 - w.bitsInByte)).map (w.bitsInByte + ·) := by
      rw [← List.range_add]
      congr 1
      omega
    rw [hbyte, ofByte_ofNat, hrange, List.map_append, ← List.append_assoc]
    exact ⟨_, rfl⟩
  · have hzero : w.bitsInByte = 0 := by omega
    rw [if_neg hb]
    exact ⟨[], by simp [bits, hzero]⟩

end BitWriter

theorem ofBytes_encodeValues (hashes : List Nat) :
    ∃ padding, Bits.ofBytes (encodeValues hashes) = deltaBits 0 hashes ++ padding := by
  obtain ⟨hv, hb⟩ := BitWriter.valid_new.encodeDeltas 0 hashes
  obtain ⟨padding, hp⟩ := hv.ofBytes_intoBytes
  refine ⟨padding, ?_⟩
  rw [encodeValues, hp, hb]
  rfl

namespace BitReader

/-- A reader of `bs` that has `rest` left to read. -/
structure Reads (r : BitReader) (bs : Bytes) (rest : List Bool) : Prop where
  source : r.data = bs
  index : r.bitIndex < 8
  left : (Bits.ofBytes r.data).drop (8 * r.byteIndex + r.bitIndex) = rest

theorem reads_new (bs : Bytes) : (new bs).Reads bs (Bits.ofBytes bs) :=
  ⟨rfl, Nat.zero_lt_succ 7, rfl⟩

theorem Reads.length_le {r : BitReader} (h : r.Reads bs rest) :
    rest.length ≤ 8 * bs.length := by
  rw [← h.left, List.length_drop, Bits.length_ofBytes, h.source]
  omega

/-- A reader that is not at the end gives the next bit. -/
theorem Reads.readBit {r : BitReader} (h : r.Reads bs (bit :: rest)) :
    ∃ r', r.readBit = some (bit, r') ∧ r'.Reads bs rest := by
  obtain ⟨hdata, hindex, hrest⟩ := h
  rw [← List.drop_drop, Bits.drop_ofBytes] at hrest
  unfold BitReader.readBit
  cases hbyte : r.data[r.byteIndex]? with
  | none =>
    rw [List.drop_of_length_le (List.getElem?_eq_none_iff.mp hbyte)] at hrest
    simp at hrest
  | some byte =>
    obtain ⟨hlt, hget⟩ := List.getElem?_eq_some_iff.mp hbyte
    have hdrop : (Bits.ofBytes (r.data.drop r.byteIndex)).drop r.bitIndex =
        byte.toNat.testBit (7 - r.bitIndex) ::
          ((Bits.ofByte byte).drop (r.bitIndex + 1) ++
            Bits.ofBytes (r.data.drop (r.byteIndex + 1))) := by
      rw [List.drop_eq_getElem_cons hlt, hget, Bits.ofBytes, List.flatMap_cons,
        List.drop_append_of_le_length (by simp; omega), Bits.ofByte_drop hindex]
      rfl
    rw [hdrop] at hrest
    obtain ⟨hbit, htail⟩ := List.cons.inj hrest
    refine ⟨_, by simp only [hbit]; rfl, ?_⟩
    by_cases hfull : r.bitIndex + 1 = 8
    · rw [if_pos hfull]
      refine ⟨hdata, Nat.zero_lt_succ 7, ?_⟩
      have hnil : (Bits.ofByte byte).drop 8 = [] := by simp
      rw [hfull, hnil] at htail
      rw [Nat.add_zero, Bits.drop_ofBytes]
      exact htail
    · rw [if_neg hfull]
      refine ⟨hdata, by simp only; omega, ?_⟩
      have hmore : (Bits.ofBytes (r.data.drop r.byteIndex)).drop (r.bitIndex + 1) =
          (Bits.ofByte byte).drop (r.bitIndex + 1) ++
            Bits.ofBytes (r.data.drop (r.byteIndex + 1)) := by
        rw [← List.drop_drop, hdrop, List.drop_one, List.tail_cons]
      rw [← List.drop_drop, Bits.drop_ofBytes, hmore]
      exact htail

theorem Reads.readBits {r : BitReader} (h : r.Reads bs (bits ++ rest)) (start : Nat) :
    ∃ r', r.readBits bits.length start = some (Bits.value start bits, r') ∧
      r'.Reads bs rest := by
  induction bits generalizing r start with
  | nil => exact ⟨r, rfl, h⟩
  | cons bit bits ih =>
    obtain ⟨r', hr, h'⟩ := h.readBit
    obtain ⟨r'', hr', h''⟩ := ih h' (2 * start + bit.toNat)
    refine ⟨r'', ?_, h''⟩
    simp only [List.length_cons, BitReader.readBits, hr, Option.bind_eq_bind, Option.bind_some]
    exact hr'

theorem Reads.readUnary {r : BitReader}
    (h : r.Reads bs (List.replicate q true ++ false :: rest)) (hq : q < fuel) (start : Nat) :
    ∃ r', r.readUnary fuel start = some (start + q, r') ∧ r'.Reads bs rest := by
  induction q generalizing r fuel start with
  | zero =>
    obtain ⟨fuel, rfl⟩ := Nat.exists_eq_succ_of_ne_zero (Nat.ne_of_gt hq)
    obtain ⟨r', hr, h'⟩ := h.readBit
    exact ⟨r', by simp [BitReader.readUnary, hr], h'⟩
  | succ q ih =>
    obtain ⟨fuel, rfl⟩ := Nat.exists_eq_succ_of_ne_zero (Nat.ne_of_gt (Nat.zero_lt_of_lt hq))
    rw [List.replicate_succ, List.cons_append] at h
    obtain ⟨r', hr, h'⟩ := h.readBit
    obtain ⟨r'', hr', h''⟩ := ih h' (Nat.lt_of_succ_lt_succ hq) (start + 1)
    refine ⟨r'', ?_, h''⟩
    simp only [BitReader.readUnary, hr, Option.bind_eq_bind, Option.bind_some, if_true, hr']
    rw [Nat.add_assoc, Nat.add_comm 1 q]

end BitReader

theorem decodeGolomb_code {r : BitReader} (h : r.Reads data (golombBits value ++ rest))
    (hv : value < 2 ^ 64) : ∃ r', decodeGolomb r = some (value, r') ∧ r'.Reads data rest := by
  have hlen := h.length_le
  rw [golombBits, List.append_assoc, List.cons_append] at h
  simp only [golombBits, List.length_append, List.length_replicate] at hlen
  have hfuel : value / 2 ^ golombP < 8 * r.data.length + 1 := by
    rw [h.source]
    omega
  obtain ⟨r', hr, h'⟩ := h.readUnary hfuel 0
  obtain ⟨r'', hr', h''⟩ := h'.readBits 0
  refine ⟨r'', ?_, h''⟩
  rw [Bits.length_low, Bits.value_low, Nat.zero_mul, Nat.zero_add, Nat.mod_mod] at hr'
  rw [Nat.zero_add] at hr
  have hquot : value / 2 ^ golombP * 2 ^ golombP < 2 ^ 64 :=
    Nat.lt_of_le_of_lt (Nat.div_mul_le_self _ _) hv
  have hor : value / 2 ^ golombP * 2 ^ golombP ||| value % 2 ^ golombP = value := by
    rw [Nat.mul_comm, ← Nat.two_pow_add_eq_or_of_lt (Nat.mod_lt _ (Nat.two_pow_pos _)),
      Nat.div_add_mod]
  simp only [decodeGolomb, hr, hr', Option.bind_eq_bind, Option.bind_some, Nat.mod_eq_of_lt hquot,
    hor]

theorem decodeGolomb_delta {r : BitReader}
    (h : r.Reads data (deltaBits last (x :: hashes) ++ padding)) (hle : last ≤ x)
    (hx : x < 2 ^ 64) :
    ∃ r', decodeGolomb r = some (x - last, r') ∧ (last + (x - last)) % 2 ^ 64 = x ∧
      r'.Reads data (deltaBits x hashes ++ padding) := by
  rw [deltaBits, List.append_assoc] at h
  obtain ⟨r', hr, h'⟩ := decodeGolomb_code h (by omega)
  exact ⟨r', hr, by omega, h'⟩

theorem decodeValues_deltas {r : BitReader} {hashes : List Nat}
    (h : r.Reads data (deltaBits last hashes ++ padding)) (hs : (last :: hashes).Pairwise (· ≤ ·))
    (hlt : ∀ x ∈ hashes, x < 2 ^ 64) : decodeValues hashes.length last r = hashes := by
  induction hashes generalizing r last with
  | nil => rfl
  | cons x hashes ih =>
    have hle : last ≤ x := List.rel_of_pairwise_cons hs List.mem_cons_self
    obtain ⟨r', hr, hsum, h'⟩ := decodeGolomb_delta h hle (hlt x List.mem_cons_self)
    simp only [List.length_cons, decodeValues, hr, hsum]
    rw [ih h' hs.of_cons fun y hy => hlt y (List.mem_cons_of_mem _ hy)]

theorem encodeValues_ne_nil (x : Nat) (hashes : List Nat) : encodeValues (x :: hashes) ≠ [] := by
  intro h
  obtain ⟨padding, hp⟩ := ofBytes_encodeValues (x :: hashes)
  rw [h, Bits.ofBytes_nil] at hp
  simp [deltaBits, golombBits] at hp

theorem decodeFilter_encodeValues {hashes : List Nat} (hs : hashes.Pairwise (· ≤ ·))
    (hlt : ∀ x ∈ hashes, x < 2 ^ 64) :
    decodeFilter (encodeValues hashes) hashes.length = hashes := by
  cases hashes with
  | nil => simp [decodeFilter]
  | cons x hashes =>
    obtain ⟨padding, hp⟩ := ofBytes_encodeValues (x :: hashes)
    have hreads := BitReader.reads_new (encodeValues (x :: hashes))
    rw [hp] at hreads
    have hne : ¬ ((encodeValues (x :: hashes)).isEmpty ∨ (x :: hashes).length = 0) := by
      simp [List.isEmpty_iff, encodeValues_ne_nil]
    rw [decodeFilter, if_neg hne]
    apply decodeValues_deltas hreads
    · exact List.pairwise_cons.mpr ⟨fun y _ => Nat.zero_le y, hs⟩
    · exact hlt

theorem head?_dropWhile_eq {queries : List Nat} (hs : queries.Pairwise (· ≤ ·)) :
    (queries.dropWhile (· < x)).head? = some x ↔ x ∈ queries := by
  induction queries with
  | nil => simp
  | cons q queries ih =>
    by_cases hq : q < x
    · rw [List.dropWhile_cons_of_pos (by simpa using hq), ih hs.of_cons, List.mem_cons]
      constructor
      · exact .inr
      · rintro (rfl | h)
        · exact absurd hq (Nat.lt_irrefl _)
        · exact h
    · rw [List.dropWhile_cons_of_neg (by simpa using hq), List.head?_cons, Option.some.injEq,
        List.mem_cons]
      constructor
      · exact fun e => .inl e.symm
      · rintro (rfl | h)
        · rfl
        · have := List.rel_of_pairwise_cons hs h
          omega

theorem mem_dropWhile_iff {queries : List Nat} (hx : x ≤ y) :
    y ∈ queries.dropWhile (· < x) ↔ y ∈ queries := by
  induction queries with
  | nil => rfl
  | cons q queries ih =>
    by_cases hq : q < x
    · rw [List.dropWhile_cons_of_pos (by simpa using hq), ih, List.mem_cons]
      constructor
      · exact .inr
      · rintro (rfl | h)
        · omega
        · exact h
    · rw [List.dropWhile_cons_of_neg (by simpa using hq)]

theorem matchValues_deltas {r : BitReader} {hashes queries : List Nat}
    (h : r.Reads data (deltaBits last hashes ++ padding)) (hs : (last :: hashes).Pairwise (· ≤ ·))
    (hlt : ∀ x ∈ hashes, x < 2 ^ 64) (hq : queries.Pairwise (· ≤ ·)) :
    matchValues hashes.length last queries r = true ↔ ∃ x ∈ hashes, x ∈ queries := by
  induction hashes generalizing r last queries with
  | nil => simp [matchValues]
  | cons x hashes ih =>
    have hle : last ≤ x := List.rel_of_pairwise_cons hs List.mem_cons_self
    obtain ⟨r', hr, hsum, h'⟩ := decodeGolomb_delta h hle (hlt x List.mem_cons_self)
    simp only [List.length_cons, matchValues, hr, hsum]
    by_cases hempty : queries.isEmpty
    · obtain rfl := List.isEmpty_iff.mp hempty
      simp
    rw [if_neg hempty]
    by_cases hhead : (queries.dropWhile (· < x)).head? = some x
    · rw [if_pos hhead]
      have hx := (head?_dropWhile_eq hq).mp hhead
      simp [hx]
    · have hx : x ∉ queries := fun hx => hhead ((head?_dropWhile_eq hq).mpr hx)
      rw [if_neg hhead, ih h' hs.of_cons (fun y hy => hlt y (List.mem_cons_of_mem _ hy))
        (hq.sublist (List.dropWhile_sublist _))]
      simp only [List.mem_cons, exists_eq_or_imp, hx, false_or]
      apply exists_congr
      intro y
      apply and_congr_right
      intro hy
      exact mem_dropWhile_iff (List.rel_of_pairwise_cons hs.of_cons hy)

end Midwimble
