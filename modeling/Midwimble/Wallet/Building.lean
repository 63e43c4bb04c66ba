import Midwimble.Template.Aggregation
import Midwimble.Wallet.Sending

namespace Midwimble
open Fallible KeySort
set_option autoImplicit true

theorem foldlM_checkedAdd64 {l : List α} {f : α → Nat} {acc : Nat}
    (h : acc + (l.map f).sum ≤ u64Max) :
    l.foldlM (fun acc x => checkedAdd64 acc (f x)) acc = some (acc + (l.map f).sum) := by
  induction l generalizing acc with
  | nil => rfl
  | cons x l ih =>
    rw [List.map_cons, List.sum_cons, ← Nat.add_assoc] at h
    have hx : checkedAdd64 acc (f x) = some (acc + f x) :=
      checkedAdd64_eq_some.mpr ⟨by omega, rfl⟩
    rw [List.foldlM_cons, hx, List.map_cons, List.sum_cons, ← Nat.add_assoc]
    exact ih h

variable [Primitives]

/-- What the libraries document: range proofs are made and verify, payloads are sealed in sixteen
bytes more, and both generators have the group's prime order. -/
structure LibrariesWork : Prop where
  rangeVerifies : RangeProofsComplete
  rangeProves : ∀ (value : Nat) (blinding : Primitives.Scalar) (binding : Bytes32) (seed : Bytes),
    value ≤ u64Max → ∃ proof, Primitives.rangeProve 1 binding [value] [blinding] seed = some proof ∧
      proof.length = rangeProofLen 1
  seals : ∀ (key : Bytes32) (nonce plaintext : Bytes), nonce.length = 24 →
    ∃ ciphertext, Primitives.aeadSeal key nonce plaintext = some ciphertext ∧
      ciphertext.length = plaintext.length + 16
  primeG : ∀ s : Primitives.Scalar, s • (genG : Primitives.Point) = 0 → s = 0
  primeH : ∀ s : Primitives.Scalar, s • (genH : Primitives.Point) = 0 → s = 0

/-- Randomness that meets none of the coincidences of negligible probability: a payment's output
has keys, and a commitment that no coin has, and an offset pair leaves both excesses. -/
structure Fresh (draw : TransactionDraw) (scan spend : Primitives.Point) (value : Nat)
    (commitments : List Point32) : Prop where
  nonce : (draw.output 0).nonce.length = 24
  commitment : commit value (draw.output 0).blinding ≠ 0
  ownerKey : ownerTweak (sharedSecret ((draw.output 0).ephemeral • scan)) •
    (genG : Primitives.Point) + spend ≠ 0
  apart : compress (commit value (draw.output 0).blinding) ∉ commitments
  offsets : ∀ s t : Primitives.Scalar, ∃ d ∈ draw.offsets, s - d.1 ≠ 0 ∧ t - d.2 ≠ 0
  shuffle : ∀ created, (draw.shuffle created).Perm created

/-- A coin's opening, with an owner key. -/
structure Spendable.Opens (s : Spendable) : Prop where
  commitment : s.commitment = compress (commit s.value s.blinding)
  ownerKey : s.ownerSecret • (genG : Primitives.Point) ≠ 0

theorem isNonIdentity_compress {p : Primitives.Point} (h : p ≠ 0) :
    isNonIdentity (compress p) = true := by
  rw [isNonIdentity, Primitives.decompress_compress]
  exact decide_eq_true h

theorem isSome_decompress_compress (p : Primitives.Point) :
    (decompress (compress p)).isSome = true := by
  rw [Primitives.decompress_compress]
  rfl

theorem point_compress (p : Primitives.Point) : point (compress p) = p :=
  point_eq (Primitives.decompress_compress p)

section Payment

variable {draw : TransactionDraw} {scan spendKey : Primitives.Point} {value fee minHeight : Nat}
  {payee : StealthAddress} {spend : List Spendable}

/-- A payment's output is made, and passes its own checks. -/
theorem newOutput_fresh {commitments : List Point32} (hlib : LibrariesWork)
    (hpoints : payee.points = .ok (scan, spendKey))
    (hfresh : Fresh draw scan spendKey value commitments) :
    ∃ c, newOutput payee value (draw.output 0) = .ok c ∧ c.value = value ∧
      c.blinding = (draw.output 0).blinding ∧
      c.output.commitment = compress (commit value (draw.output 0).blinding) ∧
      c.output.checkEncoding = .ok () := by
  have hplain : ((Bytes.le 8 value).reverse ++
      (scalarToBytes (draw.output 0).blinding).toBytes).length = 40 := by
    rw [List.length_append, List.length_reverse, Bytes.length_le, Bytes32.toBytes,
      List.length_reverse, Bytes.length_le]
  obtain ⟨ciphertext, hseal, hlen⟩ := hlib.seals
    (hashDomain (Bytes.ascii "midwimble.stealth.payload-key.v1")
      [(sharedSecret ((draw.output 0).ephemeral • scan)).toBytes])
    (draw.output 0).nonce _ hfresh.nonce
  rw [hplain] at hlen
  have hpayload : sealPayload (sharedSecret ((draw.output 0).ephemeral • scan)) value
      (draw.output 0).blinding (draw.output 0).nonce =
        .ok ((draw.output 0).nonce ++ ciphertext) := by
    rw [sealPayload, hseal]
    rfl
  have hpayloadLen : ((draw.output 0).nonce ++ ciphertext).length = payloadLen := by
    rw [List.length_append, hfresh.nonce, hlen]
    rfl
  unfold newOutput
  rw [hpoints, bind_ok]
  dsimp only
  rw [hpayload, bind_ok]
  refine ⟨_, rfl, rfl, rfl, rfl, ?_⟩
  rw [Output.checkEncoding, bailIf_neg, bind_ok, bailIf_neg, bind_ok, bailIf_neg, bind_ok,
    bailIf_neg]
  · exact not_not.mpr hpayloadLen
  · rw [Option.isNone_iff_eq_none, Primitives.decompress_compress]
    exact Option.some_ne_none _
  · rw [isNonIdentity_compress hfresh.ownerKey]
    exact Bool.false_ne_true
  · rw [isNonIdentity_compress hfresh.commitment]
    exact Bool.false_ne_true

/-- The inputs of a payment, signed, in the order of their commitments. -/
def signedInputs (spend : List Spendable) (draw : TransactionDraw) : List Input :=
  (spend.zipIdx.map fun p => Input.sign p.1.commitment p.1.ownerSecret
    (draw.inputAux p.2)).insertionSort fun a b => a.commitment ≤ b.commitment

theorem map_signedInputs (f : Input → Point32) (g : Spendable → Point32)
    (h : ∀ s aux, f (Input.sign s.commitment s.ownerSecret aux) = g s) :
    ((signedInputs spend draw).map f).Perm (spend.map g) := by
  have hsorted := (sortBy_perm Input.commitment (spend.zipIdx.map fun p =>
    Input.sign p.1.commitment p.1.ownerSecret (draw.inputAux p.2))).map f
  rw [List.map_map] at hsorted
  have hsame : spend.zipIdx.map (f ∘ fun p => Input.sign p.1.commitment p.1.ownerSecret
      (draw.inputAux p.2)) = spend.map g := by
    rw [← List.zipIdx_map_fst 0 spend, List.map_map, List.zipIdx_map_fst]
    apply List.map_congr_left
    intro p _
    exact h p.1 _
  rw [hsame] at hsorted
  exact hsorted

theorem pointSum_commitments (hopens : ∀ s ∈ spend, s.Opens) :
    pointSum (spend.map Spendable.commitment) =
      (((spend.map Spendable.value).sum : Nat) : Primitives.Scalar) • genG +
        (spend.map Spendable.blinding).sum • genH := by
  induction spend with
  | nil =>
    simp
  | cons s spend ih =>
    have hs := hopens s List.mem_cons_self
    rw [List.map_cons, pointSum_cons, hs.commitment, point_compress,
      ih fun t ht => hopens t (List.mem_cons_of_mem s ht), commit]
    simp only [List.map_cons, List.sum_cons, Nat.cast_add]
    module

theorem pointSum_ownerKeys (spend : List Spendable) :
    pointSum (spend.map fun s => compress (s.ownerSecret • (genG : Primitives.Point))) =
      (spend.map Spendable.ownerSecret).sum • genG := by
  induction spend with
  | nil => simp
  | cons s spend ih =>
    rw [List.map_cons, pointSum_cons, point_compress, ih, List.map_cons, List.sum_cons, add_smul]

theorem verifySignature_signedInputs (hopens : ∀ s ∈ spend, s.Opens) :
    ∀ i ∈ signedInputs spend draw, i.verifySignature = true := by
  intro i hi
  obtain ⟨p, hp, rfl⟩ := List.mem_map.mp ((List.mem_insertionSort _).mp hi)
  exact schnorrSign_verifies (hopens p.1 (List.fst_mem_of_mem_zipIdx hp)).ownerKey _ _

/-- A payment without change, from its parts. -/
def exactPayment (spend : List Spendable) (output : Output) (proof : Bytes) (fee minHeight : Nat)
    (excess ownerExcess offset ownerOffset : Primitives.Scalar) (draw : TransactionDraw) :
    Transaction :=
  ⟨⟨signedInputs spend draw, [⟨[output], proof⟩],
    [Kernel.new .plain fee minHeight excess ownerExcess draw.kernelAux]⟩,
    scalarToBytes offset, scalarToBytes ownerOffset⟩

variable {output : Output} {proof : Bytes}
  {excess ownerExcess offset ownerOffset : Primitives.Scalar}

theorem exactPayment_sound (hlib : LibrariesWork) (hnodup : (spend.map Spendable.commitment).Nodup)
    (hproof : proof.length = rangeProofLen 1) (hencoding : output.checkEncoding = .ok ())
    (hapart : output.commitment ∉ spend.map Spendable.commitment) (hexcess : excess ≠ 0)
    (howner : ownerExcess ≠ 0) :
    (exactPayment spend output proof fee minHeight excess ownerExcess offset ownerOffset
      draw).Sound where
  kernelless h := absurd h (List.cons_ne_nil _ _)
  kernelOffset := by
    rw [exactPayment, Primitives.scalarFromBytes_toBytes]
    rfl
  ownerOffset := by
    rw [exactPayment, Primitives.scalarFromBytes_toBytes]
    rfl
  inputs := by
    apply (sortBy_isChain_lt Input.commitment _).mpr
    rw [List.map_map]
    have hsame : spend.zipIdx.map (Input.commitment ∘ fun p => Input.sign p.1.commitment
        p.1.ownerSecret (draw.inputAux p.2)) = spend.map Spendable.commitment := by
      rw [← List.zipIdx_map_fst 0 spend, List.map_map, List.zipIdx_map_fst]
      rfl
    rw [hsame]
    exact hnodup
  groups := List.isChain_singleton _
  structures := by
    intro g hg
    obtain rfl := List.mem_singleton.mp hg
    have hsize : ¬ (([output] : List Output).length = 0 ∨
        ([output] : List Output).length > maxGroupOutputs) := by
      rw [List.length_singleton]
      decide
    have hlen : ¬ proof.length ≠ rangeProofLen [output].length := not_not.mpr hproof
    rw [OutputGroup.checkStructure]
    dsimp only
    rw [bailIf_neg hsize, bind_ok, bailIf_neg hlen, bind_ok]
    apply checkAll_eq_ok.mpr
    intro o ho
    obtain rfl := List.mem_singleton.mp ho
    exact hencoding
  commitments := List.nodup_singleton _
  ownerKeys := List.nodup_singleton _
  apart := by
    intro c hc hout
    obtain rfl := List.mem_singleton.mp hout
    have hperm : ((signedInputs spend draw).map Input.commitment).Perm
        (spend.map Spendable.commitment) := map_signedInputs _ _ fun _ _ => rfl
    exact hapart (hperm.mem_iff.mp hc)
  kernels := List.isChain_singleton _
  plain := by
    intro k hk
    obtain rfl := List.mem_singleton.mp hk
    have hexcess' : excess • (genH : Primitives.Point) ≠ 0 := fun h => hexcess (hlib.primeH _ h)
    have howner' : ownerExcess • (genG : Primitives.Point) ≠ 0 := fun h => howner (hlib.primeG _ h)
    have hidentity : compress (ownerExcess • (genG : Primitives.Point)) ≠ identity := by
      intro h
      have hpoint := congrArg point (h.trans Primitives.compress_zero.symm)
      rw [point_compress, point_compress] at hpoint
      exact howner' hpoint
    refine ⟨rfl, ?_⟩
    rw [Kernel.checkRules, bailIf_neg, bind_ok, bailIf_neg, bind_ok]
    · exact bailIf_neg hidentity _
    · rw [Kernel.new, Primitives.decompress_compress]
      exact Bool.false_ne_true
    · rw [Kernel.new, isNonIdentity_compress hexcess']
      exact Bool.false_ne_true

theorem exactPayment_verifies (hopens : ∀ s ∈ spend, s.Opens)
    (hrange : (⟨[output], proof⟩ : OutputGroup).verifyRangeProof = true) :
    (exactPayment spend output proof fee minHeight excess ownerExcess offset ownerOffset
      draw).verifyCrypto = .ok () := by
  apply verifyCrypto_eq_ok.mpr
  refine ⟨?_, verifySignature_signedInputs hopens, ?_⟩
  · intro g hg
    obtain rfl := List.mem_singleton.mp hg
    exact hrange
  · intro k hk
    obtain rfl := List.mem_singleton.mp hk
    exact kernel_verifies _ _ _ _ _ _

theorem exactPayment_sums {blinding : Primitives.Scalar}
    (hsound : (exactPayment spend output proof fee minHeight excess ownerExcess offset ownerOffset
      draw).Sound) (hopens : ∀ s ∈ spend, s.Opens)
    (hsum : (spend.map Spendable.value).sum = value + fee) (hfit : value + fee ≤ u64Max)
    (hcommitment : output.commitment = compress (commit value blinding))
    (hexcess : excess = blinding - (spend.map Spendable.blinding).sum - offset)
    (howner : ownerExcess = (spend.map Spendable.ownerSecret).sum - ownerOffset) :
    (exactPayment spend output proof fee minHeight excess ownerExcess offset ownerOffset
      draw).verifySums = .ok () := by
  have hins : ((signedInputs spend draw).map Input.commitment).Perm
      (spend.map Spendable.commitment) := map_signedInputs _ _ fun _ _ => rfl
  have hkeys : ((signedInputs spend draw).map Input.ownerKey).Perm
      (spend.map fun s => compress (s.ownerSecret • (genG : Primitives.Point))) :=
    map_signedInputs _ _ fun _ _ => rfl
  apply (verifySums_eq_ok hsound).mpr
  refine ⟨?_, ?_, ?_, ?_, ?_, ?_, ?_, ?_⟩
  · have hfee : fee ≤ u64Max := by omega
    exact hfee
  · intro b hb
    obtain rfl := List.mem_singleton.mp hb
    rw [hcommitment]
    exact isSome_decompress_compress _
  · intro b hb
    rw [List.flatMap_singleton] at hb
    obtain ⟨s, hs, rfl⟩ := List.mem_map.mp (hins.mem_iff.mp hb)
    rw [(hopens s hs).commitment]
    exact isSome_decompress_compress _
  · intro b hb
    obtain rfl := List.mem_singleton.mp hb
    exact isSome_decompress_compress _
  · intro b hb
    rw [List.flatMap_singleton] at hb
    obtain ⟨s, hs, rfl⟩ := List.mem_map.mp (hkeys.mem_iff.mp hb)
    exact isSome_decompress_compress _
  · intro b hb
    obtain rfl := List.mem_singleton.mp hb
    exact isSome_decompress_compress _
  · have hout : pointSum [output.commitment] = commit value blinding := by
      rw [pointSum_cons, pointSum_nil, add_zero, hcommitment, point_compress]
    have hin : pointSum ((signedInputs spend draw).map Input.commitment) =
        ((value + fee : Nat) : Primitives.Scalar) • genG +
          (spend.map Spendable.blinding).sum • genH := by
      rw [pointSum_perm hins, pointSum_commitments hopens, hsum]
    have hkernel : pointSum [compress (excess • (genH : Primitives.Point))] = excess • genH := by
      rw [pointSum_cons, pointSum_nil, add_zero, point_compress]
    have hoffset : kernelOffsetSum [exactPayment spend output proof fee minHeight excess
        ownerExcess offset ownerOffset draw] = offset := by
      rw [kernelOffsetSum, List.map_singleton, List.sum_singleton, exactPayment, scalar_toBytes]
    rw [hoffset, List.flatMap_singleton, List.flatMap_singleton, List.flatMap_singleton,
      List.map_singleton, List.sum_singleton]
    calc
      pointSum [output.commitment] - pointSum ((signedInputs spend draw).map Input.commitment) +
          (fee : Primitives.Scalar) • genG =
          commit value blinding - (((value + fee : Nat) : Primitives.Scalar) • genG +
            (spend.map Spendable.blinding).sum • genH) + (fee : Primitives.Scalar) • genG := by
        rw [hout, hin]
      _ = excess • genH + offset • genH := by
        rw [hexcess, commit, Nat.cast_add]
        module
      _ = pointSum [compress (excess • (genH : Primitives.Point))] + offset • genH := by
        rw [hkernel]
  · have hkernel : pointSum [compress (ownerExcess • (genG : Primitives.Point))] =
        ownerExcess • genG := by
      rw [pointSum_cons, pointSum_nil, add_zero, point_compress]
    have hoffset : ownerOffsetSum [exactPayment spend output proof fee minHeight excess
        ownerExcess offset ownerOffset draw] = ownerOffset := by
      rw [ownerOffsetSum, List.map_singleton, List.sum_singleton, exactPayment, scalar_toBytes]
    rw [hoffset, List.flatMap_singleton, List.flatMap_singleton]
    calc
      pointSum ((signedInputs spend draw).map Input.ownerKey) =
          (spend.map Spendable.ownerSecret).sum • genG := by
        rw [pointSum_perm hkeys, pointSum_ownerKeys]
      _ = ownerExcess • genG + ownerOffset • genG := by
        rw [howner]
        module
      _ = pointSum [compress (ownerExcess • (genG : Primitives.Point))] + ownerOffset • genG := by
        rw [hkernel]

theorem exactPayment_weight :
    (exactPayment spend output proof fee minHeight excess ownerExcess offset ownerOffset
      draw).weight = spend.length * inputWeight + outputWeight + kernelWeight := by
  have hinputs : (signedInputs spend draw).length = spend.length := by
    rw [signedInputs, List.length_insertionSort, List.length_map, List.length_zipIdx]
  rw [Transaction.weight, exactPayment, hinputs]
  rfl

theorem exactPayment_fits (hspend : spend ≠ []) :
    (exactPayment spend output proof fee minHeight excess ownerExcess offset ownerOffset
      draw).Fits .relay ↔
        spend.length * inputWeight + outputWeight + kernelWeight ≤ maxTxWeight := by
  have hinputs : signedInputs spend draw ≠ [] := by
    rw [← List.length_pos_iff, signedInputs, List.length_insertionSort, List.length_map,
      List.length_zipIdx]
    exact List.length_pos_iff.mpr hspend
  rw [Transaction.Fits, exactPayment_weight]
  constructor
  · rintro ⟨-, -, -, hweight⟩
    exact hweight
  · intro hweight
    exact ⟨hinputs, List.cons_ne_nil _ _, List.cons_ne_nil _ _, hweight⟩

theorem prove_single {c : NewOutput} (hlib : LibrariesWork) (hvalue : c.value ≤ u64Max)
    (hcommitment : c.output.commitment = compress (commit c.value c.blinding)) (seed : Bytes) :
    ∃ proof, OutputGroup.prove [c.output] [c.value] [c.blinding] seed =
        .ok ⟨[c.output], proof⟩ ∧ proof.length = rangeProofLen 1 ∧
      (⟨[c.output], proof⟩ : OutputGroup).verifyRangeProof = true := by
  obtain ⟨proof, hprove, hlen⟩ := hlib.rangeProves c.value c.blinding
    (OutputGroup.bindingFor [c.output]) seed hvalue
  have hgroup : OutputGroup.prove [c.output] [c.value] [c.blinding] seed =
      .ok ⟨[c.output], proof⟩ := by
    have hrange : proveRange [c.value] [c.blinding] (OutputGroup.bindingFor [c.output]) seed =
        .ok proof := by
      have hsize : ¬ (([c.value] : List Nat).length = 0 ∨
          ([c.value] : List Nat).length > maxGroupOutputs) := by
        rw [List.length_singleton]
        decide
      have hsame : ¬ ([c.blinding].length ≠ [c.value].length) := not_not.mpr rfl
      rw [proveRange]
      dsimp only
      rw [bailIf_neg hsize, bind_ok, bailIf_neg hsame, bind_ok]
      exact orBail_eq_ok.mpr hprove
    have hsame : ¬ ([c.output].length ≠ [c.value].length) := not_not.mpr rfl
    rw [OutputGroup.prove, bailIf_neg hsame, bind_ok, hrange, bind_ok]
  refine ⟨proof, hgroup, hlen, ?_⟩
  apply prove_verifies hlib.rangeVerifies hgroup
  · rw [List.map_singleton, hcommitment]
    rfl
  · exact hlen

/-- A payment that leaves no change is built exactly if its inputs are not too heavy. -/
theorem buildTransaction_exact {changeTo : StealthAddress} (hlib : LibrariesWork)
    (hopens : ∀ s ∈ spend, s.Opens) (hnodup : (spend.map Spendable.commitment).Nodup)
    (hvalue : value ≠ 0) (hsum : (spend.map Spendable.value).sum = value + fee)
    (hfit : value + fee ≤ u64Max) (hpoints : payee.points = .ok (scan, spendKey))
    (hfresh : Fresh draw scan spendKey value (spend.map Spendable.commitment)) :
    (∃ built, buildTransaction spend [⟨payee, value⟩] changeTo fee minHeight draw = .ok built) ↔
      spend.length * inputWeight + outputWeight + kernelWeight ≤ maxTxWeight := by
  have hspend : spend ≠ [] := by
    rintro rfl
    rw [List.map_nil, List.sum_nil] at hsum
    omega
  have htotalIn : spend.foldlM (fun acc s => checkedAdd64 acc s.value) 0 = some (value + fee) := by
    have h := @foldlM_checkedAdd64 _ spend Spendable.value 0 (by omega)
    rwa [Nat.zero_add, hsum] at h
  have htotalOut : [(⟨payee, value⟩ : Payment)].foldlM (fun acc p => checkedAdd64 acc p.value) fee =
      some (value + fee) := by
    have h := @foldlM_checkedAdd64 _ [(⟨payee, value⟩ : Payment)] Payment.value fee (by
      rw [List.map_singleton, List.sum_singleton, Nat.add_comm]
      exact hfit)
    rwa [List.map_singleton, List.sum_singleton, Nat.add_comm] at h
  obtain ⟨c, hc, hcv, hcb, hcommitment, hencoding⟩ := newOutput_fresh hlib hpoints hfresh
  rw [← hcv, ← hcb] at hcommitment
  obtain ⟨proof, hgroup, hproof, hrange⟩ := prove_single hlib (by omega) hcommitment draw.seed
  have hpaid : ([(⟨payee, value⟩ : Payment)].zipIdx.mapM fun p =>
      newOutput p.1.to p.1.value (draw.output p.2)) = .ok [c] := by
    rw [List.zipIdx_singleton, List.mapM_cons, List.mapM_nil, hc]
    rfl
  have hback : changeOutputs changeTo (value + fee - (value + fee)) (draw.output 1) = .ok [] := by
    rw [Nat.sub_self]
    rfl
  have hcreated : draw.shuffle ([c] ++ []) = [c] := List.perm_singleton.mp (hfresh.shuffle _)
  obtain ⟨d, hd, hd1, hd2⟩ := hfresh.offsets
    (([c].map NewOutput.blinding).sum - (spend.map Spendable.blinding).sum)
    (spend.map Spendable.ownerSecret).sum
  -- The pair drawn is the first that leaves neither excess zero.
  cases hfind : draw.offsets.find? fun d =>
      ([c].map NewOutput.blinding).sum - (spend.map Spendable.blinding).sum - d.1 ≠ 0 ∧
        (spend.map Spendable.ownerSecret).sum - d.2 ≠ 0 with
  | none => exact absurd (decide_eq_true ⟨hd1, hd2⟩) (List.find?_eq_none.mp hfind d hd)
  | some pair =>
    obtain ⟨offset, ownerOffset⟩ := pair
    have hpair := List.find?_some hfind
    obtain ⟨hexcess, howner⟩ := of_decide_eq_true hpair
    rw [List.map_singleton, List.sum_singleton] at hexcess
    have hbuild : buildTransaction spend [⟨payee, value⟩] changeTo fee minHeight draw =
        (do
          let tx := exactPayment spend c.output proof fee minHeight
            (c.blinding - (spend.map Spendable.blinding).sum - offset)
            ((spend.map Spendable.ownerSecret).sum - ownerOffset) offset ownerOffset draw
          tx.validateStructure .relay
          tx.verifySums
          tx.verifyCrypto
          .ok ⟨tx, none⟩) := by
      have hempty : ¬ (spend.isEmpty = true) := by
        rwa [List.isEmpty_iff]
      have hpositive : ¬ (([(⟨payee, value⟩ : Payment)].any fun p => p.value = 0) = true) := by
        rw [List.any_cons, List.any_nil, Bool.or_false, decide_eq_true_eq]
        exact hvalue
      unfold buildTransaction
      rw [bailIf_neg hempty, bind_ok, bailIf_neg (by nofun), bind_ok, bailIf_neg hpositive,
        bind_ok, htotalIn, orBail_some, bind_ok, htotalOut, orBail_some, bind_ok,
        bailIf_neg (Nat.lt_irrefl _), bind_ok, hpaid, bind_ok]
      dsimp only [List.length_singleton]
      rw [hback, bind_ok, hcreated]
      dsimp only [List.map_singleton]
      rw [hgroup, bind_ok]
      rw [List.map_singleton] at hfind
      rw [hfind, orBail_some, bind_ok, List.sum_singleton]
      rfl
    have hapart : c.output.commitment ∉ spend.map Spendable.commitment := by
      rw [hcommitment, hcv, hcb]
      exact hfresh.apart
    have hsound : (exactPayment spend c.output proof fee minHeight
        (c.blinding - (spend.map Spendable.blinding).sum - offset)
        ((spend.map Spendable.ownerSecret).sum - ownerOffset) offset ownerOffset draw).Sound :=
      exactPayment_sound hlib hnodup hproof hencoding hapart hexcess howner
    rw [hbuild]
    constructor
    · rintro ⟨built, h⟩
      obtain ⟨_, hvalid, -⟩ := bind_eq_ok.mp h
      exact (exactPayment_fits hspend).mp (validateStructure_eq_ok.mp hvalid).1
    · intro hweight
      have hvalid := validateStructure_eq_ok.mpr ⟨(exactPayment_fits hspend).mpr hweight, hsound⟩
      have hsums := exactPayment_sums hsound hopens (hcv ▸ hsum) (hcv ▸ hfit) hcommitment rfl rfl
      dsimp only
      rw [hvalid, bind_ok, hsums, bind_ok, exactPayment_verifies hopens hrange, bind_ok]
      exact ⟨_, rfl⟩

end Payment

end Midwimble
