import Midwimble.Mempool.Index

namespace Midwimble
open OrderedMap
set_option autoImplicit true

namespace Mempool

variable [Primitives] {pool pool' : Mempool} {tx : Transaction} {state : State}
  {alreadyValidated : Bool} {e : Entry}

/-- What `add` may leave when it returns an error. -/
inductive Fails (alreadyValidated : Bool) (tx : Transaction) (state : State) (pool : Mempool) :
    Mempool → Prop
  | refused (err : Err) (bad : checkAs alreadyValidated pool tx state = .error err) :
      Fails alreadyValidated tx state pool pool
  | full {pool' : Mempool} (fee : Nat) (ok : checkAs alreadyValidated pool tx state = .ok ())
      (paid : tx.fee = .ok fee) (evicted : Evicts ⟨tx, fee, tx.weight⟩ pool pool')
      (full : maxPoolWeight < pool'.totalWeight + tx.weight)
      (stuck : ∀ (other : Bytes32) (e : Entry), pool'.entries[other]? = some e →
        Entry.rate ⟨tx, fee, tx.weight⟩ ≤ e.rate) : Fails alreadyValidated tx state pool pool'

/-- What the entries weigh that pay less than `e`. -/
def cheaperWeight (pool : Mempool) (e : Entry) : Nat :=
  valueSum (fun d => if d.rate < e.rate then d.weight else 0) pool.entries

theorem weights_remove {hash : Bytes32} {worst : Entry} (held : pool.entries[hash]? = some worst)
    (lower : worst.rate < e.rate) :
    (pool.remove hash).totalWeight = pool.totalWeight - worst.weight ∧
      pool.cheaperWeight e = worst.weight + (pool.remove hash).cheaperWeight e := by
  have hsum := valueSum_erase (f := fun d : Entry => if d.rate < e.rate then d.weight else 0) held
  rw [remove, held]
  rw [if_pos lower] at hsum
  exact ⟨rfl, hsum⟩

theorem Evicts.weight (h : Evicts e pool pool') :
    pool'.totalWeight - pool'.cheaperWeight e = pool.totalWeight - pool.cheaperWeight e := by
  induction h with
  | done => rfl
  | evict hash worst full held least lower rest ih =>
    obtain ⟨htotal, hcheaper⟩ := weights_remove held lower
    rw [ih, htotal, hcheaper, Nat.sub_sub]

omit [Primitives] in
theorem cheaperWeight_of_stuck (h : ∀ (other : Bytes32) (d : Entry),
    pool.entries[other]? = some d → e.rate ≤ d.rate) : pool.cheaperWeight e = 0 := by
  have hzero := valueSum_congr (t := pool.entries) (g := fun _ => 0)
    (f := fun d => if d.rate < e.rate then d.weight else 0)
    fun k d hd => if_neg (Nat.not_lt.mpr (h k d hd))
  rw [cheaperWeight, hzero, valueSum]
  simp

/-- Whether the pool keeps what it holds when it refuses the transaction: the checks refuse it,
nothing pays less, or there is room once what pays less is gone. -/
def KeepsOnRefusal (alreadyValidated : Bool) (pool : Mempool) (tx : Transaction) (state : State) :
    Prop :=
  ∀ fee, checkAs alreadyValidated pool tx state = .ok () → tx.fee = .ok fee →
    (∀ (hash : Bytes32) (d : Entry), pool.entries[hash]? = some d →
      Entry.rate ⟨tx, fee, tx.weight⟩ ≤ d.rate) ∨
    pool.totalWeight - pool.cheaperWeight ⟨tx, fee, tx.weight⟩ + tx.weight ≤ maxPoolWeight

/-- A refused transaction leaves the pool as it was exactly when evicting what pays less would
have made room, or nothing pays less. -/
theorem refusal_keeps_pool (alreadyValidated : Bool) (pool : Mempool) (tx : Transaction)
    (state : State) :
    (∀ pool', Fails alreadyValidated tx state pool pool' → pool' = pool) ↔
      KeepsOnRefusal alreadyValidated pool tx state := by
  constructor
  · intro h fee ok paid
    obtain ⟨hev, hend⟩ := evicts_evict (e := ⟨tx, fee, tx.weight⟩) pool.entries.size
      (Nat.le_refl pool.entries.size)
    have hweight := hev.weight
    cases hroom : (evict ⟨tx, fee, tx.weight⟩ pool.entries.size pool).2 with
    | true =>
      rw [hroom, if_pos rfl] at hend
      right
      dsimp only at hend
      omega
    | false =>
      rw [hroom, if_neg Bool.false_ne_true] at hend
      obtain ⟨hfull, hstuck⟩ := hend
      left
      rw [← h _ (.full fee ok paid hev hfull hstuck)]
      exact hstuck
  · intro h pool' hfails
    cases hfails with
    | refused err bad => rfl
    | full fee ok paid evicted full stuck =>
      rcases h fee ok paid with hnone | hroom
      · cases evicted with
        | done => rfl
        | evict hash worst _ held least lower rest =>
          exact absurd lower (Nat.not_lt.mpr (hnone hash worst held))
      · have hweight := evicted.weight
        rw [cheaperWeight_of_stuck stuck] at hweight
        omega

section Outbid

/-- Words under the mixing hash, which gives all long data one value. -/
@[reducible] def mixingShort : Primitives :=
  { Primitives.mixing with
    blake3 := fun data => if data.length > 100000 then 1 else Primitives.mixing.blake3 data }

def groupOf (commitment : Point32) : OutputGroup :=
  ⟨[⟨commitment, commitment, 1, 0, List.replicate 80 0, 0⟩], List.replicate 672 0⟩

/-- Pays the relay minimum. -/
def cheap : Transaction where
  body :=
    { inputs := [⟨40, 1, ⟨0, 0⟩⟩]
      outputs := [groupOf 41]
      kernels := [⟨.plain, 2500, 0, 1 + (2500 <<< 128), 1, ⟨0, 0, 0⟩⟩] }
  kernelOffset := 0
  ownerOffset := 0

def heavyKernel : Kernel := ⟨.plain, 1000, 0, 7, 1, ⟨0, 0, 0⟩⟩

/-- All else in a full pool, as one transaction of the same weight. -/
def heavy (kernels : Nat) : Transaction where
  body :=
    { inputs := [⟨20, 1, ⟨0, 0⟩⟩]
      outputs := [groupOf 21]
      kernels := List.replicate kernels heavyKernel }
  kernelOffset := 0
  ownerOffset := 0

/-- Pays more than `cheap` and weighs more. -/
def outbidding : Transaction where
  body :=
    { inputs := [⟨1, 1, ⟨0, 0⟩⟩, ⟨2, 1, ⟨0, 0⟩⟩, ⟨3, 1, ⟨0, 0⟩⟩, ⟨4, 1, ⟨0, 0⟩⟩]
      outputs := [groupOf 11]
      kernels := [⟨.plain, 5600, 0, 1 + (5600 <<< 128), 4, ⟨0, 0, 0⟩⟩] }
  kernelOffset := 0
  ownerOffset := 0

def outbiddingTip : State :=
  { State.genesis with
    height := 1
    utxos := (((State.genesis.utxos.insert 1 ⟨0, 1, 0, 0, false⟩).insert 2
      ⟨0, 1, 0, 0, false⟩).insert 3 ⟨0, 1, 0, 0, false⟩).insert 4 ⟨0, 1, 0, 0, false⟩ }

def cheapEntry : Entry := ⟨cheap, 2500, 25⟩

def heavyEntry (kernels : Nat) : Entry := ⟨heavy kernels, 1000 * kernels, 22 + 3 * kernels⟩

/-- A pool of two entries. -/
def twoPool (kernels : Nat) : Mempool := (new.insert cheapEntry).insert (heavyEntry kernels)

omit [Primitives] in
theorem weight_heavy (kernels : Nat) : (heavy kernels).weight = 22 + 3 * kernels := by
  have hlen : (heavy kernels).body.kernels.length = kernels := List.length_replicate
  have hcount : (heavy kernels).outputCount = 1 := rfl
  have hinputs : (heavy kernels).body.inputs.length = 1 := rfl
  rw [Transaction.weight, hlen, hcount, hinputs, inputWeight, outputWeight, kernelWeight]
  omega

omit [Primitives] in
theorem length_encode_heavy (kernels : Nat) : kernels ≤ (heavy kernels).encode.length := by
  have hlist : (encodeList Kernel.encode (heavy kernels).body.kernels).length =
      8 + kernels * heavyKernel.encode.length := by
    rw [encodeList, List.length_append, Bytes.length_le, List.length_flatMap, heavy,
      List.map_replicate, List.sum_replicate, smul_eq_mul]
  have hone : 1 ≤ heavyKernel.encode.length := by decide +kernel
  have hmul := Nat.mul_le_mul_left kernels hone
  rw [Transaction.encode]
  simp only [List.length_append, hlist]
  omega

omit [Primitives] in
theorem blake3_long {data : Bytes} (h : 100000 < data.length) :
    letI := mixingShort
    blake3 data = 1 :=
  if_pos h

omit [Primitives] in
theorem hash_heavy {kernels : Nat} (h : 100000 < kernels) :
    letI := mixingShort
    (heavy kernels).hash = 1 := by
  let := mixingShort
  have hlen := length_encode_heavy kernels
  rw [Transaction.hash, hashDomain, blake3_long]
  rw [domainPreimage, Bytes.prefixedAll, List.flatMap_cons, List.flatMap_cons, List.flatMap_nil,
    Bytes.prefixed, Bytes.prefixed]
  simp only [List.length_append]
  omega

omit [Primitives] in
theorem entries_twoPool {kernels : Nat} (h : 100000 < kernels) {other : Bytes32} {d : Entry} :
    letI := mixingShort
    (twoPool kernels).entries[other]? = some d ↔
      other = 1 ∧ d = heavyEntry kernels ∨ other = cheap.hash ∧ d = cheapEntry := by
  let := mixingShort
  have hne : cheap.hash ≠ 1 := by decide +kernel
  have hhash : (heavyEntry kernels).tx.hash = 1 := hash_heavy h
  rw [twoPool, insert, getElem?_insert_eq_some, hhash, insert, getElem?_insert_eq_some]
  have hempty : new.entries[other]? = none := by simp [new]
  rw [hempty]
  have hcheap : cheapEntry.tx.hash = cheap.hash := rfl
  rw [hcheap]
  generalize cheap.hash = key at hne
  constructor
  · rintro (⟨he, hd⟩ | ⟨-, ⟨he, hd⟩ | ⟨-, hd⟩⟩)
    · exact .inl ⟨he.symm, hd.symm⟩
    · exact .inr ⟨he.symm, hd.symm⟩
    · cases hd
  · rintro (⟨he, hd⟩ | ⟨he, hd⟩)
    · exact .inl ⟨he.symm, hd.symm⟩
    · exact .inr ⟨fun h1 => hne (he.symm.trans h1.symm), .inl ⟨he.symm, hd.symm⟩⟩

omit [Primitives] in
theorem kernelIds_heavy {kernels : Nat} {k : Bytes32} :
    letI := mixingShort
    k ∈ (heavy kernels).kernelIds → k = heavyKernel.id := by
  let := mixingShort
  intro hk
  rw [Transaction.kernelIds, heavy, List.map_replicate] at hk
  exact List.eq_of_mem_replicate hk

omit [Primitives] in
theorem all_apart {keys keys' : List Bytes32} (h : keys.all (· ∉ keys') = true) {c : Bytes32}
    (hc : c ∈ keys) : c ∉ keys' :=
  of_decide_eq_true (List.all_eq_true.mp h c hc)

theorem not_mem_one {keysOf : Transaction → List Bytes32}
    {index : Std.ExtTreeMap Bytes32 Bytes32} {k : Bytes32} {keys : List Bytes32}
    (hi : Indexes index (new.insert cheapEntry).entries keysOf) (hk : k ∈ keys)
    (hapart : keys.all (· ∉ keysOf cheap) = true) : k ∉ index := by
  intro hmem
  obtain ⟨other, hother⟩ := mem_iff_exists.mp hmem
  obtain ⟨d, hd, hkd⟩ := (hi k other).mp hother
  rw [insert, getElem?_insert_eq_some] at hd
  rcases hd with ⟨-, rfl⟩ | ⟨-, hd⟩
  · exact all_apart hapart hk hkd
  · simp [new] at hd

omit [Primitives] in
theorem indexed_twoPool {kernels : Nat} (h : 100000 < kernels)
    (hroom : 47 + 3 * kernels ≤ maxPoolWeight) :
    letI := mixingShort
    (twoPool kernels).Indexed := by
  let := mixingShort
  have hcheap : (new.insert cheapEntry).Indexed := by
    apply indexed_new.insert
    · simp [new]
    · decide
    · simp [new]
    · simp [new]
    · simp [new]
    · decide
  apply hcheap.insert
  · rw [show (heavyEntry kernels).tx.hash = 1 from hash_heavy h]
    decide +kernel
  · exact (weight_heavy kernels).symm
  · show ∀ k ∈ [(20 : Bytes32)], k ∉ (new.insert cheapEntry).spends
    exact fun k hk => not_mem_one hcheap.spends hk (by decide +kernel)
  · show ∀ k ∈ [(21 : Bytes32)], k ∉ (new.insert cheapEntry).creates
    exact fun k hk => not_mem_one hcheap.creates hk (by decide +kernel)
  · intro k hk
    rw [kernelIds_heavy hk]
    decide +kernel
  · show 0 + 25 + (22 + 3 * kernels) ≤ maxPoolWeight
    omega

omit [Primitives] in
theorem not_mem_twoPool {kernels : Nat} (h : 100000 < kernels) {keysOf : Transaction → List Bytes32}
    {index : Std.ExtTreeMap Bytes32 Bytes32} {c : Bytes32}
    (hi : letI := mixingShort; Indexes index (twoPool kernels).entries keysOf)
    (hapart : c ∉ keysOf cheap ++ keysOf (heavy kernels)) : c ∉ index := by
  intro hmem
  obtain ⟨other, hother⟩ := mem_iff_exists.mp hmem
  obtain ⟨d, hd, hc⟩ := (hi c other).mp hother
  rcases (entries_twoPool h).mp hd with ⟨-, rfl⟩ | ⟨-, rfl⟩
  · exact hapart (List.mem_append_right _ hc)
  · exact hapart (List.mem_append_left _ hc)

omit [Primitives] in
theorem check_outbidding {kernels : Nat} (h : 100000 < kernels)
    (hroom : 47 + 3 * kernels ≤ maxPoolWeight) :
    letI := mixingShort
    (twoPool kernels).check outbidding outbiddingTip = .ok () := by
  let := mixingShort
  have hindexed := indexed_twoPool h hroom
  have hspends : outbidding.inputCommitments.all
      (· ∉ cheap.inputCommitments ++ (heavy kernels).inputCommitments) = true := by
    show outbidding.inputCommitments.all (· ∉ cheap.inputCommitments ++ [20]) = true
    decide +kernel
  have hcreated : outbidding.inputCommitments.all
      (· ∉ cheap.outputCommitments ++ (heavy kernels).outputCommitments) = true := by
    show outbidding.inputCommitments.all (· ∉ cheap.outputCommitments ++ [21]) = true
    decide +kernel
  have hcreates : outbidding.outputCommitments.all
      (· ∉ cheap.outputCommitments ++ (heavy kernels).outputCommitments) = true := by
    show outbidding.outputCommitments.all (· ∉ cheap.outputCommitments ++ [21]) = true
    decide +kernel
  have hkernels : outbidding.kernelIds.all (· ∉ cheap.kernelIds ++ [heavyKernel.id]) = true := by
    decide +kernel
  have hstructure : outbidding.validateStructure .relay = .ok () := by decide +kernel
  have hsums : outbidding.verifySums = .ok () := by decide +kernel
  have hfee : outbidding.fee = .ok 5600 := by decide +kernel
  have happlies : applies outbiddingTip outbidding = true := by decide +kernel
  have hone : outbidding.hash ≠ 1 := by decide +kernel
  have hcheap : outbidding.hash ≠ cheap.hash := by decide +kernel
  apply check_eq_ok.mpr
  refine ⟨?_, ⟨hstructure, hsums, 5600, hfee, by decide⟩, happlies, ?_, ?_, ?_⟩
  · intro hmem
    obtain ⟨d, hd⟩ := mem_iff_exists.mp hmem
    rcases (entries_twoPool h).mp hd with ⟨he, -⟩ | ⟨he, -⟩
    · exact hone he
    · exact hcheap he
  · intro c hc
    exact ⟨not_mem_twoPool h hindexed.spends (all_apart hspends hc),
      not_mem_twoPool h hindexed.creates (all_apart hcreated hc)⟩
  · intro c hc
    exact not_mem_twoPool h hindexed.creates (all_apart hcreates hc)
  · intro k hk
    have hapart := all_apart hkernels hk
    apply not_mem_twoPool h hindexed.kernels
    intro hmem
    rcases List.mem_append.mp hmem with hin | hin
    · exact hapart (List.mem_append_left _ hin)
    · rw [kernelIds_heavy hin] at hapart
      exact hapart (List.mem_append_right _ (List.mem_singleton_self _))

omit [Primitives] in
theorem fails_outbidding (kernels : Nat) (hkernels : kernels = 333317) :
    letI := mixingShort
    (twoPool kernels).Indexed ∧ Fails true outbidding outbiddingTip (twoPool kernels)
      ((twoPool kernels).remove cheap.hash) ∧
      (twoPool kernels).remove cheap.hash ≠ twoPool kernels := by
  let := mixingShort
  have hmax : maxPoolWeight = 1000000 := rfl
  have h : 100000 < kernels := by omega
  have hroom : 47 + 3 * kernels ≤ maxPoolWeight := by omega
  have hfee : outbidding.fee = .ok 5600 := by decide +kernel
  have hweight : outbidding.weight = 28 := rfl
  have hrates : cheapEntry.rate < Entry.rate ⟨outbidding, 5600, outbidding.weight⟩ := by
    show 2500 * 2 ^ 16 / max 25 1 < 5600 * 2 ^ 16 / max 28 1
    decide
  have hheavy : Entry.rate ⟨outbidding, 5600, outbidding.weight⟩ ≤ (heavyEntry kernels).rate := by
    show 5600 * 2 ^ 16 / max 28 1 ≤ 1000 * kernels * 2 ^ 16 / max (22 + 3 * kernels) 1
    subst hkernels
    decide
  have hheld : (twoPool kernels).entries[cheap.hash]? = some cheapEntry :=
    (entries_twoPool h).mpr (.inr ⟨rfl, rfl⟩)
  have htotal : (twoPool kernels).totalWeight = 47 + 3 * kernels := by
    show 0 + 25 + (22 + 3 * kernels) = 47 + 3 * kernels
    omega
  have hafter : ((twoPool kernels).remove cheap.hash).totalWeight = 22 + 3 * kernels := by
    rw [remove, hheld]
    show (twoPool kernels).totalWeight - 25 = 22 + 3 * kernels
    omega
  have hindexed := indexed_twoPool h hroom
  have hcheck : checkAs true (twoPool kernels) outbidding outbiddingTip = .ok () := by
    rw [checkAs, if_pos rfl]
    exact check_outbidding h hroom
  have hne : (twoPool kernels).remove cheap.hash ≠ twoPool kernels := by
    intro he
    rw [he] at hafter
    omega
  refine And.intro hindexed (And.intro ?_ hne)
  · apply Fails.full 5600 hcheck hfee
    · apply Evicts.evict cheap.hash cheapEntry _ hheld _ hrates (.done _)
      · rw [htotal]
        show maxPoolWeight < 47 + 3 * kernels + 28
        omega
      · intro other d hd
        rcases (entries_twoPool h).mp hd with ⟨-, rfl⟩ | ⟨-, rfl⟩
        · exact hrates.le.trans hheavy
        · exact Nat.le_refl _
    · rw [hafter]
      show maxPoolWeight < 22 + 3 * kernels + 28
      omega
    · intro other d hd
      obtain ⟨hne, hd⟩ := getElem?_remove.mp hd
      rcases (entries_twoPool h).mp hd with ⟨-, rfl⟩ | ⟨he, -⟩
      · exact hheavy
      · exact absurd he.symm hne

omit [Primitives] in
/-- A refused transaction evicts the cheap one: it pays more, and the rest leaves no room. -/
theorem refusal_evicts :
    letI := mixingShort
    ∃ pool pool' : Mempool, pool.Indexed ∧ Fails true outbidding outbiddingTip pool pool' ∧
      pool' ≠ pool := by
  obtain ⟨kernels, hkernels⟩ : ∃ n : Nat, n = 333317 := ⟨_, rfl⟩
  exact ⟨_, _, fails_outbidding kernels hkernels⟩

end Outbid

end Mempool

end Midwimble
