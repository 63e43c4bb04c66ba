import Midwimble.ProofOfWork.Batches
import Midwimble.ProofOfWork.Lanes

namespace Midwimble
set_option autoImplicit true

theorem flatten_chunksOf {l : List α} (hs : 0 < size) (hfuel : l.length ≤ fuel) :
    (chunksOf size fuel l).flatten = l := by
  induction fuel generalizing l with
  | zero => exact (List.length_eq_zero_iff.mp (Nat.le_zero.mp hfuel)).symm
  | succ fuel ih =>
    rw [chunksOf]
    split
    next hempty => exact (List.isEmpty_iff.mp hempty).symm
    next hne =>
      have hlen : 0 < l.length := List.length_pos_iff.mpr fun e => hne (by simp [e])
      rw [List.flatten_cons, ih (by rw [List.length_drop]; omega), List.take_append_drop]

theorem mem_of_mem_chunksOf {l : List α} (hg : group ∈ chunksOf size fuel l) (ha : a ∈ group) :
    a ∈ l := by
  induction fuel generalizing l with
  | zero => exact absurd hg List.not_mem_nil
  | succ fuel ih =>
    rw [chunksOf] at hg
    split at hg
    · exact absurd hg List.not_mem_nil
    · cases List.mem_cons.mp hg with
      | inl heq => exact List.mem_of_mem_take (heq ▸ ha)
      | inr hrest => exact List.mem_of_mem_drop (ih hrest)

variable [Primitives]

theorem holds_chain {j : PowJob} (h : j.algo = .blake3Chain) :
    j.holds = (iterateScalar (powSeed j.miningHash j.nonce) == j.finalHash) := by
  simp only [PowJob.holds, h, createExtensionWith, createExtension, iterateScalar, powSeed]

/-- Places of a piece, each that of a BLAKE3-chain job. -/
def ChainPlaces (chunk : List PowJob) (idx : List Nat) : Prop :=
  ∀ i ∈ idx, ∃ j, chunk[i]? = some j ∧ j.algo = .blake3Chain

/-- A place of a piece whose job does not hold. -/
def Fails (chunk : List PowJob) (i : Nat) : Prop := ∃ j, chunk[i]? = some j ∧ j.holds = false

theorem badLane_eq (hb : BlakeOneBlock) {chunk : List PowJob} (hidx : ChainPlaces chunk idx) :
    badLane level chunk idx = idx.find? fun i => chunk[i]?.any fun j => !j.holds := by
  unfold badLane
  simp only [verifyPowBatch_eq hb]
  induction idx with
  | nil => rfl
  | cons i idx ih =>
    obtain ⟨j, hj, halgo⟩ := hidx i List.mem_cons_self
    have hrest := ih fun k hk => hidx k (List.mem_cons_of_mem _ hk)
    have hholds : (chunk[i]?.any fun j => decide
        (iterateScalar (powSeed j.miningHash j.nonce) ≠ j.finalHash)) =
          chunk[i]?.any fun j => !j.holds := by
      rw [hj, Option.any_some, Option.any_some, holds_chain halgo, Bool.eq_iff_iff,
        decide_eq_true_iff, Bool.not_eq_true', beq_eq_false_iff_ne]
    rw [List.filterMap_cons_some hj, List.map_cons, List.map_cons, List.zip_cons_cons,
      List.find?_cons, List.find?_cons]
    have hhead : (chunk[i]?.any fun j' => decide
        (iterateScalar (powSeed j.miningHash j.nonce) ≠ j'.finalHash)) =
          chunk[i]?.any fun j => !j.holds := by
      rw [← hholds, hj, Option.any_some, Option.any_some]
    simp only [hhead]
    cases chunk[i]?.any fun j => !j.holds with
    | true => rfl
    | false => exact hrest

theorem any_not_holds {chunk : List PowJob} :
    (chunk[i]?.any fun j => !j.holds) = true ↔ Fails chunk i := by
  unfold Fails
  cases chunk[i]? <;> simp

theorem not_fails_iff {chunk : List PowJob} {j : PowJob} (h : chunk[i]? = some j) :
    ¬ Fails chunk i ↔ j.holds := by
  simp [Fails, h]

theorem chain_spec (hb : BlakeOneBlock) (level : SimdLevel) (any : FindMapAny)
    {chunk : List PowJob} (hidx : ChainPlaces chunk idx) :
    (∀ i, any.find (badLane level chunk) (chunksOf level.lanes idx.length idx) = some i →
      Fails chunk i) ∧
      (any.find (badLane level chunk) (chunksOf level.lanes idx.length idx) = none ↔
        ∀ i ∈ idx, ¬ Fails chunk i) := by
  have hlanes : 0 < level.lanes := by cases level <;> decide
  have hgroups : ∀ group ∈ chunksOf level.lanes idx.length idx,
      badLane level chunk group = group.find? fun i => chunk[i]?.any fun j => !j.holds :=
    fun group hg => badLane_eq hb fun i hi => hidx i (mem_of_mem_chunksOf hg hi)
  constructor
  · intro i hi
    obtain ⟨group, hg, hfound⟩ := any.found hi
    rw [hgroups group hg] at hfound
    rw [List.find?_eq_some_iff_append] at hfound
    exact any_not_holds.mp hfound.1
  · rw [any.none_iff]
    constructor
    · intro hnone i hi
      rw [← flatten_chunksOf hlanes (Nat.le_refl idx.length)] at hi
      obtain ⟨group, hg, hmem⟩ := List.mem_flatten.mp hi
      have hgroup := hnone group hg
      rw [hgroups group hg, List.find?_eq_none] at hgroup
      exact fun hfails => hgroup i hmem (any_not_holds.mpr hfails)
    · intro hgood group hg
      rw [hgroups group hg, List.find?_eq_none]
      exact fun i hi hbad =>
        hgood i (mem_of_mem_chunksOf hg hi) (any_not_holds.mp hbad)

theorem walk_spec (any : FindMapAny) (chunk : List PowJob) (idx : List Nat) :
    (∀ i, any.find (badWalk chunk) idx = some i → Fails chunk i) ∧
      (any.find (badWalk chunk) idx = none ↔ ∀ i ∈ idx, ¬ Fails chunk i) := by
  have hbad : ∀ i k, badWalk chunk i = some k → k = i ∧ Fails chunk i := by
    intro i k h
    unfold badWalk at h
    split at h
    next hany => exact ⟨(Option.some.inj h).symm, any_not_holds.mp hany⟩
    · cases h
  constructor
  · intro i hi
    obtain ⟨k, -, hk⟩ := any.found hi
    obtain ⟨rfl, hfails⟩ := hbad k i hk
    exact hfails
  · rw [any.none_iff]
    apply forall_congr'
    intro i
    apply imp_congr_right
    intro _
    rw [← any_not_holds, badWalk]
    split <;> simp_all

/-- A piece's check reports a failing job, and none only when every job holds. -/
theorem badIn_spec (hb : BlakeOneBlock) (level : SimdLevel) (any : FindMapAny)
    (chunk : List PowJob) :
    (∀ i, badIn level any chunk = some i → Fails chunk i) ∧
      (badIn level any chunk = none ↔ ∀ j ∈ chunk, j.holds) := by
  have hchain : ChainPlaces chunk ((List.range chunk.length).filter fun i =>
      chunk[i]?.any fun j => j.algo = .blake3Chain) := by
    intro i hi
    obtain ⟨-, hany⟩ := List.mem_filter.mp hi
    cases hj : chunk[i]? with
    | none => simp [hj] at hany
    | some j => exact ⟨j, rfl, by simpa [hj] using hany⟩
  obtain ⟨hfound, hnone⟩ := chain_spec hb level any hchain
  unfold badIn
  rw [List.partition_eq_filter_filter]
  obtain ⟨hfound', hnone'⟩ := walk_spec any chunk ((List.range chunk.length).filter
    (not ∘ fun i => chunk[i]?.any fun j => j.algo = .blake3Chain))
  constructor
  · intro i hi
    cases Option.or_eq_some_iff.mp hi with
    | inl hleft => exact hfound i hleft
    | inr hright => exact hfound' i hright.2
  · simp only [Option.or_eq_none_iff, hnone, hnone']
    constructor
    · rintro ⟨hleft, hright⟩ j hj
      obtain ⟨i, hi, rfl⟩ := List.mem_iff_getElem.mp hj
      have hget : chunk[i]? = some chunk[i] := List.getElem?_eq_getElem hi
      rw [← not_fails_iff hget]
      cases hp : chunk[i]?.any fun j => decide (j.algo = .blake3Chain) with
      | true => exact hleft i (List.mem_filter.mpr ⟨List.mem_range.mpr hi, hp⟩)
      | false =>
        exact hright i (List.mem_filter.mpr ⟨List.mem_range.mpr hi, by
          rw [Function.comp_apply, hp]; rfl⟩)
    · intro hall
      have hgood : ∀ i, ¬ Fails chunk i := by
        rintro i ⟨j, hj, hfails⟩
        rw [hall j (List.mem_of_getElem? hj)] at hfails
        cases hfails
      exact ⟨fun i _ => hgood i, fun i _ => hgood i⟩

/-- The pieces from the `p`th on: a job blamed fails, and all pass only when every job holds. -/
theorem checkPiecesBy_spec (hb : BlakeOneBlock) (level : SimdLevel) (any : Nat → FindMapAny)
    (proceed : Nat → Nat → Bool) (hp : 0 < piece) (all rest : List PowJob) (fuel p : Nat)
    (hrest : all.drop (p * piece) = rest) (hfuel : rest.length ≤ fuel) :
    (checkPiecesBy level any piece proceed fuel p rest = .ok () → ∀ j ∈ rest, j.holds) ∧
      (∀ i, checkPiecesBy level any piece proceed fuel p rest = .error (.bad (1 + i)) →
        Fails all i) ∧
      checkPiecesBy level any piece proceed fuel p rest ≠ .error (.bad 0) := by
  induction fuel generalizing p rest with
  | zero =>
    obtain rfl := List.length_eq_zero_iff.mp (Nat.le_zero.mp hfuel)
    simp [checkPiecesBy]
  | succ fuel ih =>
    rw [checkPiecesBy]
    split
    next hempty => simp [List.isEmpty_iff.mp hempty]
    next hne =>
      simp only
      split
      · simp
      have hlen : 0 < rest.length := List.length_pos_iff.mpr fun e => hne (by simp [e])
      obtain ⟨hblamed, hpassed⟩ := badIn_spec hb level (any p) (rest.take piece)
      cases hbad : badIn level (any p) (rest.take piece) with
      | some k =>
        refine ⟨by simp, fun i hi => ?_, by simp [Nat.add_assoc, Nat.add_comm 1]⟩
        have hik : i = p * piece + k := by
          have := PowCheck.bad.inj (Except.error.inj hi)
          omega
        obtain ⟨j, hj, hfails⟩ := hblamed k hbad
        refine ⟨j, ?_, hfails⟩
        have hk : k < piece := by
          have := (List.getElem?_eq_some_iff.mp hj).1
          rw [List.length_take] at this
          omega
        rw [List.getElem?_take_of_lt hk, ← hrest, List.getElem?_drop] at hj
        rw [hik]
        exact hj
      | none =>
        have hnext : all.drop ((p + 1) * piece) = rest.drop piece := by
          rw [← hrest, List.drop_drop, Nat.succ_mul]
        obtain ⟨hok, hblame, hzero⟩ := ih (rest.drop piece) (p + 1) hnext
          (by rw [List.length_drop]; omega)
        refine ⟨fun h j hj => ?_, hblame, hzero⟩
        rw [← List.take_append_drop piece rest, List.mem_append] at hj
        cases hj with
        | inl htake => exact hpassed.mp hbad j htake
        | inr hdrop => exact hok h j hdrop

theorem checkPiecesBy_eq_ok (hb : BlakeOneBlock) (level : SimdLevel) (any : Nat → FindMapAny)
    (fuel p : Nat) (rest : List PowJob) (hall : ∀ j ∈ rest, j.holds) :
    checkPiecesBy level any piece (fun _ _ => true) fuel p rest = .ok () := by
  induction fuel generalizing p rest with
  | zero => rfl
  | succ fuel ih =>
    rw [checkPiecesBy]
    split
    · rfl
    · have hnone := (badIn_spec hb level (any p) (rest.take piece)).2.mpr fun j hj =>
        hall j (List.mem_of_mem_take hj)
      simp only [Bool.not_true, Bool.false_eq_true, if_false, hnone]
      exact ih _ _ fun j hj => hall j (List.mem_of_mem_drop hj)

/-- A check that passes leaves no job failing, and a job it blames fails. -/
theorem checkPowJobsBy_spec (hb : BlakeOneBlock) (level : SimdLevel) (threads : Nat)
    (any : Nat → FindMapAny) (proceed : Nat → Nat → Bool) (jobs : List PowJob) :
    (checkPowJobsBy level threads any proceed jobs = .ok () → ∀ j ∈ jobs, j.holds) ∧
      ∀ i, checkPowJobsBy level threads any proceed jobs = .error (.bad i) →
        ∃ j, jobs[i]? = some j ∧ j.holds = false := by
  cases jobs with
  | nil => simp [checkPowJobsBy]
  | cons first rest =>
    simp only [checkPowJobsBy]
    split
    · simp
    split
    next hfirst =>
      refine ⟨by simp, fun i hi => ?_⟩
      obtain rfl := PowCheck.bad.inj (Except.error.inj hi)
      exact ⟨first, rfl, by simpa using hfirst⟩
    next hfirst =>
      have hpos : 0 < max (max level.lanes 1 * threads * 4) 128 := by omega
      obtain ⟨hok, hblame, hzero⟩ := checkPiecesBy_spec hb level any proceed hpos rest rest
        rest.length 0 (by simp) (Nat.le_refl _)
      constructor
      · intro h j hj
        cases List.mem_cons.mp hj with
        | inl heq => simpa [heq] using hfirst
        | inr hmem => exact hok h j hmem
      · intro i hi
        cases i with
        | zero => exact absurd hi hzero
        | succ i =>
          rw [Nat.add_comm] at hi
          obtain ⟨j, hj, hfails⟩ := hblame i hi
          exact ⟨j, hj, hfails⟩

theorem checkPowJobsBy_ok_iff (hb : BlakeOneBlock) {level : SimdLevel} {threads : Nat}
    {any : Nat → FindMapAny} {jobs : List PowJob} :
    checkPowJobsBy level threads any (fun _ _ => true) jobs = .ok () ↔ ∀ j ∈ jobs, j.holds := by
  refine ⟨(checkPowJobsBy_spec hb level threads any _ jobs).1, fun hall => ?_⟩
  cases jobs with
  | nil => rfl
  | cons first rest =>
    have hfirst := hall first List.mem_cons_self
    simp only [checkPowJobsBy, hfirst, Bool.not_true, Bool.false_eq_true, if_false]
    exact checkPiecesBy_eq_ok hb level any _ _ rest fun j hj =>
      hall j (List.mem_cons_of_mem _ hj)

theorem checkPiecesBy_ne_abandoned (level : SimdLevel) (any : Nat → FindMapAny)
    (fuel p : Nat) (rest : List PowJob) :
    checkPiecesBy level any piece (fun _ _ => true) fuel p rest ≠ .error .abandoned := by
  induction fuel generalizing p rest with
  | zero => nofun
  | succ fuel ih =>
    rw [checkPiecesBy]
    split
    · nofun
    · simp only [Bool.not_true, Bool.false_eq_true, if_false]
      split
      · nofun
      · exact ih _ _

theorem checkPowJobsBy_ne_abandoned (level : SimdLevel) (threads : Nat) (any : Nat → FindMapAny)
    (jobs : List PowJob) :
    checkPowJobsBy level threads any (fun _ _ => true) jobs ≠ .error .abandoned := by
  cases jobs with
  | nil => nofun
  | cons first rest =>
    simp only [checkPowJobsBy, Bool.not_true, Bool.false_eq_true, if_false]
    split
    · nofun
    · exact checkPiecesBy_ne_abandoned _ _ _ _ _

/-- Batched checks of proofs of work equal checks one at a time, on any lanes and threads: a
batch of seeds gives each its scalar chain's hash, in order; the check of mixed jobs passes
only when every job holds, and does when it may proceed; and the job it blames fails. -/
theorem batched_pow_checks_each (hb : BlakeOneBlock) :
    (∀ level seeds, verifyPowBatch level seeds = seeds.map iterateScalar) ∧
    (∀ level threads any jobs,
      checkPowJobsBy level threads any (fun _ _ => true) jobs = .ok () ↔ ∀ j ∈ jobs, j.holds) ∧
    (∀ level threads any proceed jobs, checkPowJobsBy level threads any proceed jobs = .ok () →
      ∀ j ∈ jobs, j.holds) ∧
    (∀ level threads any proceed jobs i,
      checkPowJobsBy level threads any proceed jobs = .error (.bad i) →
        ∃ j, jobs[i]? = some j ∧ j.holds = false) :=
  ⟨fun level seeds => verifyPowBatch_eq hb level seeds,
    fun _ _ _ _ => checkPowJobsBy_ok_iff hb,
    fun level threads any proceed jobs => (checkPowJobsBy_spec hb level threads any proceed jobs).1,
    fun level threads any proceed jobs => (checkPowJobsBy_spec hb level threads any proceed jobs).2⟩

/-- BLAKE3 on single blocks of thirty-two bytes, and words and proofs as in `Primitives.words`. -/
@[reducible] def Primitives.oneBlock : Primitives :=
  { Primitives.words with
    blake3 := fun data =>
      if data.length = 32 then wordsToBytes (scalarOps.hashBlock (bytesToWords (wordOf data)))
      else Primitives.words.blake3 data }

omit [Primitives] in
theorem oneBlock_blake : letI := Primitives.oneBlock
    BlakeOneBlock := by
  letI := Primitives.oneBlock
  intro x
  have hx : wordOf x.toBytes = x := by
    have h := wordOf_toBytes x []
    rwa [List.append_nil] at h
  change (if x.toBytes.length = 32 then _ else _) = _
  rw [if_pos (length_toBytes x), hx]

/-- A job that its own work solves. -/
def solvedJob (algo : PowAlgo) (nonce : Nat) : PowJob :=
  ⟨algo, 0, nonce, (createExtensionWith algo 0 nonce).finalHash⟩

theorem solvedJob_holds (algo : PowAlgo) (nonce : Nat) : (solvedJob algo nonce).holds = true := by
  simp [PowJob.holds, solvedJob]

/-- A job that claims a hash one off. -/
def forgedJob (algo : PowAlgo) (nonce : Nat) : PowJob :=
  { solvedJob algo nonce with finalHash := (solvedJob algo nonce).finalHash + 1 }

theorem forgedJob_fails (algo : PowAlgo) (nonce : Nat) : (forgedJob algo nonce).holds = false := by
  simp [PowJob.holds, forgedJob, solvedJob]

/-- Chains and walks; the forged chain is alone in the last group of lanes. -/
def mixedJobs : List PowJob :=
  solvedJob .walk 0 :: (List.range 8).map (solvedJob .blake3Chain) ++
    [solvedJob .walk 1, forgedJob .blake3Chain 8]

theorem mixedJobs_fails {i : Nat} {j : PowJob} (hj : mixedJobs[i]? = some j)
    (hfails : j.holds = false) : i = 10 := by
  have hlt : i < 11 := (List.getElem?_eq_some_iff.mp hj).1
  by_contra hne
  have hsolved : ∀ i < 10, ∀ j, mixedJobs[i]? = some j → j.holds = true := by
    intro i hi j hj
    have hmem : j ∈ mixedJobs.take 10 := by
      rw [← List.getElem?_take_of_lt hi] at hj
      exact List.mem_of_getElem? hj
    have hshape : mixedJobs.take 10 =
        solvedJob .walk 0 :: (List.range 8).map (solvedJob .blake3Chain) ++ [solvedJob .walk 1] := rfl
    rw [hshape, List.cons_append, List.mem_cons, List.mem_append, List.mem_map,
      List.mem_singleton] at hmem
    obtain rfl | ⟨n, -, rfl⟩ | rfl := hmem <;> exact solvedJob_holds _ _
  rw [hsolved i (by omega) j hj] at hfails
  cases hfails

omit [Primitives] in
/-- The forged job is the one blamed; without it the rest pass. -/
theorem batched_pow_checks_mixed : letI := Primitives.oneBlock
    checkPowJobsBy .avx2_8 4 (fun _ => .first) (fun _ _ => true) mixedJobs = .error (.bad 10) ∧
      checkPowJobsBy .avx2_8 4 (fun _ => .first) (fun _ _ => true) (mixedJobs.take 10) = .ok () ∧
        verifyPowBatch .avx2_8 ((List.range 9).map (BitVec.ofNat 256)) =
          ((List.range 9).map (BitVec.ofNat 256)).map iterateScalar := by
  let := Primitives.oneBlock
  obtain ⟨hbatch, hok, -, hbad⟩ := batched_pow_checks_each oneBlock_blake
  refine ⟨?_, (hok .avx2_8 4 (fun _ => .first) _).mpr ?_, hbatch .avx2_8 _⟩
  · cases hcheck : checkPowJobsBy .avx2_8 4 (fun _ => .first) (fun _ _ => true) mixedJobs with
    | ok u =>
      have hall := (hok .avx2_8 4 (fun _ => .first) mixedJobs).mp hcheck
      have hforged := hall (forgedJob .blake3Chain 8)
        (List.mem_append_right _ (List.mem_cons_of_mem _ List.mem_cons_self))
      rw [forgedJob_fails] at hforged
      cases hforged
    | error e =>
      cases e with
      | bad i =>
        obtain ⟨j, hj, hfails⟩ := hbad .avx2_8 4 (fun _ => .first) _ mixedJobs i hcheck
        rw [mixedJobs_fails hj hfails]
      | abandoned => exact absurd hcheck (checkPowJobsBy_ne_abandoned _ _ _ _)
  · intro j hj
    obtain ⟨i, hi⟩ := List.mem_iff_getElem?.mp hj
    have hlt : i < 10 := (List.getElem?_eq_some_iff.mp hi).1
    rw [List.getElem?_take_of_lt hlt] at hi
    by_contra hfails
    have hten := mixedJobs_fails hi (Bool.not_eq_true _ ▸ hfails)
    omega

end Midwimble
