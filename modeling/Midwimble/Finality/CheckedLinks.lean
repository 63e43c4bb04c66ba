import Midwimble.Core.Anchor
import Midwimble.Identity.Preimages
import Midwimble.ProofOfWork.Batches

namespace Midwimble
open Fallible
set_option autoImplicit true

/-- What the key of a checked proof of work hashes. -/
def PowJob.checkedPreimage (j : PowJob) : Bytes :=
  domainPreimage (Bytes.ascii (linkDomain j.algo))
    [j.miningHash.toBytes, Bytes.le 8 j.nonce, j.finalHash.toBytes]

theorem PowJob.checkedParts_short (j : PowJob) :
    ∀ p ∈ Bytes.ascii (linkDomain j.algo) ::
        [j.miningHash.toBytes, Bytes.le 8 j.nonce, j.finalHash.toBytes], p.length < 2 ^ 64 := by
  simp only [List.mem_cons, List.not_mem_nil, or_false]
  rintro p (rfl | rfl | rfl | rfl)
  · cases j.algo <;> decide
  all_goals simp

theorem PowJob.checkedPreimage_inj {j k : PowJob} (hj : j.nonce < 2 ^ 64)
    (hk : k.nonce < 2 ^ 64) (h : j.checkedPreimage = k.checkedPreimage) : j = k := by
  obtain ⟨hdomain, hparts⟩ := domainPreimage_inj j.checkedParts_short k.checkedParts_short h
  simp only [List.cons.injEq, and_true] at hparts
  obtain ⟨hmining, hnonce, hfinal⟩ := hparts
  have halgo : j.algo = k.algo := by
    cases hja : j.algo <;> cases hka : k.algo <;> rw [hja, hka] at hdomain <;>
      first | rfl | exact absurd hdomain (by decide)
  cases j
  cases k
  simp only [PowJob.mk.injEq]
  exact ⟨halgo, toBytes_inj hmining, Bytes.le_inj hj hk hnonce, toBytes_inj hfinal⟩

variable [Primitives]

def PowJob.key (j : PowJob) : Bytes32 := blake3 j.checkedPreimage

namespace MidstateInclusion

/-- The proof of work of each header of a run, the `i`th on `prev`. -/
def linkJobs (midstateHeight : Nat) : (i : Nat) → (prev : Bytes32) → List HeaderLink →
    List PowJob
  | _, _, [] => []
  | i, prev, link :: rest =>
    ⟨midstatePowAlgoAt (satAdd64 midstateHeight i), linkMiningHash prev link, link.nonce,
      link.finalHash⟩ :: linkJobs midstateHeight (i + 1) link.finalHash rest

/-- Every proof of work of the evidence. -/
def powJobs (m : MidstateInclusion) : List PowJob :=
  linkJobs m.midstateHeight 0 m.prevHeaderHash m.links

theorem nonce_of_mem_linkJobs (h : j ∈ linkJobs first i prev ls) :
    ∃ l ∈ ls, j.nonce = l.nonce := by
  induction ls generalizing i prev with
  | nil => simp [linkJobs] at h
  | cons link rest ih =>
    cases List.mem_cons.mp h with
    | inl e => exact ⟨link, List.mem_cons_self, by rw [e]⟩
    | inr hrest =>
      obtain ⟨l, hl, hn⟩ := ih hrest
      exact ⟨l, List.mem_cons_of_mem _ hl, hn⟩

/-- The walk over the headers gives each one's key, and the job of each that is not known. -/
theorem gather_eq_ok :
    (∃ jobs, gather known first i prev ls = .ok (keys, jobs) ∧
        jobs.map Prod.fst = js) ↔
      (∀ l ∈ ls, l.finalHash < l.target) ∧
        keys = (linkJobs first i prev ls).map PowJob.key ∧
        js = (linkJobs first i prev ls).filter fun j => !known j.key := by
  induction ls generalizing i prev keys js with
  | nil =>
    simp only [gather, linkJobs, Except.ok.injEq, Prod.mk.injEq]
    constructor
    · rintro ⟨jobs, ⟨rfl, rfl⟩, rfl⟩
      simp
    · rintro ⟨-, rfl, rfl⟩
      exact ⟨[], ⟨rfl, rfl⟩, rfl⟩
  | cons link rest ih =>
    let job : PowJob := ⟨midstatePowAlgoAt (satAdd64 first i),
      linkMiningHash prev link, link.nonce, link.finalHash⟩
    have hkey : linkKey (linkMiningHash prev link) link
        (midstatePowAlgoAt (satAdd64 first i)) = job.key := rfl
    have hjobs : linkJobs first i prev (link :: rest) =
        job :: linkJobs first (i + 1) link.finalHash rest := rfl
    simp only [gather, check_bind_eq_ok, bailIf_eq_ok, ge_iff_le, BitVec.not_le]
    simp only [bind_eq_ok, Except.ok.injEq, Prod.mk.injEq, Prod.exists, hkey, hjobs,
      List.mem_cons, forall_eq_or_imp, List.map_cons]
    constructor
    · rintro ⟨jobs, ⟨htarget, restKeys, restJobs, hrest, rfl, rfl⟩, rfl⟩
      obtain ⟨htargets, rfl, hspared⟩ := ih.mp ⟨restJobs, hrest, rfl⟩
      refine ⟨⟨htarget, htargets⟩, rfl, ?_⟩
      cases hk : known job.key <;> simp [hk, hspared, job]
    · rintro ⟨⟨htarget, htargets⟩, rfl, rfl⟩
      obtain ⟨restJobs, hrest, hspared⟩ := ih.mpr ⟨htargets, rfl, rfl⟩
      refine ⟨_, ⟨htarget, _, _, hrest, rfl, rfl⟩, ?_⟩
      cases hk : known job.key <;> simp [hk, hspared, job]

theorem verifyProofsWith_eq_ok {m : MidstateInclusion} :
    m.verifyProofsWith payload known = .ok keys ↔
      m.foldedMidstate payload = m.block.postTxMidstate ∧
        (∀ l ∈ m.links, l.finalHash < l.target) ∧ keys = m.powJobs.map PowJob.key ∧
        ∀ j ∈ m.powJobs, known j.key = false → j.holds := by
  simp only [verifyProofsWith, check_bind_eq_ok, bailIf_eq_ok, not_not]
  simp only [bind_eq_ok, Prod.exists]
  apply and_congr_right
  intro _
  constructor
  · rintro ⟨ks, jobs, hgather, hcheck⟩
    obtain ⟨htargets, hkeys, hjobs⟩ := gather_eq_ok.mp ⟨jobs, hgather, rfl⟩
    split at hcheck
    next hpow =>
      obtain rfl := Except.ok.inj hcheck
      refine ⟨htargets, hkeys, fun j hj hk => checkPowJobs_eq_ok_iff.mp hpow j ?_⟩
      rw [hjobs, List.mem_filter]
      exact ⟨hj, by simp [hk]⟩
    · cases hcheck
    · cases hcheck
  · rintro ⟨htargets, hkeys, hholds⟩
    obtain ⟨jobs, hgather, hjobs⟩ := gather_eq_ok.mpr ⟨htargets, hkeys, rfl⟩
    have hpow : checkPowJobs (jobs.map Prod.fst) = .ok () := by
      apply checkPowJobs_eq_ok
      intro j hj
      rw [hjobs, List.mem_filter] at hj
      exact hholds j hj.1 (by simpa using hj.2)
    exact ⟨keys, jobs, hgather, by rw [hpow]⟩

end MidstateInclusion

namespace EvidencedRecord

/-- Every proof of work of the record's evidence. -/
def powJobs (r : EvidencedRecord) : List PowJob :=
  (r.evidence.map MidstateInclusion.powJobs).getD []

/-- The headers' fields fit their types. -/
def Fits (r : EvidencedRecord) : Prop := ∀ m ∈ r.evidence, ∀ l ∈ m.links, l.Fits

theorem nonce_lt {r : EvidencedRecord} (hf : r.Fits) (hj : j ∈ r.powJobs) :
    j.nonce < 2 ^ 64 := by
  cases he : r.evidence with
  | none => simp [powJobs, he] at hj
  | some m =>
    have hm : j ∈ m.powJobs := by simpa [powJobs, he] using hj
    obtain ⟨l, hl, hn⟩ := MidstateInclusion.nonce_of_mem_linkJobs hm
    rw [hn]
    exact (hf m he l hl).nonce

theorem verifyStandaloneWith_eq_ok {r : EvidencedRecord} :
    r.verifyStandaloneWith depth minWork known = .ok keys ↔
      hexEncode r.checkpoint.id = r.checkpointId ∧ (∃ m payload, r.evidence = some m ∧
        r.payload m.kind = .ok payload ∧ m.checkPolicy depth minWork = .ok () ∧
        m.foldedMidstate payload = m.block.postTxMidstate ∧
        ∀ l ∈ m.links, l.finalHash < l.target) ∧
      keys = r.powJobs.map PowJob.key ∧ ∀ j ∈ r.powJobs, known j.key = false → j.holds := by
  simp only [verifyStandaloneWith, check_bind_eq_ok, bailIf_eq_ok, not_not]
  simp only [bind_eq_ok, orBail_eq_ok, MidstateInclusion.verifyProofsWith_eq_ok]
  apply and_congr_right
  intro _
  constructor
  · rintro ⟨m, he, payload, hp, ⟨⟩, hpolicy, hfold, htargets, hkeys, hholds⟩
    have hjobs : r.powJobs = m.powJobs := by simp [powJobs, he]
    rw [hjobs]
    exact ⟨⟨m, payload, he, hp, hpolicy, hfold, htargets⟩, hkeys, hholds⟩
  · rintro ⟨⟨m, payload, he, hp, hpolicy, hfold, htargets⟩, hkeys, hholds⟩
    have hjobs : r.powJobs = m.powJobs := by simp [powJobs, he]
    rw [hjobs] at hkeys hholds
    exact ⟨m, he, payload, hp, (), hpolicy, hfold, htargets, hkeys, hholds⟩

theorem verifyStandaloneWith_known {r : EvidencedRecord}
    (hknown : ∀ j ∈ r.powJobs, known j.key = true → j.holds) :
    (∃ keys, r.verifyStandaloneWith depth minWork known = .ok keys) ↔
      r.verifyStandalone depth minWork = .ok () := by
  have hfull : r.verifyStandalone depth minWork = .ok () ↔
      ∃ keys, (r.verifyStandaloneWith depth minWork fun _ => false) = .ok keys := by
    simp [verifyStandalone, bind_eq_ok]
  rw [hfull]
  simp only [verifyStandaloneWith_eq_ok]
  constructor
  · rintro ⟨keys, hid, hcheap, hkeys, hholds⟩
    refine ⟨keys, hid, hcheap, hkeys, fun j hj _ => ?_⟩
    cases hk : known j.key with
    | false => exact hholds j hj hk
    | true => exact hknown j hj hk
  · rintro ⟨keys, hid, hcheap, hkeys, hholds⟩
    exact ⟨keys, hid, hcheap, hkeys, fun j hj _ => hholds j hj trivial⟩

end EvidencedRecord

namespace CheckedLinks

/-- Every key in the cache is that of a proof of work that holds, one of those hashed to `S`. -/
def Proven (c : CheckedLinks) (S : Set Bytes) : Prop :=
  ∀ key ∈ c.keys, ∃ j : PowJob, j.key = key ∧ j.nonce < 2 ^ 64 ∧ j.checkedPreimage ∈ S ∧ j.holds

omit [Primitives] in
theorem keys_evict_subset {ks : Finset Bytes32} {old : List Bytes32} :
    (evict ks old).keys ⊆ ks := by
  induction old generalizing ks with
  | nil => simp [evict]
  | cons old order ih =>
    simp only [evict]
    split
    · exact ih.trans (Finset.erase_subset _ _)
    · exact Finset.Subset.refl _

omit [Primitives] in
theorem mem_keys_insert {c : CheckedLinks} (h : key ∈ (c.insert new).keys) :
    key = new ∨ key ∈ c.keys := by
  unfold CheckedLinks.insert at h
  split at h
  · exact .inr h
  · exact Finset.mem_insert.mp h

omit [Primitives] in
theorem mem_keys_insertAll {c : CheckedLinks} (h : key ∈ (c.insertAll ks).keys) :
    key ∈ ks ∨ key ∈ c.keys := by
  have hfold : ∀ (c : CheckedLinks), key ∈ (ks.foldl insert c).keys →
      key ∈ ks ∨ key ∈ c.keys := by
    clear h
    induction ks with
    | nil => exact fun c hc => .inr hc
    | cons new ks ih =>
      intro c hc
      cases ih (c.insert new) hc with
      | inl hks => exact .inl (List.mem_cons_of_mem _ hks)
      | inr hins =>
        cases mem_keys_insert hins with
        | inl e => exact .inl (e ▸ List.mem_cons_self)
        | inr hold => exact .inr hold
  exact hfold c (keys_evict_subset h)

theorem Proven.insertAll {c : CheckedLinks} (hc : c.Proven S) {jobs : List PowJob}
    (hjobs : ∀ j ∈ jobs, j.nonce < 2 ^ 64 ∧ j.checkedPreimage ∈ S ∧ j.holds) :
    (c.insertAll (jobs.map PowJob.key)).Proven S := by
  intro key hkey
  cases mem_keys_insertAll hkey with
  | inl hnew =>
    obtain ⟨j, hj, rfl⟩ := List.mem_map.mp hnew
    exact ⟨j, rfl, hjobs j hj⟩
  | inr hold => exact hc key hold

theorem Proven.holds {c : CheckedLinks} {j : PowJob} (hc : c.Proven S) (hinj : Set.InjOn blake3 S)
    (hj : j.nonce < 2 ^ 64) (hS : j.checkedPreimage ∈ S) (h : c.contains j.key = true) :
    j.holds := by
  obtain ⟨k, hkey, hk, hkS, hholds⟩ := hc j.key (of_decide_eq_true h)
  rw [PowJob.checkedPreimage_inj hj hk (hinj hS hkS hkey.symm)]
  exact hholds

/-- The cache after a record was verified: what failed leaves it as it was. -/
def next (c : CheckedLinks) (r : EvidencedRecord × AnchorConfig) : CheckedLinks :=
  match verifyEvidence r.1 r.2 c with
  | .ok c' => c'
  | .error _ => c

/-- The cache after a history of verifications. -/
def verifyAll (c : CheckedLinks) (history : List (EvidencedRecord × AnchorConfig)) :
    CheckedLinks :=
  history.foldl next c

theorem Proven.next {c : CheckedLinks} (hc : c.Proven S) (hinj : Set.InjOn blake3 S)
    {r : EvidencedRecord × AnchorConfig} (hf : r.1.Fits)
    (hS : ∀ j ∈ r.1.powJobs, j.checkedPreimage ∈ S) : (c.next r).Proven S := by
  unfold CheckedLinks.next verifyEvidence
  cases hv : r.1.verifyStandaloneWith r.2.anchorDepth r.2.minWork c.contains with
  | error e => exact hc
  | ok keys =>
    obtain ⟨-, -, rfl, hholds⟩ := EvidencedRecord.verifyStandaloneWith_eq_ok.mp hv
    apply hc.insertAll
    intro j hj
    have hn := EvidencedRecord.nonce_lt hf hj
    refine ⟨hn, hS j hj, ?_⟩
    cases hk : c.contains j.key with
    | false => exact hholds j hj hk
    | true => exact hc.holds hinj hn (hS j hj) hk

theorem Proven.verifyAll {c : CheckedLinks} (hc : c.Proven S) (hinj : Set.InjOn blake3 S)
    {history : List (EvidencedRecord × AnchorConfig)} (hf : ∀ r ∈ history, r.1.Fits)
    (hS : ∀ r ∈ history, ∀ j ∈ r.1.powJobs, j.checkedPreimage ∈ S) :
    (c.verifyAll history).Proven S := by
  induction history generalizing c with
  | nil => exact hc
  | cons r history ih =>
    apply ih (hc.next hinj (hf r List.mem_cons_self) (hS r List.mem_cons_self))
    · exact fun r hr => hf r (List.mem_cons_of_mem _ hr)
    · exact fun r hr => hS r (List.mem_cons_of_mem _ hr)

end CheckedLinks

/-- After any history of verifications that share a cache, valid, forged or weak in any order
and under any configurations, and whatever was evicted meanwhile, evidence passes with the
cache exactly when it passes checked in full. -/
theorem checked_links_change_no_verdict
    (history : List (EvidencedRecord × AnchorConfig)) (record : EvidencedRecord)
    (cfg : AnchorConfig) (hf : record.Fits) (hfits : ∀ r ∈ history, r.1.Fits)
    (hinj : Set.InjOn blake3 {x | ∃ r ∈ record :: history.map Prod.fst, ∃ j ∈ r.powJobs,
      x = j.checkedPreimage}) :
    (∃ c, verifyEvidence record cfg (CheckedLinks.empty.verifyAll history) = .ok c) ↔
      record.verifyStandalone cfg.anchorDepth cfg.minWork = .ok () := by
  have hempty : CheckedLinks.empty.Proven {x | ∃ r ∈ record :: history.map Prod.fst,
      ∃ j ∈ r.powJobs, x = j.checkedPreimage} := by
    intro key hkey
    simp [CheckedLinks.empty] at hkey
  have hcache := hempty.verifyAll hinj hfits fun r hr j hj =>
    ⟨r.1, List.mem_cons_of_mem _ (List.mem_map_of_mem hr), j, hj, rfl⟩
  have hknown : ∀ j ∈ record.powJobs,
      (CheckedLinks.empty.verifyAll history).contains j.key = true → j.holds := fun j hj =>
    hcache.holds hinj (EvidencedRecord.nonce_lt hf hj) ⟨record, List.mem_cons_self, j, hj, rfl⟩
  rw [← EvidencedRecord.verifyStandaloneWith_known hknown, verifyEvidence]
  cases record.verifyStandaloneWith cfg.anchorDepth cfg.minWork
    (CheckedLinks.empty.verifyAll history).contains <;> simp

/-- A record whose one midstate header carries a Midstate Walk proof. -/
def walkedRecord : EvidencedRecord where
  checkpoint := ⟨checkpointVersion, 0, 1, 0, 0, 0, 0⟩
  checkpointId := hexEncode 0
  evidence := some ⟨midstateWalkActivationHeight, .commit, 0, [], 0, ⟨0, 0, 0, 1, 0, 0⟩, []⟩
  mwHeader := none

def oneDeep : AnchorConfig := ⟨⟨100, 4, false⟩, 1, 0⟩

omit [Primitives] in
theorem walked_record_passes_from_the_cache : letI := Primitives.words
    (∃ c, verifyEvidence walkedRecord oneDeep
      (CheckedLinks.empty.verifyAll [(walkedRecord, oneDeep)]) = .ok c) ↔
        walkedRecord.verifyStandalone 1 0 = .ok () := by
  letI := Primitives.words
  have hf : walkedRecord.Fits := by
    intro m hm l hl
    obtain rfl := Option.mem_some_iff.mp hm
    obtain rfl := List.mem_singleton.mp hl
    exact ⟨by decide, by decide⟩
  apply checked_links_change_no_verdict [(walkedRecord, oneDeep)] walkedRecord oneDeep hf
  · intro r hr
    obtain rfl := List.mem_singleton.mp hr
    exact hf
  · have hjobs : walkedRecord.powJobs = [⟨.walk, 0, 0, 0⟩] := by decide +kernel
    rintro _ ⟨r, hr, j, hj, rfl⟩ _ ⟨s, hs, k, hk, rfl⟩ _
    have hr : r = walkedRecord := by simpa using hr
    have hs : s = walkedRecord := by simpa using hs
    rw [hr, hjobs, List.mem_singleton] at hj
    rw [hs, hjobs, List.mem_singleton] at hk
    rw [hj, hk]

end Midwimble
