import Midwimble.Identity.Preimages

namespace Midwimble
open Fallible
set_option autoImplicit true

structure AuxPow.Fits (a : AuxPow) : Prop where
  commitValue : a.commitValue < 2 ^ 64
  timestamp : a.timestamp < 2 ^ 64

/-- What `merge_commitment` hashes. -/
def mergePreimage (auxMiningHash : Bytes32) : Bytes :=
  domainPreimage (Bytes.ascii "midwimble.merge-mining.v1") [networkMagic, auxMiningHash.toBytes]

def midstateCoinPreimage (address : Bytes32) (value : Nat) (salt : Bytes32) : Bytes :=
  address.toBytes ++ Bytes.le 8 value ++ salt.toBytes

def midstateHeaderPreimage (prevHeaderHash postTxMidstate stateRoot : Bytes32) (timestamp : Nat)
    (target : Bytes32) : Bytes :=
  prevHeaderHash.toBytes ++ postTxMidstate.toBytes ++ stateRoot.toBytes ++
    Bytes.le 8 timestamp ++ target.toBytes

theorem mergePreimage_inj (h : mergePreimage x = mergePreimage y) : x = y := by
  have hshort : ∀ z : Bytes32, ∀ p ∈ [Bytes.ascii "midwimble.merge-mining.v1", networkMagic,
      z.toBytes], p.length < 2 ^ 64 := by
    simp only [List.mem_cons, List.not_mem_nil, or_false]
    rintro z p (rfl | rfl | rfl)
    · decide
    · decide
    · simp
  obtain ⟨-, hparts⟩ := domainPreimage_inj (hshort x) (hshort y) h
  exact toBytes_inj (List.cons.inj (List.cons.inj hparts).2).1

variable [Primitives]

namespace AuxPow

/-- The committing coin's id. -/
def coinId (a : AuxPow) (auxMiningHash : Bytes32) : Bytes32 :=
  midstateCoinId a.commitAddress a.commitValue (mergeCommitment auxMiningHash)

/-- The parent's fold up to the committing coin. -/
def committed (a : AuxPow) (auxMiningHash : Bytes32) : Bytes32 :=
  hashConcat a.preCommitMidstate.toBytes (a.coinId auxMiningHash).toBytes

/-- The parent's fold over its state root too. -/
def folded (a : AuxPow) (auxMiningHash : Bytes32) : Bytes32 :=
  if a.stateRoot ≠ 0 then
    hashConcat (a.committed auxMiningHash).toBytes a.stateRoot.toBytes
  else a.committed auxMiningHash

/-- Everything hashed to reach the mining hash of a parent that commits in its coinbase's
last output. -/
def hashed (a : AuxPow) (auxMiningHash : Bytes32) : List Bytes :=
  [mergePreimage auxMiningHash,
    midstateCoinPreimage a.commitAddress a.commitValue (mergeCommitment auxMiningHash),
    a.preCommitMidstate.toBytes ++ (a.coinId auxMiningHash).toBytes,
    (a.committed auxMiningHash).toBytes ++ a.stateRoot.toBytes,
    midstateHeaderPreimage a.prevHeaderHash (a.folded auxMiningHash) a.stateRoot a.timestamp
      a.target]

variable {a b : AuxPow} {x y : Bytes32}

theorem coinbaseAfter_of_claims {target : Bytes32}
    (h : a.checkClaims x extension target = .ok ()) :
    a.coinbaseAfter = [] := by
  simp only [checkClaims, bind_eq_ok, bailIf_eq_ok] at h
  obtain ⟨_, hlen, -⟩ := h
  exact List.length_eq_zero_iff.mp (Nat.le_zero.mp (Nat.not_lt.mp hlen))

theorem parentMiningHash_eq (h : a.coinbaseAfter = []) :
    a.parentMiningHash x =
      blake3 (midstateHeaderPreimage a.prevHeaderHash (a.folded x) a.stateRoot a.timestamp
        a.target) := by
  simp only [parentMiningHash, h, List.foldl_nil]
  rfl

theorem committed_eq (hinj : Set.InjOn blake3 {p | p ∈ a.hashed x ∨ p ∈ b.hashed y})
    (hroot : a.stateRoot = b.stateRoot) (h : a.folded x = b.folded y) :
    a.committed x = b.committed y := by
  rw [folded, folded, ← hroot] at h
  split at h
  · have hp := hinj (.inl (by simp [hashed])) (.inr (by simp [hashed, hroot])) h
    exact (toBytes_append_inj hp).1
  · exact h

theorem parent_commits_once (ha : a.Fits) (hb : b.Fits)
    (hinj : Set.InjOn blake3 {p | p ∈ a.hashed x ∨ p ∈ b.hashed y})
    (hca : a.coinbaseAfter = []) (hcb : b.coinbaseAfter = [])
    (h : a.parentMiningHash x = b.parentMiningHash y) :
    x = y ∧ a = { b with nonce := a.nonce, finalHash := a.finalHash } := by
  rw [parentMiningHash_eq hca, parentMiningHash_eq hcb] at h
  have hheader := hinj (.inl (by simp [hashed])) (.inr (by simp [hashed])) h
  simp only [midstateHeaderPreimage, List.append_assoc] at hheader
  obtain ⟨hprev, hheader⟩ := toBytes_append_inj hheader
  obtain ⟨hfold, hheader⟩ := toBytes_append_inj hheader
  obtain ⟨hroot, hheader⟩ := toBytes_append_inj hheader
  obtain ⟨htime, hheader⟩ := le_append_inj (by norm_num; exact ha.timestamp)
    (by norm_num; exact hb.timestamp) hheader
  have htarget := toBytes_inj hheader
  have hcommitted := hinj (.inl (by simp [hashed])) (.inr (by simp [hashed]))
    (committed_eq hinj hroot hfold)
  obtain ⟨hpre, hcoin⟩ := toBytes_append_inj hcommitted
  have hcoin : midstateCoinPreimage a.commitAddress a.commitValue (mergeCommitment x) =
      midstateCoinPreimage b.commitAddress b.commitValue (mergeCommitment y) :=
    hinj (.inl (by simp [hashed])) (.inr (by simp [hashed])) (toBytes_inj hcoin)
  simp only [midstateCoinPreimage, List.append_assoc] at hcoin
  obtain ⟨haddress, hcoin⟩ := toBytes_append_inj hcoin
  obtain ⟨hvalue, hcoin⟩ := le_append_inj (by norm_num; exact ha.commitValue)
    (by norm_num; exact hb.commitValue) hcoin
  have hsalt : mergePreimage x = mergePreimage y :=
    hinj (.inl (by simp [hashed])) (.inr (by simp [hashed])) (toBytes_inj hcoin)
  refine ⟨mergePreimage_inj hsalt, ?_⟩
  cases a
  cases b
  simp_all

end AuxPow

/-- One midstate parent proves at most one block: two proofs that pass their cheap checks
under one parent mining hash are of one block, and agree in all but nonce and final hash. -/
theorem parent_proves_one_block {a b : AuxPow} {x y : Bytes32} (ha : a.Fits)
    (hb : b.Fits)
    (hinj : Set.InjOn blake3 {p | p ∈ a.hashed x ∨ p ∈ b.hashed y})
    (hca : a.checkClaims x extensionA targetA = .ok ())
    (hcb : b.checkClaims y extensionB targetB = .ok ())
    (h : a.parentMiningHash x = b.parentMiningHash y) :
    x = y ∧ a = { b with nonce := a.nonce, finalHash := a.finalHash } :=
  AuxPow.parent_commits_once ha hb hinj (AuxPow.coinbaseAfter_of_claims hca)
    (AuxPow.coinbaseAfter_of_claims hcb) h

/-- A proof in its parent's only coinbase output. -/
def soleProof : AuxPow where
  preCommitMidstate := 1
  commitAddress := 2
  commitValue := 3
  coinbaseAfter := []
  stateRoot := 4
  prevHeaderHash := 5
  timestamp := 6
  target := 7
  nonce := 8
  finalHash := 9

omit [Primitives] in
theorem parent_proves_one_block_sole :
    letI := Primitives.mixing
    (1 : Bytes32) = 1 ∧ soleProof = { soleProof with nonce := 8, finalHash := 9 } :=
  letI := Primitives.mixing
  have hclaims : soleProof.checkClaims 1 ⟨0, soleProof.blockId 1⟩ 10 = .ok () := by decide +kernel
  parent_proves_one_block ⟨by decide, by decide⟩ ⟨by decide, by decide⟩
    (injOn_of_lists (by decide +kernel)) hclaims hclaims rfl

end Midwimble
