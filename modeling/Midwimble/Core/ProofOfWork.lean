import Midwimble.Core.Difficulty

namespace Midwimble
set_option autoImplicit true

/-- Proof of sequential work. -/
structure Extension where
  nonce : Nat
  finalHash : Bytes32
  deriving DecidableEq

/-- One proof of work to check: what it was computed over and what it claims. -/
structure PowJob where
  algo : PowAlgo
  miningHash : Bytes32
  nonce : Nat
  finalHash : Bytes32
  deriving DecidableEq

inductive PowCheck where
  | bad (index : Nat)
  | abandoned
  deriving DecidableEq

/-- A merged-mining proof: the midstate parent that commits to the block. -/
structure AuxPow where
  preCommitMidstate : Bytes32
  commitAddress : Bytes32
  commitValue : Nat
  coinbaseAfter : List Bytes32
  stateRoot : Bytes32
  prevHeaderHash : Bytes32
  timestamp : Nat
  target : Bytes32
  nonce : Nat
  finalHash : Bytes32
  deriving DecidableEq

variable [Primitives]

/-- The hash applied `n` more times. -/
def hashTimes : (n : Nat) → Bytes32 → Bytes32
  | 0, x => x
  | n + 1, x => hashTimes n (hash x.toBytes)

def createExtension (midstate : Bytes32) (nonce : Nat) : Extension :=
  ⟨nonce, hashTimes extensionIterations (hash (midstate.toBytes ++ Bytes.le 8 nonce))⟩

/-- The proof of work of `nonce` over `midstate` under `algo`. -/
def createExtensionWith (algo : PowAlgo) (midstate : Bytes32) (nonce : Nat) : Extension :=
  match algo with
  | .walk => ⟨nonce, Primitives.walk midstate nonce⟩
  | .blake3Chain => createExtension midstate nonce

def verifyExtensionWith (algo : PowAlgo) (midstate : Bytes32) (ext : Extension)
    (target : Bytes32) : Result Unit := do
  Fallible.bailIf (ext.finalHash ≥ target) "Extension doesn't meet difficulty target"
  Fallible.bailIf ((createExtensionWith algo midstate ext.nonce).finalHash ≠ ext.finalHash)
    "Proof-of-work verification failed"

def PowJob.holds (j : PowJob) : Bool :=
  (createExtensionWith j.algo j.miningHash j.nonce).finalHash == j.finalHash

/-- The pieces of `check_pow_jobs_with`, from the one starting at job `start`. -/
def checkPieces (piece : Nat) (proceed : Nat → Nat → Bool) :
    (fuel asked start : Nat) → List PowJob → Except PowCheck Unit
  | 0, _, _, _ => .ok ()
  | fuel + 1, asked, start, jobs =>
    if jobs.isEmpty then .ok ()
    else
      let chunk := jobs.take piece
      if !proceed asked chunk.length then .error .abandoned
      else match chunk.findIdx? fun j => !j.holds with
        | some i => .error (.bad (start + i))
        | none => checkPieces piece proceed fuel (asked + 1) (start + piece) (jobs.drop piece)

/-- Jobs a piece holds: at least 128, more with wide lanes and many threads. -/
def pieceSize : Nat := max (max Primitives.lanes 1 * Primitives.threads * 4) 128

/-- Checks many proofs of work: the first alone, the rest a piece at a time. -/
def checkPowJobsWith (proceed : Nat → Nat → Bool) (jobs : List PowJob) :
    Except PowCheck Unit :=
  match jobs with
  | [] => .ok ()
  | first :: rest =>
    if !proceed 0 1 then .error .abandoned
    else if !first.holds then .error (.bad 0)
    else checkPieces pieceSize proceed rest.length 1 1 rest

def checkPowJobs (jobs : List PowJob) : Except PowCheck Unit :=
  checkPowJobsWith (fun _ _ => true) jobs

theorem checkPieces_eq_ok (hp : 0 < piece) (hfuel : jobs.length ≤ fuel)
    (hholds : ∀ j ∈ jobs, j.holds) :
    checkPieces piece (fun _ _ => true) fuel asked start jobs = .ok () := by
  induction fuel generalizing asked start jobs with
  | zero => rfl
  | succ fuel ih =>
    simp only [checkPieces]
    split
    · rfl
    · have hnone : (jobs.take piece).findIdx? (fun j => !j.holds) = none := by
        rw [List.findIdx?_eq_none_iff]
        intro j hj
        simp [hholds j (List.mem_of_mem_take hj)]
      rw [if_neg (by simp), hnone]
      apply ih
      · rw [List.length_drop]
        omega
      · exact fun j hj => hholds j (List.mem_of_mem_drop hj)

theorem checkPowJobs_eq_ok (hholds : ∀ j ∈ jobs, j.holds) : checkPowJobs jobs = .ok () := by
  cases jobs with
  | nil => rfl
  | cons first rest =>
    have hf := hholds first List.mem_cons_self
    simp only [checkPowJobs, checkPowJobsWith, hf, Bool.not_true, Bool.false_eq_true,
      if_false]
    exact checkPieces_eq_ok (by unfold pieceSize; omega) (Nat.le_refl _) fun j hj =>
      hholds j (List.mem_cons_of_mem _ hj)

/-- The salt a parent coinbase output carries to commit to `auxMiningHash`. -/
def mergeCommitment (auxMiningHash : Bytes32) : Bytes32 :=
  hashDomain (Bytes.ascii "midwimble.merge-mining.v1") [networkMagic, auxMiningHash.toBytes]

/-- Midstate's `compute_coin_id`. -/
def midstateCoinId (address : Bytes32) (value : Nat) (salt : Bytes32) : Bytes32 :=
  hash (address.toBytes ++ Bytes.le 8 value ++ salt.toBytes)

/-- Identity of a merged-mined block. -/
def auxBlockId (parentFinalHash auxMiningHash : Bytes32) : Bytes32 :=
  hashDomain (Bytes.ascii "midwimble.aux-block-id.v1")
    [parentFinalHash.toBytes, auxMiningHash.toBytes]

/-- Midstate's header hash. -/
def midstateHeaderHash (prevHeaderHash postTxMidstate stateRoot : Bytes32) (timestamp : Nat)
    (target : Bytes32) : Bytes32 :=
  hash (prevHeaderHash.toBytes ++ postTxMidstate.toBytes ++ stateRoot.toBytes ++
    Bytes.le 8 timestamp ++ target.toBytes)

namespace AuxPow

/-- The midstate header hash this proof's work was computed over. -/
def parentMiningHash (a : AuxPow) (auxMiningHash : Bytes32) : Bytes32 :=
  let salt := mergeCommitment auxMiningHash
  let m := hashConcat a.preCommitMidstate.toBytes
    (midstateCoinId a.commitAddress a.commitValue salt).toBytes
  let m := a.coinbaseAfter.foldl (fun m id => hashConcat m.toBytes id.toBytes) m
  let m := if a.stateRoot ≠ 0 then hashConcat m.toBytes a.stateRoot.toBytes else m
  midstateHeaderHash a.prevHeaderHash m a.stateRoot a.timestamp a.target

def powJob (a : AuxPow) (algo : PowAlgo) (auxMiningHash : Bytes32) : PowJob :=
  ⟨algo, a.parentMiningHash auxMiningHash, a.nonce, a.finalHash⟩

def blockId (a : AuxPow) (auxMiningHash : Bytes32) : Bytes32 :=
  auxBlockId a.finalHash auxMiningHash

/-- Parent coinbase outputs allowed after the committing one. -/
def maxCoinbaseAfter : Nat := 0

/-- Everything except the expensive chain recomputation. -/
def checkClaims (a : AuxPow) (auxMiningHash : Bytes32) (extension : Extension)
    (target : Bytes32) : Result Unit := do
  Fallible.bailIf (a.coinbaseAfter.length > maxCoinbaseAfter)
    "the merge commitment must be the parent coinbase's last output (one parent commits to one block)"
  Fallible.bailIf (extension.nonce ≠ 0 ∨ extension.finalHash ≠ a.blockId auxMiningHash)
    "merged-mined block id does not match its proof"
  Fallible.bailIf (a.finalHash ≥ target) "merged-mining proof does not meet the target"

end AuxPow

def verifyPowWith (algo : PowAlgo) (miningHash : Bytes32) (extension : Extension)
    (target : Bytes32) (aux : Option AuxPow) : Result Unit :=
  match aux with
  | none => verifyExtensionWith algo miningHash extension target
  | some a => do
    a.checkClaims miningHash extension target
    let recomputed := createExtensionWith algo (a.parentMiningHash miningHash) a.nonce
    Fallible.bailIf (recomputed.finalHash ≠ a.finalHash)
      "merged-mining proof of work is invalid"

/-- Verifies the proof of work of the block at `height`, native or merged. -/
def verifyPow (height : Nat) (miningHash : Bytes32) (extension : Extension)
    (target : Bytes32) (aux : Option AuxPow) : Result Unit :=
  verifyPowWith (powAlgoAt height) miningHash extension target aux

theorem verifyExtensionWith_eq_ok :
    verifyExtensionWith algo midstate ext target = .ok () ↔ ext.finalHash < target ∧
      (PowJob.mk algo midstate ext.nonce ext.finalHash).holds := by
  simp [verifyExtensionWith, Fallible.check_bind_eq_ok, Fallible.bailIf_eq_ok, PowJob.holds]

theorem verifyPowWith_aux_eq_ok :
    verifyPowWith algo miningHash extension target (some a) = .ok () ↔
      a.checkClaims miningHash extension target = .ok () ∧
        (a.powJob algo miningHash).holds := by
  simp [verifyPowWith, Fallible.check_bind_eq_ok, Fallible.bailIf_eq_ok, PowJob.holds,
    AuxPow.powJob]

end Midwimble
