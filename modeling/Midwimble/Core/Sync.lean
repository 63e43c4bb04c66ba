import Midwimble.Core.State
import Midwimble.Lib.Window

namespace Midwimble
open SlidingWindow
set_option autoImplicit true

/-- The loop over claimed chain weights: each grew by what its block could add. -/
def checkWeights : (weight : Nat) → (floor : List (Nat × Nat)) → List BatchHeader → Result Unit
  | _, _, [] => .ok ()
  | weight, floor, header :: rest => do
    let (creditable, floor) := capWork floor header.height (calculateWork header.target)
    Fallible.bailIf (¬ (weight ≤ header.chainWeight ∧
        creditPossible creditable header.signer.isSome header.height
          (header.chainWeight - weight)))
      s!"header {header.height} claims a chain weight its block could not have added"
    checkWeights header.chainWeight floor rest

/-- The target the first header must have. -/
def expectedFirstTarget (first : BatchHeader) (priorTimestamps : List Nat) : Result Bytes32 :=
  if first.height = 0 then .ok (calculateTarget 0 0)
  else match priorTimestamps.getLast? with
    | some ts => .ok (calculateTarget first.height ts)
    | none => .error s!"missing timestamps below height {first.height}"

/-- What a header at index `i` of a run owes the one before it. -/
def checkLink (i : Nat) (prev header : BatchHeader) : Result Unit := do
  Fallible.bailIf (header.height ≠ prev.height + 1)
    s!"header heights not consecutive at index {i}"
  Fallible.bailIf (header.prevHeaderHash ≠ prev.extension.finalHash)
    s!"header chain linkage broken at index {i}: prev_header_hash mismatch"
  Fallible.bailIf (header.prevMidstate ≠ prev.postTxMidstate)
    s!"header chain linkage broken at index {i}: prev_midstate mismatch"
  Fallible.bailIf (header.target ≠ calculateTarget (prev.height + 1) prev.timestamp)
    s!"invalid difficulty target at height {header.height}"

/-- The first header of a run links to nothing here: the caller checks it. -/
def checkPrev (i : Nat) (prev : Option BatchHeader) (header : BatchHeader) : Result Unit :=
  match prev with
  | some prev => checkLink i prev header
  | none => .ok ()

/-- A header's timestamp against the window of those before it. -/
def checkTimestamp (now : Nat) (window : List Nat) (header : BatchHeader) : Result Unit :=
  if header.height > 0 then
    match validateTimestamp header.timestamp window now with
    | .ok () => .ok ()
    | .error e => .error (.context s!"header {header.height}" e)
  else .ok ()

/-- The loop over linkage and timestamps, from index `i`. -/
def checkLinks (now : Nat) :
    (i : Nat) → (prev : Option BatchHeader) → (window : List Nat) → List BatchHeader → Result Unit
  | _, _, _, [] => .ok ()
  | i, prev, window, header :: rest => do
    checkPrev i prev header
    checkTimestamp now window header
    checkLinks now (i + 1) (some header)
      (lastN medianTimePastWindow (window ++ [header.timestamp])) rest

variable [Primitives]

/-- The proof of work a header owes, once its cheap claims pass. -/
def headerJob (h : BatchHeader) : Result (Nat × PowJob) :=
  let miningHash := computeHeaderHash h
  let algo := powAlgoAt h.height
  match h.auxPow with
  | none => do
    Fallible.bailIf (h.extension.finalHash ≥ h.target)
      s!"proof of work invalid at height {h.height}"
    .ok (h.height, ⟨algo, miningHash, h.extension.nonce, h.extension.finalHash⟩)
  | some aux =>
    match aux.checkClaims miningHash h.extension h.target with
    | .ok () => .ok (h.height, aux.powJob algo miningHash)
    | .error e => .error s!"header {h.height}: {e.text}"

/-- Every header's proof of work, a piece at a time. -/
def checkHeaderPow (proceed : Nat → Nat → Bool) (headers : List BatchHeader) : Result Unit := do
  let jobs ← (headers.filter fun h => h.height > 0).mapM headerJob
  match checkPowJobsWith proceed (jobs.map Prod.snd) with
  | .ok () => .ok ()
  | .error (.bad i) =>
    .error s!"proof of work invalid at height {(jobs[i]?.map Prod.fst).getD 0}"
  | .error .abandoned => .error "header verification abandoned"

/-- `verify_header_chain_with`. -/
def verifyHeaderChainWith (headers : List BatchHeader) (priorTimestamps : List Nat)
    (parentWeight : Nat) (workFloor : List (Nat × Nat)) (checkPow : Bool) (now : Nat)
    (proceed : Nat → Nat → Bool) : Result Unit :=
  match headers with
  | [] => .ok ()
  | first :: _ => do
    checkWeights parentWeight workFloor headers
    let expected ← expectedFirstTarget first priorTimestamps
    Fallible.bailIf (first.target ≠ expected)
      s!"invalid difficulty target at height {first.height}"
    checkLinks now 0 none priorTimestamps headers
    if checkPow then checkHeaderPow proceed headers else .ok ()

/-- Checks a run of consecutive headers. -/
def verifyHeaderChain (headers : List BatchHeader) (priorTimestamps : List Nat)
    (parentWeight : Nat) (workFloor : List (Nat × Nat)) (checkPow : Bool) (now : Nat) :
    Result Unit :=
  verifyHeaderChainWith headers priorTimestamps parentWeight workFloor checkPow now
    fun _ _ => true

end Midwimble
