import Midwimble.Core.Types

namespace Midwimble
set_option autoImplicit true

/-- Unsigned 64-bit checked addition. -/
def checkedAdd64 (a b : Nat) : Option Nat := if a + b ≤ u64Max then some (a + b) else none

variable [Primitives]

/-- What a bonded miner signs for `batch`: the mining hash it would have unsigned. -/
def authorizationMessage (prevMidstate : Bytes32) (batch : Batch) : Bytes32 :=
  let header : BatchHeader :=
    { height := 0
      prevHeaderHash := batch.prevHeaderHash
      prevMidstate := prevMidstate
      postTxMidstate := foldUnsigned prevMidstate batch
      extension := batch.extension
      timestamp := batch.timestamp
      target := batch.target
      stateRoot := batch.stateRoot
      signer := none
      chainWeight := batch.chainWeight
      auxPow := none }
  hashDomain (Bytes.ascii "midwimble.block-authorisation.v1")
    [(computeHeaderHash header).toBytes, networkMagic]

/-- Checks `batch`'s authorisation against the bond set with its own registrations. -/
def checkMinerAuthorization (bonds : BondSet) (prevMidstate : Bytes32) (batch : Batch) :
    Result Unit := do
  let auth ← Fallible.orBail batch.miner "block is not authorised by a mining bond"
  let bond ← Fallible.orBail (bonds.get auth.bondId)
    s!"block is mined under an unregistered bond {hexEncode auth.bondId}"
  Fallible.bailIf (!bond.eligibleAt batch.timestamp)
    s!"bond {hexEncode auth.bondId} is not eligible at this block's time (too small, or its lock ends too soon)"
  Fallible.bailIf
    (!schnorrVerify bond.miningKey (authorizationMessage prevMidstate batch) auth.signature)
    "the block's miner signature does not verify under its bond's mining key"

/-- The midstate height of the first header `batch` relays on the relay of `state`. -/
def relayStart (state : State) (batch : Batch) : Option Nat :=
  batch.relay.bind fun relayed => (state.relay.byHash relayed.prev).map fun e => e.height + 1

/-- The rules on a block's relayed headers that need no relay. -/
def validateRelayed (relay : Option RelayHeaders) (skipCrypto : Bool)
    (relayFrom : Option Nat) : Result Unit :=
  match relay with
  | none => .ok ()
  | some relayed => do
    Fallible.bailIf (relayed.headers.isEmpty ∨ relayed.headers.length > maxRelayHeadersPerBlock)
      s!"a block relays 1..={maxRelayHeadersPerBlock} midstate headers, not {relayed.headers.length}"
    if skipCrypto then .ok ()
    else do
      let start ← Fallible.orBail relayFrom
        "relayed midstate headers do not build on the relay"
      relayed.verifyPow start

def checkBlockWeight (batch : Batch) : Result Unit :=
  Fallible.bailIf (batch.weight > maxBlockWeight)
    s!"block weight {batch.weight} exceeds {maxBlockWeight}"

/-- Uniqueness across body and coinbase. -/
def checkCoinbaseApart (body : Transaction) (coinbase : Coinbase) : Result Unit := do
  Fallible.checkAll (fun o => do
    Fallible.bailIf (o.commitment ∈ body.outputCommitments ∨
      o.ownerKey ∈ body.outputs.map Output.ownerKey)
      "coinbase output duplicates a body output"
    Fallible.bailIf (o.commitment ∈ body.inputCommitments) "block spends its own coinbase")
    coinbase.outputs.outputs
  Fallible.bailIf (coinbase.kernel.id ∈ body.kernelIds)
    "coinbase kernel duplicates a body kernel"

/-- The rest of `validate_block_contents` for a block that pays a coinbase. -/
def validateWithCoinbase (batch : Batch) (coinbase : Coinbase) (height amount : Nat)
    (skipCrypto : Bool) : Result Unit := do
  Fallible.bailIf (amount = 0) s!"block {height} carries a coinbase with nothing to claim"
  coinbase.validateStructure
  checkBlockWeight batch
  checkCoinbaseApart batch.body coinbase
  batch.body.verifySums
  coinbase.verifySum amount
  if skipCrypto then .ok ()
  else do
    batch.body.verifyCrypto
    coinbase.verifyCrypto

/-- The rest of `validate_block_contents` for a block with nothing to claim. -/
def validateWithoutCoinbase (batch : Batch) (height amount : Nat) (skipCrypto : Bool) :
    Result Unit := do
  Fallible.bailIf (amount ≠ 0)
    s!"block {height} has no coinbase but {formatAmount amount} to claim"
  checkBlockWeight batch
  batch.body.verifySums
  if skipCrypto then .ok () else batch.body.verifyCrypto

/-- Stateless rules for a block's contents. `relayFrom` is `relayStart`. -/
def validateBlockContents (batch : Batch) (height : Nat) (skipCrypto : Bool) (subsidy : Nat)
    (relayFrom : Option Nat) : Result Unit := do
  batch.body.validateStructure .block
  Fallible.bailIf (batch.registrations.length > maxRegistrationsPerBlock)
    s!"block carries {batch.registrations.length} bond registrations; at most {maxRegistrationsPerBlock} are allowed"
  validateRelayed batch.relay skipCrypto relayFrom
  let fees ← batch.body.fee
  let amount ← Fallible.orBail (checkedAdd64 subsidy fees) "reward overflow"
  match batch.coinbase, decide (height = 0) with
  | some cb, false => validateWithCoinbase batch cb height amount skipCrypto
  | none, true => Fallible.bailIf (!batch.body.isEmpty) "genesis must be empty"
  | none, false => validateWithoutCoinbase batch height amount skipCrypto
  | some _, true => .error "genesis must not carry a coinbase"

/-- Spends one input of a block at `height`. -/
def spendInput (height : Nat) (next : State) (input : Input) : Result State := do
  let entry ← Fallible.orBail next.utxos[input.commitment]?
    s!"input {hexEncode input.commitment} not found or already spent"
  -- The ownership check: the chain's record decides whose signature counts.
  Fallible.bailIf (entry.ownerKey ≠ input.ownerKey)
    "input owner key does not match the output being spent"
  Fallible.bailIf (entry.coinbase ∧ height < satAdd64 entry.height coinbaseMaturity)
    s!"coinbase output from height {entry.height} is immature at height {height} (needs {coinbaseMaturity})"
  .ok { next with
    utxoSet := next.utxoSet.remove (utxoLeaf input.commitment entry)
    utxos := next.utxos.erase input.commitment }

/-- The record of an output a block at `height` creates. -/
def utxoEntry (height : Nat) (isCoinbase : Bool) (output : Output) : UtxoEntry where
  outputHash := output.metadataHash
  ownerKey := output.ownerKey
  recoveryCommitment := output.recoveryCommitment
  height := height
  coinbase := isCoinbase

def addOutput (height : Nat) (isCoinbase : Bool) (next : State) (output : Output) :
    Result State := do
  Fallible.bailIf (next.utxos.contains output.commitment)
    s!"output commitment {hexEncode output.commitment} already exists"
  let entry := utxoEntry height isCoinbase output
  .ok { next with
    utxoSet := (next.utxoSet.insert (utxoLeaf output.commitment entry)).2
    utxos := next.utxos.insert output.commitment entry }

/-- Adds a kernel to the chain's, which must not hold it, and its excess to a sum. -/
def addKernel (acc : UtxoAccumulator × Primitives.Point) (kernel : Kernel) :
    Result (UtxoAccumulator × Primitives.Point) := do
  let (fresh, kernels) := acc.1.insert kernel.id
  Fallible.bailIf (!fresh) s!"kernel {hexEncode kernel.id} is already on chain"
  let excess ← Fallible.orBail (decompress kernel.excess) "invalid kernel excess"
  .ok (kernels, acc.2 + excess)

/-- The body's kernels, then the coinbase's. -/
def blockKernels (body : Transaction) (coinbase : Option Coinbase) : List Kernel :=
  body.body.kernels ++ (coinbase.map Coinbase.kernel).toList

/-- Stateful rules and the UTXO and kernel transition for a block at `state.height`. -/
def applyBody (state : State) (body : Transaction) (coinbase : Option Coinbase)
    (subsidy : Nat) : Result State := do
  let height := state.height
  Fallible.checkAll (fun kernel =>
    Fallible.bailIf (kernel.minHeight > height)
      s!"kernel is time-locked until height {kernel.minHeight} (block is {height})")
    body.body.kernels
  let next ← body.body.inputs.foldlM (spendInput height) state
  let next ← body.outputs.foldlM (addOutput height false) next
  let next ← ((coinbase.map fun cb => cb.outputs.outputs).getD []).foldlM
    (addOutput height true) next
  let excessSum ← Fallible.orBail (decompress next.kernelExcessSum) "corrupt kernel excess sum"
  let (kernels, excessSum) ← (blockKernels body coinbase).foldlM addKernel
    (next.kernels, excessSum)
  let total ← Fallible.orBail (scalarFromBytes next.totalKernelOffset) "corrupt total offset"
  let offset ← Fallible.orBail (scalarFromBytes body.kernelOffset) "invalid kernel offset"
  let supply ← Fallible.orBail (checkedAdd64 next.supply subsidy) "supply overflow"
  Fallible.bailIf (supply > issuedBefore (height + 1))
    s!"supply {supply} exceeds the emission schedule at height {height}"
  .ok { next with
    kernels := kernels
    kernelExcessSum := compress excessSum
    totalKernelOffset := scalarToBytes (total + offset)
    supply := supply }

/-- Step 1: the block builds on this state. -/
def checkLinkage (state : State) (batch : Batch) : Result Unit := do
  Fallible.bailIf (batch.prevMidstate ≠ state.mwMidstate)
    s!"Block parent mismatch: expected {hexEncode state.mwMidstate}, got {hexEncode batch.prevMidstate}"
  Fallible.bailIf (batch.prevHeaderHash ≠ state.headerHash)
    s!"Block header hash mismatch: expected {hexEncode state.headerHash}, got {hexEncode batch.prevHeaderHash}"
  Fallible.bailIf (batch.target ≠ state.target)
    s!"Batch target mismatch: expected {hexEncode state.target}, got {hexEncode batch.target}"

/-- The header whose hash the block's proof of work is over. -/
def candidateHeader (state : State) (batch : Batch) : BatchHeader where
  height := state.height
  prevHeaderHash := state.headerHash
  prevMidstate := state.mwMidstate
  postTxMidstate := foldBlock state.mwMidstate batch
  extension := batch.extension
  timestamp := batch.timestamp
  target := batch.target
  stateRoot := batch.stateRoot
  signer := batch.signer
  chainWeight := batch.chainWeight
  auxPow := none

/-- Steps 2 and 3: genesis is recognised by identity; any other block needs a timestamp
in range and its proof of work, or the hash it was checked under. -/
def checkHeader (state : State) (batch : Batch) (previousTimestamps : List Nat) (now : Nat)
    (preverifiedHash : Option Bytes32) : Result Unit :=
  if state.height = 0 then
    Fallible.bailIf (batch ≠ Batch.genesis)
      "genesis block does not match this network's genesis"
  else do
    validateTimestamp batch.timestamp previousTimestamps now
    let miningHash := computeHeaderHash (candidateHeader state batch)
    match preverifiedHash with
    | none => verifyPow state.height miningHash batch.extension batch.target batch.auxPow
    | some expected =>
      Fallible.bailIf (miningHash ≠ expected)
        s!"CRITICAL: Batch integrity failure! Computed header hash {hexEncode miningHash} does not match pre-verified PoW hash {hexEncode expected}"

/-- Step 4: bonds that can no longer sign leave the set. -/
def pruneBonds (state : State) (previousTimestamps : List Nat) :
    List (Bytes32 × BondEntry) × State :=
  let (expired, bonds) := state.bonds.pruneExpired (minNextTimestamp previousTimestamps)
  (expired, { state with bonds := bonds })

/-- Step 4a: relayed headers extend the relay, and a heavier branch revokes every bond
proven against a header it replaced. -/
def applyRelay (base : State) (relay : Option RelayHeaders) (timestamp : Nat) :
    Result (RelayChange × List (Bytes32 × BondEntry) × State) :=
  match relay with
  | none => .ok (⟨[], [], none⟩, [], base)
  | some relayed => do
    let (outcome, relay) := base.relay.extend relayed timestamp
    let change ← outcome
    let base := { base with relay := relay }
    match change.forkFrom with
    | none => .ok (change, [], base)
    | some fork =>
      let (revoked, bonds) := base.bonds.revokeAbove fork
      .ok (change, revoked, { base with bonds := bonds })

/-- A registration's bond id and the entry it earns. -/
def verifyRegistration (relay : Relay) (target : Bytes32) (r : BondRegistration) :
    Result (Bytes32 × BondEntry) := do
  let entry ← r.verify relay target
  .ok (r.bondId, entry)

def insertBond (bonds : BondSet) (p : Bytes32 × BondEntry) : Result BondSet := do
  Fallible.bailIf (bonds.get p.1).isSome s!"bond {hexEncode p.1} is already registered"
  .ok (bonds.insert p.1 p.2).2

/-- Step 4b: registrations, against the relay as this block leaves it. -/
def registerBonds (base : State) (batch : Batch) :
    Result (List (Bytes32 × BondEntry) × BondSet) := do
  precheckRegistrations base.bonds batch.registrations batch.target batch.timestamp
  let registered ← batch.registrations.mapM (verifyRegistration base.relay batch.target)
  let bonds ← registered.foldlM insertBond base.bonds
  .ok (registered, bonds)

/-- Step 5: a block is signed whenever a registered bond could sign it. -/
def checkSigner (state : State) (bonds : BondSet) (batch : Batch) : Result Unit :=
  if state.height = 0 then .ok ()
  else if batch.miner.isSome then checkMinerAuthorization bonds state.mwMidstate batch
  else
    Fallible.bailIf (state.height ≥ bondedMiningFrom ∧ anyCanSign bonds batch.timestamp)
      s!"block {state.height} is unsigned, but a registered bond could sign it"

/-- What fork choice makes of a block on `state` with this signer: the work it adds and
both windows after it. -/
structure Credit where
  credited : Nat
  signers : SignerWindow
  workFloor : List (Nat × Nat)
  deriving DecidableEq

/-- Step 5a: the block's work as far as the work cap allows, less what the per-bond cap
withholds. -/
def weighBlock (base : State) (bonds : BondSet) (signer : Option Bytes32) (target : Bytes32)
    (timestamp : Nat) : Credit :=
  let (creditable, floor) := capWork base.workFloor base.height (calculateWork target)
  let (credited, signers) :=
    creditInWindow base.signers bonds base.height signer creditable timestamp
  ⟨credited, signers, floor⟩

/-- Step 7: the linkage, windows and work of the state after `batch`. -/
def finalize (next : State) (batch : Batch) (postTxMidstate : Bytes32) (credit : Credit) :
    State :=
  let work := calculateWork batch.target
  { next with
    mwMidstate := postTxMidstate
    headerHash := batch.extension.finalHash
    chainMmr := next.chainMmr.append batch.extension.finalHash true
    signers := credit.signers
    workFloor := credit.workFloor
    depth := satAdd128 next.depth work
    capped := satAdd128 next.capped (work - credit.credited)
    height := next.height + 1
    timestamp := batch.timestamp
    target := calculateTarget (next.height + 1) batch.timestamp }

/-- `apply_batch_internal`. `now` is the node's clock; a rejected block leaves no state. -/
def applyBatchInternal (state : State) (batch : Batch) (previousTimestamps : List Nat)
    (now : Nat) (preverifiedHash : Option Bytes32) (skipCrypto : Bool) : Result State := do
  checkLinkage state batch
  checkHeader state batch previousTimestamps now preverifiedHash
  let (expired, base) := pruneBonds state previousTimestamps
  let relayFrom := relayStart base batch
  let (change, revoked, base) ← applyRelay base batch.relay batch.timestamp
  let (registered, bonds) ← registerBonds base batch
  checkSigner state bonds batch
  let credit := weighBlock base bonds batch.signer batch.target batch.timestamp
  let weight := satAdd128 base.weight credit.credited
  Fallible.bailIf (batch.chainWeight ≠ weight)
    s!"block claims chain weight {batch.chainWeight}, but the chain weighs {weight} with it"
  let subsidy :=
    subsidyFor batch.signer credit.signers.counts bonds state.height batch.timestamp
  validateBlockContents batch state.height skipCrypto subsidy relayFrom
  let next ← applyBody base batch.body batch.coinbase subsidy
  let next := { next with
    bonds := bonds
    effects := ⟨registered, expired ++ revoked, change.added, change.removed⟩ }
  let expectedRoot := next.stateRoot
  Fallible.bailIf (batch.stateRoot ≠ expectedRoot)
    s!"State root mismatch: expected {hexEncode expectedRoot}, got {hexEncode batch.stateRoot}"
  .ok (finalize next batch (foldBlock state.mwMidstate batch) credit)

/-- Full validation, proof of work included. -/
def applyBatch (state : State) (batch : Batch) (previousTimestamps : List Nat) (now : Nat) :
    Result State :=
  applyBatchInternal state batch previousTimestamps now none false

/-- Skips recomputing the proof of work. -/
def applyBatchSkipPow (state : State) (batch : Batch) (previousTimestamps : List Nat)
    (now : Nat) (verifiedMiningHash : Bytes32) : Result State :=
  applyBatchInternal state batch previousTimestamps now (some verifiedMiningHash) false

end Midwimble
