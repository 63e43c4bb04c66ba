import Midwimble.Core.ForkChoice

namespace Midwimble
set_option autoImplicit true

/-- What consensus remembers about an unspent output. -/
structure UtxoEntry where
  outputHash : Bytes32
  ownerKey : Point32
  recoveryCommitment : Bytes32
  height : Nat
  coinbase : Bool
  deriving DecidableEq

/-- The inputs of a state root. -/
structure StateRootParts where
  utxoRoot : Bytes32
  kernelRoot : Bytes32
  chainMmrRoot : Bytes32
  kernelExcessSum : Point32
  totalKernelOffset : Scalar32
  supply : Nat
  bondsRoot : Bytes32
  relayRoot : Bytes32
  deriving DecidableEq

/-- What applying one block changed in the bond set and the midstate relay. -/
structure BlockEffects where
  bondsAdded : List (Bytes32 × BondEntry)
  bondsRemoved : List (Bytes32 × BondEntry)
  relayAdded : List RelayEntry
  relayRemoved : List RelayEntry
  deriving DecidableEq

def BlockEffects.empty : BlockEffects := ⟨[], [], [], []⟩

/-- Chain state after `height` blocks. -/
structure State where
  /-- Running hash over every applied block. -/
  mwMidstate : Bytes32
  utxos : Std.ExtTreeMap Point32 UtxoEntry
  utxoSet : UtxoAccumulator
  kernels : UtxoAccumulator
  kernelExcessSum : Point32
  totalKernelOffset : Scalar32
  supply : Nat
  /-- Cumulative proof of work. -/
  depth : Nat
  /-- The part of `depth` fork choice leaves out. -/
  capped : Nat
  /-- Target the next block must meet. -/
  target : Bytes32
  height : Nat
  timestamp : Nat
  chainMmr : MerkleMountainRange
  headerHash : Bytes32
  bonds : BondSet
  relay : Relay
  /-- `recent_signers` and `signer_counts`. -/
  signers : SignerWindow
  /-- The low points of the last blocks' work, as height and work. -/
  workFloor : List (Nat × Nat)
  /-- What the last applied block changed. -/
  effects : BlockEffects
  deriving DecidableEq

/-- A block's bonded-mining authorisation. -/
structure MinerAuth where
  bondId : Bytes32
  signature : SchnorrSig
  deriving DecidableEq

/-- A block. -/
structure Batch where
  prevMidstate : Bytes32
  prevHeaderHash : Bytes32
  body : Transaction
  coinbase : Option Coinbase
  extension : Extension
  timestamp : Nat
  target : Bytes32
  stateRoot : Bytes32
  auxPow : Option AuxPow
  registrations : List BondRegistration
  miner : Option MinerAuth
  relay : Option RelayHeaders
  /-- The chain's fork-choice weight once this block is applied. -/
  chainWeight : Nat
  deriving DecidableEq

structure BatchHeader where
  height : Nat
  prevMidstate : Bytes32
  postTxMidstate : Bytes32
  extension : Extension
  timestamp : Nat
  target : Bytes32
  stateRoot : Bytes32
  prevHeaderHash : Bytes32
  signer : Option Bytes32
  chainWeight : Nat
  auxPow : Option AuxPow
  deriving DecidableEq

/-- The bond that signed a block, if any. -/
def Batch.signer (b : Batch) : Option Bytes32 := b.miner.map MinerAuth.bondId

def Batch.weight (b : Batch) : Nat :=
  b.body.weight + (b.coinbase.map Coinbase.weight).getD 0 +
    (b.registrations.map BondRegistration.weight).sum + (b.relay.map RelayHeaders.weight).getD 0

variable [Primitives]

/-- Stable 32-byte network identity. -/
def networkAnchor : Bytes32 :=
  hashDomain (Bytes.ascii "midwimble.network-anchor.v1") [bitcoinBlockHash, networkMagic]

/-- Leaf committed into the UTXO accumulator, covering every field of the entry. -/
def utxoLeaf (commitment : Point32) (entry : UtxoEntry) : Bytes32 :=
  hashDomain (Bytes.ascii "midwimble.utxo-leaf.v1")
    [commitment.toBytes, entry.outputHash.toBytes, entry.ownerKey.toBytes,
      entry.recoveryCommitment.toBytes, Bytes.le 8 entry.height,
      [if entry.coinbase then 1 else 0]]

def StateRootParts.root (p : StateRootParts) : Bytes32 :=
  hashDomain (Bytes.ascii "midwimble.state-root.v1")
    [p.utxoRoot.toBytes, p.kernelRoot.toBytes, p.chainMmrRoot.toBytes,
      p.kernelExcessSum.toBytes, p.totalKernelOffset.toBytes, Bytes.le 8 p.supply,
      p.bondsRoot.toBytes, p.relayRoot.toBytes]

namespace State

/-- What fork choice compares: cumulative work, less what the caps withheld. -/
def weight (s : State) : Nat := s.depth - s.capped

/-- The state before genesis is applied. -/
def genesis : State :=
  let initial := hashDomain (Bytes.ascii "midwimble.genesis.v1")
    [networkAnchor.toBytes, Bytes.le 8 bitcoinBlockHeight, midstateBlockHashHex,
      Bytes.le 8 midstateBlockHeight, genesisInscription]
  { mwMidstate := initial
    bonds := .empty
    relay := .genesis
    signers := .empty
    workFloor := []
    effects := .empty
    capped := 0
    utxos := ∅
    utxoSet := .new
    kernels := .new
    kernelExcessSum := identity
    totalKernelOffset := 0
    supply := 0
    depth := 0
    target := genesisTarget
    height := 0
    timestamp := genesisTimestamp
    chainMmr := .new
    headerHash := initial }

/-- The pieces `stateRoot` hashes. -/
def rootParts (s : State) : StateRootParts where
  utxoRoot := s.utxoSet.root true
  bondsRoot := s.bonds.root
  relayRoot := s.relay.commitment
  kernelRoot := s.kernels.root true
  chainMmrRoot := s.chainMmr.root true
  kernelExcessSum := s.kernelExcessSum
  totalKernelOffset := s.totalKernelOffset
  supply := s.supply

/-- Commitment to everything consensus tracks. -/
def stateRoot (s : State) : Bytes32 := s.rootParts.root

/-- The parts the tip block's header committed to: the chain MMR is the one before the
tip's own hash was appended. -/
def checkpointParts (s : State) : StateRootParts :=
  { s.rootParts with chainMmrRoot := (s.chainMmr.truncated (s.height - 1)).root true }

/-- The whole-chain audit: the unspent set, less everything ever minted, against every
kernel excess and the total offset. -/
def verifySupply (s : State) : Result Unit := do
  let utxos ← sumPoints s.utxos.keys
  let excess ← Fallible.orBail (decompress s.kernelExcessSum) "corrupt kernel excess sum"
  let offset ← Fallible.orBail (scalarFromBytes s.totalKernelOffset) "corrupt total offset"
  Fallible.bailIf (utxos - (s.supply : Primitives.Scalar) • genG ≠ excess + offset • genH)
    "supply audit failed: unspent outputs do not match kernels and supply"

end State

/-- The hash midwimble miners grind on. -/
def computeHeaderHash (h : BatchHeader) : Bytes32 :=
  hash (h.prevHeaderHash.toBytes ++ h.postTxMidstate.toBytes ++ h.stateRoot.toBytes ++
    Bytes.le 8 h.timestamp ++ h.target.toBytes ++ encodeOption h.signer ++
    Bytes.le 16 h.chainWeight)

def MinerAuth.hash (a : MinerAuth) : Bytes32 :=
  hashDomain (Bytes.ascii "midwimble.miner-auth.v1")
    [a.bondId.toBytes, a.signature.e.toBytes, a.signature.s.toBytes]

/-- Folds a block's contents into the running midstate. -/
def foldMidstate (prevMidstate : Bytes32) (body : Transaction) (coinbase : Option Coinbase)
    (stateRoot : Bytes32) : Bytes32 :=
  let m := hashConcat prevMidstate.toBytes body.hash.toBytes
  let m := match coinbase with
    | some cb => hashConcat m.toBytes cb.hash.toBytes
    | none => m
  hashConcat m.toBytes stateRoot.toBytes

def registrationsHash (registrations : List BondRegistration) : Bytes32 :=
  hashDomain (Bytes.ascii "midwimble.registrations.v1")
    [encodeList BondRegistration.encode registrations]

/-- `foldBlock` without the miner's authorisation: what a bonded miner signs over. -/
def foldUnsigned (prevMidstate : Bytes32) (batch : Batch) : Bytes32 :=
  let m := foldMidstate prevMidstate batch.body batch.coinbase batch.stateRoot
  let m := if batch.registrations.isEmpty then m
    else hashConcat m.toBytes (registrationsHash batch.registrations).toBytes
  match batch.relay with
  | some relay => hashConcat m.toBytes relay.hash.toBytes
  | none => m

/-- Folds a whole block into the running midstate. -/
def foldBlock (prevMidstate : Bytes32) (batch : Batch) : Bytes32 :=
  let unsigned := foldUnsigned prevMidstate batch
  match batch.miner with
  | some auth => hashConcat unsigned.toBytes auth.hash.toBytes
  | none => unsigned

namespace Batch

/-- Header derived from the full batch; `height` is left for the caller. -/
def header (b : Batch) : BatchHeader where
  height := 0
  prevHeaderHash := b.prevHeaderHash
  prevMidstate := b.prevMidstate
  postTxMidstate := foldBlock b.prevMidstate b
  extension := b.extension
  timestamp := b.timestamp
  target := b.target
  stateRoot := b.stateRoot
  signer := b.signer
  chainWeight := b.chainWeight
  auxPow := b.auxPow

/-- The header with its block's height filled in. -/
def headerAt (b : Batch) (height : Nat) : BatchHeader := { b.header with height := height }

/-- The canonical genesis block: no transactions, no reward. -/
def genesis : Batch :=
  let state := State.genesis
  let stateRoot := state.stateRoot
  let body := Transaction.empty
  let chainWeight := satAdd128 state.weight (calculateWork state.target)
  let header : BatchHeader :=
    { height := 0
      prevHeaderHash := state.headerHash
      prevMidstate := state.mwMidstate
      postTxMidstate := foldMidstate state.mwMidstate body none stateRoot
      extension := ⟨0, 0⟩
      timestamp := state.timestamp
      target := state.target
      stateRoot := stateRoot
      signer := none
      chainWeight := chainWeight
      auxPow := none }
  { registrations := []
    miner := none
    relay := none
    chainWeight := chainWeight
    prevMidstate := state.mwMidstate
    prevHeaderHash := state.headerHash
    body := body
    coinbase := none
    extension := createExtension (computeHeaderHash header) 0
    timestamp := state.timestamp
    target := state.target
    stateRoot := stateRoot
    auxPow := none }

end Batch

end Midwimble
