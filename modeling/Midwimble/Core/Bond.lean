import Mathlib.Data.List.DropRight
import Mathlib.Data.List.MinMax
import Midwimble.Core.Mmr
import Midwimble.Core.Relay
import Midwimble.Core.Transaction

namespace Midwimble
set_option autoImplicit true

def midstateV2ActivationHeight : Nat := 100000
def midstateV4ActivationHeight : Nat := 163675
def midstateGenesisTimestamp : Nat := 1772274770
def clockMargin : Nat := 7 * 24 * 60
def bondRetargetDelay : Nat := 30 * 24 * 60 * 60
def bondRetargetFrom : Nat := satAdd64 launchEarlyBondsUntil bondRetargetDelay
def workDoublingsPerBondDoubling : Nat := 4
def maxBondDoublings : Nat := 2
def registrationWorkBlocks : Nat := 24 * 60
def registrationMinHeaders : Nat := 60
def bondedMiningFrom : Nat := 1
def maxRegistrationsPerBlock : Nat := 1
def registrationWeight : Nat := 256
def maxBondHorizon : Nat := 365 * 24 * 60

/-- Unsigned 128-bit saturating multiplication. -/
def satMul128 (a b : Nat) : Nat := min (a * b) u128Max

/-- The minimums a bond must meet to authorise a block. -/
structure BondRules where
  minBond : Nat
  minLock : Nat
  /-- End of the early phase, as a block timestamp; zero for none. -/
  earlyUntil : Nat
  earlyMinBond : Nat
  earlyMinLock : Nat

def bondRules : BondRules where
  minBond := launchMinMiningBond
  minLock := launchMinRemainingBondLock
  earlyUntil := launchEarlyBondsUntil
  earlyMinBond := launchEarlyMinMiningBond
  earlyMinLock := launchEarlyMinRemainingBondLock

/-- Midstate's height as judged from a midwimble block's timestamp, estimated high. -/
def estMidstateHeight (timestamp : Nat) : Nat :=
  (timestamp - midstateGenesisTimestamp) / 60 + clockMargin

namespace BondRules

def inEarlyPhase (r : BondRules) (blockTimestamp : Nat) : Bool := blockTimestamp < r.earlyUntil

def minBondAt (r : BondRules) (blockTimestamp : Nat) : Nat :=
  if r.inEarlyPhase blockTimestamp then r.earlyMinBond else r.minBond

def minLockAt (r : BondRules) (blockTimestamp : Nat) : Nat :=
  if r.inEarlyPhase blockTimestamp then r.earlyMinLock else r.minLock

def eligible (r : BondRules) (value bondedUntil blockTimestamp : Nat) : Bool :=
  value ≥ r.minBondAt blockTimestamp ∧
    bondedUntil ≥ satAdd64 (estMidstateHeight blockTimestamp) (r.minLockAt blockTimestamp)

/-- Whether the early phase asks less than the full rules, never more. -/
def earlyPhaseAsksLess (r : BondRules) : Bool :=
  r.earlyMinBond ≤ r.minBond ∧ r.earlyMinLock ≤ r.minLock

end BondRules

def inEarlyPhase (blockTimestamp : Nat) : Bool := bondRules.inEarlyPhase blockTimestamp

def minMiningBond (blockTimestamp : Nat) : Nat := bondRules.minBondAt blockTimestamp

def eligible (value bondedUntil blockTimestamp : Nat) : Bool :=
  bondRules.eligible value bondedUntil blockTimestamp

/-- Whole doublings of work per block since launch; negative if the chain is easier. -/
def workDoublingsSinceGenesis (midwimbleTarget : Bytes32) : Int :=
  let bits (target : Bytes32) : Int := Nat.log2 (max (calculateWork target) 1)
  bits midwimbleTarget - bits genesisTarget

/-- Smallest bond a registration in a block with this target and timestamp may lock. -/
def registrationMinBond (midwimbleTarget : Bytes32) (blockTimestamp : Nat) : Nat :=
  let floor := minMiningBond blockTimestamp
  if blockTimestamp < bondRetargetFrom then floor
  else
    let doublings := (workDoublingsSinceGenesis midwimbleTarget).tdiv
      workDoublingsPerBondDoubling
    floor <<< (min (max doublings 0) maxBondDoublings).toNat

/-- The locking script of a mining bond. -/
structure BondScript where
  miningKey : Bytes32
  bondedUntil : Nat
  ownerPk : Bytes32
  deriving DecidableEq

/-- A midstate coin locked by a bond script. -/
structure BondCoin where
  script : BondScript
  value : Nat
  salt : Bytes32
  deriving DecidableEq

/-- What a midstate header's `state_root` commits to. -/
structure MidstateRoots where
  coins : Bytes32
  commitments : Bytes32
  chainMmr : Bytes32
  /-- Present exactly when the header is at or above V4 activation. -/
  burnedWots : Option Bytes32
  deriving DecidableEq

/-- Evidence that a bond coin was unspent in one midstate header's state. -/
structure BondProof where
  coin : BondCoin
  midstateHeight : Nat
  roots : MidstateRoots
  smt : UtxoProof
  deriving DecidableEq

/-- A bond proven to exist, unspent, at a midstate height. -/
structure Bond where
  id : Bytes32
  miningKey : Bytes32
  value : Nat
  bondedUntil : Nat
  provenAt : Nat
  deriving DecidableEq

structure BondRegistration where
  proof : BondProof
  deriving DecidableEq

/-- A registered bond as the chain's state holds it, keyed by bond id. -/
structure BondEntry where
  miningKey : Bytes32
  value : Nat
  bondedUntil : Nat
  /-- The relay entry the bond was proven against. -/
  provenHeight : Nat
  provenHash : Bytes32
  deriving DecidableEq

def BondEntry.eligibleAt (e : BondEntry) (blockTimestamp : Nat) : Bool :=
  eligible e.value e.bondedUntil blockTimestamp

/-- The registered bonds, with a sparse Merkle commitment kept up to date. -/
structure BondSet where
  entries : Std.ExtTreeMap Bytes32 BondEntry
  leaves : UtxoAccumulator
  deriving DecidableEq

/-- A script push: the opcode, a 16-bit length and the data. -/
def pushData (data : Bytes) : Bytes := 0x01 :: Bytes.le 2 data.length ++ data

/-- Midstate's minimal little-endian integer encoding. -/
def intBytes (v : Nat) : Bytes :=
  match (Bytes.le 8 v).rdropWhile (· = 0) with
  | [] => [0]
  | b :: bs => b :: bs

def BondScript.toBytecode (s : BondScript) : Bytes :=
  pushData s.miningKey.toBytes ++ [0x10] ++ pushData (intBytes s.bondedUntil) ++ [0x33] ++
    pushData s.ownerPk.toBytes ++ [0x32] ++ pushData (intBytes 1)

/-- The bincode form of an optional hash. -/
def encodeOption (h : Option Bytes32) : Bytes :=
  match h with
  | none => [0]
  | some x => 1 :: x.toBytes

def BondRegistration.encode (r : BondRegistration) : Bytes :=
  let p := r.proof
  p.coin.script.miningKey.toBytes ++ Bytes.le 8 p.coin.script.bondedUntil ++
    p.coin.script.ownerPk.toBytes ++ Bytes.le 8 p.coin.value ++ p.coin.salt.toBytes ++
    Bytes.le 8 p.midstateHeight ++ p.roots.coins.toBytes ++ p.roots.commitments.toBytes ++
    p.roots.chainMmr.toBytes ++ encodeOption p.roots.burnedWots ++
    Bytes.le 8 p.smt.leafIndex ++ Bytes.le 8 p.smt.leafCount ++
    encodeList (fun s => s.hash.toBytes ++ [if s.isRight then 1 else 0]) p.smt.siblings

variable [Primitives]

/-- The midstate address holding the bond: the hash of its script. -/
def BondScript.address (s : BondScript) : Bytes32 := hash s.toBytecode

/-- The midstate coin id, which also serves as the bond's id. -/
def BondCoin.coinId (c : BondCoin) : Bytes32 := midstateCoinId c.script.address c.value c.salt

/-- The `state_root` a midstate header at `height` carries for these roots. -/
def MidstateRoots.stateRoot (r : MidstateRoots) (height : Nat) : Result Bytes32 :=
  let smt := hashConcat r.coins.toBytes r.commitments.toBytes
  let root := hashConcat smt.toBytes r.chainMmr.toBytes
  match decide (height ≥ midstateV4ActivationHeight), r.burnedWots with
  | true, some burned => .ok (hashConcat root.toBytes burned.toBytes)
  | false, none => .ok root
  | _, _ => .error s!"burned-WOTS root does not fit a header at height {height}"

/-- Checks the bond coin is in the UTXO set the header at `midstateHeight` commits to. -/
def BondProof.verify (p : BondProof) (headerStateRoot : Bytes32) : Result Bond := do
  Fallible.bailIf (p.midstateHeight < midstateV2ActivationHeight)
    "bonds are only recognised against midstate's V2 state"
  let root ← p.roots.stateRoot p.midstateHeight
  Fallible.bailIf (root ≠ headerStateRoot)
    "roots do not match the midstate header's state root"
  let id := p.coin.coinId
  Fallible.bailIf (!verifyUtxoProof id p.smt p.roots.coins true)
    "bond coin is not in midstate's UTXO set at that height"
  .ok ⟨id, p.coin.script.miningKey, p.coin.value, p.coin.script.bondedUntil, p.midstateHeight⟩

/-- The work a registration in a block with this target must show. -/
def registrationWork (midwimbleTarget : Bytes32) : Nat :=
  satMul128 (calculateWork midwimbleTarget) registrationWorkBlocks

/-- The most any one header above a bond's header is credited with. -/
def registrationCap (midwimbleTarget : Bytes32) : Nat :=
  max (registrationWork midwimbleTarget / registrationMinHeaders) 1

namespace BondRegistration

/-- The bond's id: its midstate coin id. -/
def bondId (r : BondRegistration) : Bytes32 := r.proof.coin.coinId

def eligibleAt (r : BondRegistration) (blockTimestamp : Nat) : Bool :=
  eligible r.proof.coin.value r.proof.coin.script.bondedUntil blockTimestamp

def weight (_ : BondRegistration) : Nat := registrationWeight

/-- Verifies a registration in a block with `midwimbleTarget`, against the relay as that
block leaves it. -/
def verify (r : BondRegistration) (relay : Relay) (midwimbleTarget : Bytes32) :
    Result BondEntry := do
  let height := r.proof.midstateHeight
  let header ← Fallible.orBail ((relay.get height).filter fun e => !e.isRoot)
    s!"the bond's midstate header (height {height}) is not on the relay's chain: relay it first"
  let bond ← r.proof.verify header.stateRoot
  let required := registrationWork midwimbleTarget
  let credited := relay.creditedAbove height (registrationCap midwimbleTarget)
  Fallible.bailIf (credited < required)
    s!"{credited} units of relayed midstate work above the bond's header; a block at this target requires {required}"
  .ok ⟨bond.miningKey, bond.value, bond.bondedUntil, height, header.hash⟩

/-- Whether this registration has gone stale on `relay`. -/
def proofIsStale (r : BondRegistration) (relay : Relay) : Bool :=
  let height := r.proof.midstateHeight
  if height > relay.tip.height then false
  else match relay.get height with
    | some e => if e.isRoot then true else
      match r.proof.verify e.stateRoot with
      | .ok _ => false
      | .error _ => true
    | none => true

end BondRegistration

/-- The leaf a bond contributes to the bond set's commitment. -/
def bondLeaf (id : Bytes32) (entry : BondEntry) : Bytes32 :=
  hashDomain (Bytes.ascii "midwimble.bond-leaf.v1")
    [id.toBytes, entry.miningKey.toBytes, Bytes.le 8 entry.value, Bytes.le 8 entry.bondedUntil,
      Bytes.le 8 entry.provenHeight, entry.provenHash.toBytes]

namespace BondSet

def empty : BondSet := ⟨∅, .new⟩

def get (b : BondSet) (id : Bytes32) : Option BondEntry := b.entries[id]?

/-- Adds or replaces a bond, returning the entry it replaced. -/
def insert (b : BondSet) (id : Bytes32) (entry : BondEntry) : Option BondEntry × BondSet :=
  let old := b.entries[id]?
  let leaves := match old with
    | some o => b.leaves.remove (bondLeaf id o)
    | none => b.leaves
  (old, ⟨b.entries.insert id entry, (leaves.insert (bondLeaf id entry)).2⟩)

def remove (b : BondSet) (id : Bytes32) : BondSet :=
  match b.entries[id]? with
  | none => b
  | some old => ⟨b.entries.erase id, b.leaves.remove (bondLeaf id old)⟩

/-- The commitment the state root carries. -/
def root (b : BondSet) : Bytes32 := b.leaves.root true

/-- Removes every bond that `drop` names and returns them in id order. -/
def removeWhere (b : BondSet) (drop : BondEntry → Bool) :
    List (Bytes32 × BondEntry) × BondSet :=
  let dropped := b.entries.toList.filter fun p => drop p.2
  (dropped, dropped.foldl (fun s p => s.remove p.1) b)

/-- Removes every bond that is not eligible at `earliestTimestamp`. -/
def pruneExpired (b : BondSet) (earliestTimestamp : Nat) :
    List (Bytes32 × BondEntry) × BondSet :=
  b.removeWhere fun e => !e.eligibleAt earliestTimestamp

/-- Removes every bond proven against a midstate header above `height`. -/
def revokeAbove (b : BondSet) (height : Nat) : List (Bytes32 × BondEntry) × BondSet :=
  b.removeWhere fun e => e.provenHeight > height

end BondSet

/-- The checks of `precheck_registrations` on one registration. -/
def precheckRegistration (bonds : BondSet) (horizon minBond blockTimestamp : Nat)
    (registration : BondRegistration) : Result Unit := do
  let id := registration.bondId
  Fallible.bailIf (bonds.get id).isSome s!"bond {hexEncode id} is already registered"
  let value := registration.proof.coin.value
  let bondedUntil := registration.proof.coin.script.bondedUntil
  let suffix :=
    if minBond > minMiningBond blockTimestamp then " at this block's difficulty"
    else if launchEarlyBondsUntil > 0 ∧ !inEarlyPhase blockTimestamp then
      " now that the early phase is over"
    else ""
  Fallible.bailIf (value < minBond)
    s!"bond {hexEncode id} locks {value} units; a mining bond is at least {minBond}{suffix}"
  Fallible.bailIf (bondedUntil > horizon)
    s!"bond {hexEncode id} is locked until midstate height {bondedUntil}; a registration may lock at most to {horizon}"
  Fallible.bailIf (!eligible value bondedUntil blockTimestamp)
    s!"bond {hexEncode id} is not eligible at this block's time: its lock ends too soon"

/-- The cheap, stateful checks on a block's registrations. -/
def precheckRegistrations (bonds : BondSet) (registrations : List BondRegistration)
    (midwimbleTarget : Bytes32) (blockTimestamp : Nat) : Result Unit :=
  Fallible.checkAll (precheckRegistration bonds
    (satAdd64 (estMidstateHeight blockTimestamp) maxBondHorizon)
    (registrationMinBond midwimbleTarget blockTimestamp) blockTimestamp) registrations

end Midwimble
