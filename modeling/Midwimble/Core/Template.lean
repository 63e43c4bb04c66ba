import Midwimble.Core.Stealth
import Midwimble.Core.State

namespace Midwimble
set_option autoImplicit true

/-- Block weight kept free for a registration when choosing what to relay. -/
def registrationRoom : Nat := 256

/-- A bond someone else locked naming this producer's mining key. -/
structure CoBond where
  bondId : Bytes32
  registration : Option BondRegistration
  midstate : Option MidstateHeaders

/-- Splits `total` in proportion to weight: floors first, then the remaining units to the largest
remainders, earlier payees on ties. -/
def splitByWeight (total : Nat) (weights : List (κ × Nat)) : Result (List (κ × Nat)) := do
  let sum := (weights.map Prod.snd).sum
  Fallible.bailIf (sum = 0) "payout weights sum to zero"
  let out := weights.map fun p => (p.1, total * p.2 / sum)
  let remainders := weights.map fun p => total * p.2 % sum
  let paid := (out.map Prod.snd).sum
  let order := (List.range weights.length).insertionSort fun a b =>
    remainders.getD b 0 < remainders.getD a 0 ∨
      (remainders.getD b 0 = remainders.getD a 0 ∧ a ≤ b)
  let lucky := order.take (total - paid)
  .ok ((out.zipIdx.map fun p => if p.2 ∈ lucky then (p.1.1, p.1.2 + 1) else p.1).filter
    fun p => p.2 > 0)

variable [Primitives]

/-- What a block producer needs in order to mine under a bond. -/
structure MinerBond where
  secret : Primitives.Scalar
  bondId : Bytes32
  registration : Option BondRegistration
  midstate : Option MidstateHeaders
  coBonds : List CoBond

namespace MinerBond

def miningKey (b : MinerBond) : Bytes32 := compress (b.secret • genG)

/-- Of this producer's registered, eligible bonds, the one with the most quota left. -/
def signerFor (b : MinerBond) (bonds : BondSet) (counts : Std.ExtTreeMap Bytes32 Nat)
    (blockTimestamp : Nat) : Option Bytes32 :=
  ((b.bondId :: b.coBonds.map CoBond.bondId).filter fun id =>
    (bonds.get id).any fun e => e.miningKey = b.miningKey && e.eligibleAt blockTimestamp).argmin
      fun id => counts[id]?.getD 0

/-- `sign`. `aux` is the signature's fresh randomness. -/
def sign (b : MinerBond) (message aux : Bytes32) : SchnorrSig := schnorrSign b.secret message aux

end MinerBond

structure BlockTemplate where
  /-- The batch with a zeroed extension. -/
  batch : Batch
  miningHash : Bytes32
  height : Nat
  fees : Nat
  /-- What this block's coinbase may mint. -/
  subsidy : Nat
  deriving DecidableEq

/-- The randomness a template draws: the coinbase's, the coinbase's paid again at the
tapered figure, and the miner signature's. -/
structure TemplateDraw where
  coinbase : CoinbaseDraw
  repaid : CoinbaseDraw
  signature : Bytes32

/-- A copy of `template` with `extra` in its coinbase, signed again under the same bond. -/
def rebind (template : BlockTemplate) (extra : Bytes32) (bond : Option MinerBond)
    (aux : Bytes32) : Result BlockTemplate :=
  match template.batch.coinbase with
  | none => .ok template
  | some coinbase => do
    let batch := { template.batch with coinbase := some { coinbase with extra := extra } }
    let batch ← match template.batch.miner with
      | none => .ok batch
      | some auth => do
        let bond ← Fallible.orBail bond
          "the template is signed but no mining bond is configured"
        let message := authorizationMessage batch.prevMidstate batch
        .ok { batch with miner := some ⟨auth.bondId, bond.sign message aux⟩ }
    .ok { template with
      batch := batch
      miningHash := computeHeaderHash (batch.headerAt template.height) }

/-- What a producer hears when its own bond's registration fails with `e`. -/
def registrationNotReady (registration : BondRegistration) (relay : Relay) (e : Err) : Err :=
  if registration.proofIsStale relay then
    s!"the mining bond's registration can no longer verify: its proof is against midstate height {registration.proof.midstateHeight}, and the relay (midstate heights {relay.base.height}..={relay.tip.height}) no longer holds that header. The bond coin is still locked, so a fresh proof registers it: re-run `midwimble bond register`, which takes a new proof when the old one has gone stale, then restart the node with the updated bond file"
  else
    s!"the mining bond's registration does not verify yet ({e.full}): the relay must hold its midstate header under a day of midwimble's work. Run the node with --midstate-rpc, or re-run `midwimble bond register` so the bond file carries the headers, then restart the node"

/-- Whether the chain's relay would accept this run. -/
def relayAccepts (state : State) (run : RelayHeaders) (timestamp : Nat) : Bool :=
  (state.relay.extend run timestamp).1.isOk

/-- A run cut to the room left and to headers not stamped too far past the block. -/
def trimRun (room timestamp : Nat) (run : RelayHeaders) : Option RelayHeaders :=
  let latest := satAdd64 timestamp relayMaxFuture
  let headers := (run.headers.take room).takeWhile fun h => h.timestamp ≤ latest
  if headers.isEmpty then none else some ⟨run.prev, headers⟩

/-- A feed's run for a block on `state`, if the relay would accept it. -/
def relayFromFeed (state : State) (room timestamp : Nat) (feed : RelayFeed) :
    Option RelayHeaders :=
  ((feed.nextFor state.relay).bind (trimRun room timestamp)).filter fun run =>
    relayAccepts state run timestamp

/-- The midstate headers the producer's bonds carry, for those the chain lacks. -/
def carriedHeaders (state : State) (bond : Option MinerBond) : List MidstateHeaders :=
  match bond with
  | none => []
  | some b =>
    (((b.bondId, b.midstate) :: b.coBonds.map fun c => (c.bondId, c.midstate)).filter
      fun p => !(state.bonds.get p.1).isSome).filterMap Prod.snd

/-- The midstate headers a block on `state` should relay, in at most `room` headers. -/
def chooseRelay (state : State) (feed : Option RelayFeed) (bond : Option MinerBond)
    (room timestamp : Nat) : Option RelayHeaders :=
  match feed.bind (relayFromFeed state room timestamp) with
  | some run => some run
  | none => (carriedHeaders state bond).findSome? fun headers =>
    relayFromFeed state room timestamp (RelayFeed.empty.add headers true)

/-- The state after relaying what was chosen: its relay, and its bonds less the revoked. -/
def relayChosen (state : State) (relay : Option RelayHeaders) (timestamp : Nat) :
    Result State :=
  match relay with
  | none => .ok state
  | some r => do
    let (outcome, relay) := state.relay.extend r timestamp
    match outcome with
    | .error _ => .error (.panic "choose_relay only proposes runs the relay accepts")
    | .ok change =>
      let relayed := { state with relay := relay }
      match change.forkFrom with
      | none => .ok relayed
      | some fork => .ok { relayed with bonds := (relayed.bonds.revokeAbove fork).2 }

/-- What the producer's own bond brings to a block: a registration, or why it has none. -/
structure OwnBond where
  registrations : List BondRegistration
  notReady : Option Err
  retired : Bool

/-- Whether a registration would be accepted in a block on `relayed`. -/
def registrationReady (relayed : State) (target : Bytes32) (timestamp : Nat)
    (r : BondRegistration) : Result Unit :=
  match precheckRegistrations relayed.bonds [r] target timestamp with
  | .error e => .error s!"the mining bond cannot be registered now: {e.full}"
  | .ok () =>
    match r.verify relayed.relay target with
    | .error e => .error (registrationNotReady r relayed.relay e)
    | .ok _ => .ok ()

/-- The producer's own registration, until the chain has it. -/
def ownRegistration (relayed : State) (target : Bytes32) (timestamp : Nat)
    (bond : Option MinerBond) : OwnBond :=
  match bond.filter fun b => !(relayed.bonds.get b.bondId).isSome with
  | none => ⟨[], none, false⟩
  | some b =>
    match b.registration with
    | none => ⟨[], some "the mining bond is not registered on this chain and no registration is configured", false⟩
    | some registration =>
      -- A bond that cannot sign now never can again.
      if !registration.eligibleAt timestamp then ⟨[], none, true⟩
      else match registrationReady relayed target timestamp registration with
        | .ok () => ⟨[registration], none, false⟩
        | .error e => ⟨[], some e, false⟩

/-- The next co-bond's registration the chain would take. -/
def coRegistration (relayed : State) (target : Bytes32) (timestamp : Nat) (b : MinerBond) :
    Option BondRegistration :=
  ((b.coBonds.filter fun c => !(relayed.bonds.get c.bondId).isSome).filterMap
    CoBond.registration).find? fun r =>
      (precheckRegistrations relayed.bonds [r] target timestamp).isOk &&
        (r.verify relayed.relay target).isOk

/-- The registrations a block carries: the producer's own, or else a co-bond's. -/
def chooseRegistrations (relayed : State) (target : Bytes32) (timestamp : Nat)
    (bond : Option MinerBond) (own : OwnBond) : List BondRegistration :=
  if own.registrations.isEmpty ∧ own.notReady.isNone then
    (bond.bind (coRegistration relayed target timestamp)).toList
  else own.registrations

/-- Why a block that no bond of this producer can sign is not built. -/
def cannotSign (bond : Option MinerBond) (own : OwnBond) : Err :=
  match own.notReady with
  | some e => e
  | none =>
    match bond, own.retired with
    | some _, true =>
      "this producer's mining bond is not eligible at this block's time and never will be again (smaller than the network now requires, or its lock ends too soon); none of its co-bonds can sign, and other registered bonds can: lock and register a new bond"
    | some _, false =>
      "none of this producer's bonds can sign at this time, and other registered bonds can"
    | none, _ => s!"bonded mining is required from height {bondedMiningFrom}: configure a mining bond"

/-- The coinbase paying `amount`, if any, and a receipt per surviving payout. -/
def payCoinbase (amount : Nat) (payouts : List (StealthAddress × Nat)) (extra : Bytes32)
    (draw : CoinbaseDraw) :
    Result (Option Coinbase × List (StealthAddress × PayoutReceipt)) :=
  if amount = 0 then .ok (none, [])
  else do
    let split ← splitByWeight amount payouts
    let (cb, receipts) ← buildCoinbaseWith split extra draw
    .ok (some cb, (split.map Prod.fst).zip receipts)

/-- Signs a block under the chosen bond and checks the signature as the chain will. -/
def signBatch (bonds : BondSet) (mwMidstate : Bytes32) (batch : Batch)
    (bond : Option MinerBond) (signer : Option Bytes32) (aux : Bytes32) : Result Batch :=
  match bond, signer with
  | some bond, some signer => do
    let message := authorizationMessage mwMidstate batch
    let signed := { batch with miner := some ⟨signer, bond.sign message aux⟩ }
    checkMinerAuthorization bonds mwMidstate signed
    .ok signed
  | _, _ => .ok batch

/-- `build_template_relayed`. `now` is the producer's clock. -/
def buildTemplateRelayed (state : State) (previousTimestamps : List Nat)
    (txs : List Transaction) (payouts : List (StealthAddress × Nat)) (extra : Bytes32)
    (timestamp : Option Nat) (bond : Option MinerBond) (feed : Option RelayFeed) (now : Nat)
    (draw : TemplateDraw) :
    Result (BlockTemplate × List (StealthAddress × PayoutReceipt)) := do
  let height := state.height
  Fallible.bailIf (height = 0) "genesis is not mined"
  Fallible.bailIf (payouts.isEmpty ∨ payouts.length > maxGroupOutputs)
    s!"a coinbase pays 1..={maxGroupOutputs} addresses"
  let timestamp := timestamp.getD (max now (minNextTimestamp previousTimestamps))
  let (_, state) := pruneBonds state previousTimestamps
  let body ← Transaction.aggregate txs
  let fees ← body.fee
  let amount ← Fallible.orBail (checkedAdd64 (blockReward height) fees) "reward overflow"
  let (coinbase, receipts) ← payCoinbase amount payouts extra draw.coinbase
  let used := body.weight + (coinbase.map Coinbase.weight).getD 0 + registrationRoom
  let room := (maxBlockWeight - used) / relayWeightPerHeader
  let relay := chooseRelay state feed bond room timestamp
  let relayed ← relayChosen state relay timestamp
  let own := ownRegistration relayed state.target timestamp bond
  let registrations := chooseRegistrations relayed state.target timestamp bond own
  let registered ← registrations.mapM (verifyRegistration relayed.relay state.target)
  let bondsAfter := registered.foldl (fun bonds p => (bonds.insert p.1 p.2).2) relayed.bonds
  let signer := bond.bind fun b => b.signerFor bondsAfter state.signers.counts timestamp
  Fallible.bailIf (signer.isNone ∧ (bond.isSome ∨ height ≥ bondedMiningFrom) ∧
    anyCanSign bondsAfter timestamp) (cannotSign bond own)
  let credit := weighBlock state bondsAfter signer state.target timestamp
  let subsidy := subsidyFor signer credit.signers.counts bondsAfter height timestamp
  let (coinbase, receipts) ←
    if subsidy = blockReward height then .ok (coinbase, receipts)
    else do
      let amount ← Fallible.orBail (checkedAdd64 subsidy fees) "reward overflow"
      payCoinbase amount payouts extra draw.repaid
  let next ← applyBody relayed body coinbase subsidy
  let bonds ← registered.foldlM insertBond next.bonds
  let stateRoot := { next with bonds := bonds }.stateRoot
  let batch : Batch :=
    { prevMidstate := state.mwMidstate
      prevHeaderHash := state.headerHash
      body := body
      coinbase := coinbase
      registrations := registrations
      miner := none
      relay := relay
      chainWeight := satAdd128 state.weight credit.credited
      extension := ⟨0, 0⟩
      timestamp := timestamp
      target := state.target
      stateRoot := stateRoot
      auxPow := none }
  validateBlockContents batch height true subsidy (relayStart state batch)
  let batch ← signBatch bonds state.mwMidstate batch bond signer draw.signature
  .ok (⟨batch, computeHeaderHash (batch.headerAt height), height, fees, subsidy⟩, receipts)

/-- The order `select_transactions` tries candidates in: by fee per weight, highest first. -/
def paysAtLeast (a b : Transaction) : Prop :=
  let fee (t : Transaction) : Nat := match t.fee with
    | .ok f => f
    | .error _ => 0
  fee b * max a.weight 1 ≤ fee a * max b.weight 1

instance : DecidableRel paysAtLeast := fun _ _ => inferInstanceAs (Decidable (_ ≤ _))

/-- What `select_transactions` has chosen so far, and what would conflict with it. -/
structure Selection where
  chosen : List Transaction
  used : Nat
  spent : List Point32
  created : List Point32
  kernels : List Bytes32

namespace Selection

def empty : Selection := ⟨[], 0, [], [], []⟩

/-- Whether `tx` spends, creates or carries what a chosen transaction does. -/
def conflicts (s : Selection) (tx : Transaction) : Bool :=
  tx.inputCommitments.any (fun c => c ∈ s.spent ∨ c ∈ s.created) ||
    tx.outputCommitments.any (fun c => c ∈ s.created ∨ c ∈ s.spent) ||
    tx.kernelIds.any (fun k => k ∈ s.kernels)

/-- Whether `tx` is locked or would not fit. -/
def unfit (s : Selection) (height weightBudget : Nat) (tx : Transaction) : Bool :=
  tx.lockHeight > height ∨ s.used + tx.weight > weightBudget

def add (s : Selection) (tx : Transaction) : Selection where
  chosen := s.chosen ++ [tx]
  used := s.used + tx.weight
  spent := s.spent ++ tx.inputCommitments
  created := s.created ++ tx.outputCommitments
  kernels := s.kernels ++ tx.kernelIds

/-- One turn of the loop. -/
def consider (height weightBudget : Nat) (s : Selection) (tx : Transaction) : Selection :=
  if s.unfit height weightBudget tx then s
  else if s.conflicts tx then s
  else s.add tx

end Selection

/-- Picks transactions greedily by fee per weight until the block is full. -/
def selectTransactions (candidates : List Transaction) (height weightBudget : Nat) :
    List Transaction :=
  ((candidates.insertionSort paysAtLeast).foldl (Selection.consider height weightBudget)
    .empty).chosen

end Midwimble
