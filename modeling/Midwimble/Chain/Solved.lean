import Midwimble.Chain.Genesis
import Midwimble.Core.Stealth
import Midwimble.Relay.Invariant

namespace Midwimble
open Fallible
set_option autoImplicit true

section Skipped

variable [Primitives] {batch : Batch} {s s' : State} {ts : List Nat}

theorem validateBlockContents_of_skipped
    (h : validateBlockContents batch height true subsidy relayFrom = .ok ())
    (hrelay : validateRelayed batch.relay false relayFrom = .ok ())
    (hbody : batch.body.verifyCrypto = .ok ())
    (hcoinbase : ∀ cb, batch.coinbase = some cb → cb.verifyCrypto = .ok ()) :
    validateBlockContents batch height false subsidy relayFrom = .ok () := by
  obtain ⟨hs, hr, -, fees, hf, hle, hpays⟩ := validateBlockContents_eq_ok.mp h
  refine validateBlockContents_eq_ok.mpr ⟨hs, hr, hrelay, fees, hf, hle, ?_⟩
  cases hpays with
  | genesis h0 hcb he => exact .genesis h0 hcb he
  | coinbase cb h0 hcb hv =>
    obtain ⟨ha, hstructure, hw, hapart, hsums, hsum, -⟩ := validateWithCoinbase_eq_ok.mp hv
    exact .coinbase cb h0 hcb (validateWithCoinbase_eq_ok.mpr
      ⟨ha, hstructure, hw, hapart, hsums, hsum, fun _ => ⟨hbody, hcoinbase cb hcb⟩⟩)
  | nothing h0 hcb hv =>
    obtain ⟨ha, hw, hsums, -⟩ := validateWithoutCoinbase_eq_ok.mp hv
    exact .nothing h0 hcb (validateWithoutCoinbase_eq_ok.mpr ⟨ha, hw, hsums, fun _ => hbody⟩)

theorem applyBatch_of_skipped (h : applyBatchInternal s batch ts now pre true = .ok s')
    (hheader : checkHeader s batch ts now none = .ok ())
    (hrelay : validateRelayed batch.relay false (relayStart (pruneBonds s ts).2 batch) = .ok ())
    (hbody : batch.body.verifyCrypto = .ok ())
    (hcoinbase : ∀ cb, batch.coinbase = some cb → cb.verifyCrypto = .ok ()) :
    applyBatch s batch ts now = .ok s' := by
  obtain ⟨hlinkage, -, b, hroot, rfl⟩ := applyBatchInternal_eq_ok.mp h
  have hcontents := validateBlockContents_of_skipped b.contents hrelay hbody hcoinbase
  exact applyBatchInternal_eq_ok.mpr ⟨hlinkage, hheader, { b with contents := hcontents }, hroot, rfl⟩

end Skipped

/-- Words under a hash that keeps what tells its preimages apart: of a proof of work the nonce and
then the hash before, of a kernel its excess, of an output group and of a record the commitment. -/
@[reducible] def racedPrimitives : Primitives :=
  { Primitives.words with
    blake3 := fun data =>
      if data.length = 110 then wordOf (data.drop 38)
      else if data.length = 40 then wordOf (data.drop 32)
      else if data.length = 32 then wordOf data
      else if data.length = 756 then wordOf (data.drop 724)
      else if data.length = 215 then wordOf (data.drop 38)
      else 0 }

local instance racedWords : Primitives := racedPrimitives

theorem hashTimes_raced (n : Nat) (x : Bytes32) : hashTimes n x = x := by
  induction n with
  | zero => rfl
  | succ n ih =>
    have hlen : x.toBytes.length = 32 := by simp [Bytes32.toBytes]
    have hword : hash x.toBytes = wordOf x.toBytes := by simp [hash, blake3, hlen]
    have hx := wordOf_toBytes x []
    rw [List.append_nil] at hx
    rw [hashTimes, hword, hx, ih]

theorem createExtension_raced (midstate : Bytes32) (nonce : Nat) :
    createExtension midstate nonce = ⟨nonce, wordOf (Bytes.le 8 nonce)⟩ := by
  have hlen : (midstate.toBytes ++ Bytes.le 8 nonce).length = 40 := by simp [Bytes32.toBytes]
  have hdrop : (midstate.toBytes ++ Bytes.le 8 nonce).drop 32 = Bytes.le 8 nonce :=
    List.drop_left' (by simp [Bytes32.toBytes])
  have hword : hash (midstate.toBytes ++ Bytes.le 8 nonce) = wordOf (Bytes.le 8 nonce) := by
    simp [hash, blake3, hlen, hdrop]
  rw [createExtension, hashTimes_raced, hword]

theorem verifyPow_raced {height nonce : Nat} {target miningHash : Bytes32}
    (halgo : powAlgoAt height = .blake3Chain) (hmeets : wordOf (Bytes.le 8 nonce) < target) :
    verifyPow height miningHash ⟨nonce, wordOf (Bytes.le 8 nonce)⟩ target none = .ok () := by
  rw [verifyPow, verifyPowWith, verifyExtensionWith_eq_ok, halgo]
  refine ⟨hmeets, ?_⟩
  simp only [PowJob.holds, createExtensionWith, createExtension_raced, BEq.rfl]

theorem powJobs_raced {headers : List HeaderLink}
    (hsolved : ∀ l ∈ headers, l.finalHash = wordOf (Bytes.le 8 l.nonce))
    (hheight : height + headers.length ≤ midstateWalkActivationHeight) :
    ∀ j ∈ RelayHeaders.powJobs height prev headers, j.holds := by
  induction headers generalizing height prev with
  | nil => exact fun j hj => absurd hj List.not_mem_nil
  | cons l rest ih =>
    rw [List.length_cons] at hheight
    intro j hj
    rcases List.mem_cons.mp hj with rfl | hj
    · have halgo : midstatePowAlgoAt height = .blake3Chain := by
        rw [midstatePowAlgoAt, if_neg (by omega)]
      simp only [PowJob.holds, halgo, createExtensionWith, createExtension_raced,
        hsolved l List.mem_cons_self, BEq.rfl]
    · exact ih (fun l hl => hsolved l (List.mem_cons_of_mem _ hl)) (by omega) j hj

theorem genesis_hash_raced : Batch.genesis.extension.finalHash = 0 := by
  show (createExtension _ _).finalHash = 0
  rw [createExtension_raced]
  decide

/-- The state after genesis, its hash worked out. -/
def racedFirst : State :=
  { State.first with
    headerHash := 0
    chainMmr := State.genesis.chainMmr.append 0 true }

theorem racedFirst_eq : racedFirst = State.first := by
  have hfirst := (genesisSteps []).next_eq
  rw [genesis_hash_raced] at hfirst
  rw [racedFirst, State.first, hfirst]

/-- The state a block leaves. -/
@[irreducible] def racedAfter (s : State) (blocks : List Batch) (batch : Batch) : State :=
  (applyBatchInternal s batch (blocks.map Batch.timestamp) batch.timestamp (some 0)
    true).toOption.getD .genesis

/-- The headers a block relays have the proof of work their nonces give. -/
def RelaySolved (relay : Option RelayHeaders) (start : Option Nat) : Prop :=
  match relay, start with
  | none, _ => True
  | some _, none => False
  | some relayed, some start => relayed.headers ≠ [] ∧
    relayed.headers.length ≤ maxRelayHeadersPerBlock ∧
      start + relayed.headers.length ≤ midstateWalkActivationHeight ∧
        ∀ l ∈ relayed.headers, l.finalHash = wordOf (Bytes.le 8 l.nonce)

instance (relay : Option RelayHeaders) (start : Option Nat) : Decidable (RelaySolved relay start) :=
  match relay, start with
  | none, _ => inferInstanceAs (Decidable True)
  | some _, none => inferInstanceAs (Decidable False)
  | some _, some _ => inferInstanceAs (Decidable (_ ∧ _ ∧ _ ∧ _))

theorem RelaySolved.validates (h : RelaySolved relay start) :
    validateRelayed relay false start = .ok () := by
  match relay, start with
  | none, _ => rfl
  | some relayed, some start =>
    obtain ⟨hne, hlen, hheight, hsolved⟩ := h
    have hpow : relayed.verifyPow start = .ok () := by
      rw [RelayHeaders.verifyPow, checkPowJobs_eq_ok (powJobs_raced hsolved hheight)]
    have hcount : ¬ (relayed.headers.isEmpty ∨
        relayed.headers.length > maxRelayHeadersPerBlock) := by
      rw [List.isEmpty_iff]
      exact not_or.mpr ⟨hne, Nat.not_lt.mpr hlen⟩
    simp only [validateRelayed, bailIf_neg hcount, bind_ok, Bool.false_eq_true, if_false,
      orBail_some, hpow]

/-- The block is accepted, at the nonce that solves it. -/
def RacedOn (s : State) (blocks : List Batch) (batch : Batch) : Prop :=
  (applyBatchInternal s batch (blocks.map Batch.timestamp) batch.timestamp (some 0)
      true).isOk = true ∧
    s.height ≠ 0 ∧ powAlgoAt s.height = .blake3Chain ∧
      batch.extension = ⟨batch.extension.nonce, wordOf (Bytes.le 8 batch.extension.nonce)⟩ ∧
        wordOf (Bytes.le 8 batch.extension.nonce) < batch.target ∧ batch.auxPow = none ∧
          batch.body.verifyCrypto = .ok () ∧
            batch.coinbase.all (fun cb => cb.verifyCrypto = .ok ()) = true ∧
              RelaySolved batch.relay
                (relayStart (pruneBonds s (blocks.map Batch.timestamp)).2 batch)

instance (s : State) (blocks : List Batch) (batch : Batch) : Decidable (RacedOn s blocks batch) :=
  inferInstanceAs (Decidable (_ ∧ _ ∧ _ ∧ _ ∧ _ ∧ _ ∧ _ ∧ _ ∧ _))

theorem RacedOn.accepted (h : RacedOn s blocks batch) :
    applyBatch s batch (blocks.map Batch.timestamp) batch.timestamp =
      .ok (racedAfter s blocks batch) := by
  obtain ⟨hok, hheight, halgo, hext, hmeets, haux, hbody, hcoinbase, hrelay⟩ := h
  rw [racedAfter]
  cases hs : applyBatchInternal s batch (blocks.map Batch.timestamp) batch.timestamp (some 0)
      true with
  | error e =>
    rw [hs] at hok
    cases hok
  | ok s' =>
    obtain ⟨-, hheader, -⟩ := applyBatchInternal_eq_ok.mp hs
    simp only [checkHeader, if_neg hheight, bind_eq_ok] at hheader
    obtain ⟨_, hstamp, -⟩ := hheader
    have hpow : ∀ miningHash,
        verifyPow s.height miningHash batch.extension batch.target batch.auxPow = .ok () := by
      intro miningHash
      rw [hext, haux]
      exact verifyPow_raced halgo hmeets
    apply applyBatch_of_skipped hs ?_ hrelay.validates hbody
    · intro cb hcb
      rw [hcb] at hcoinbase
      exact of_decide_eq_true hcoinbase
    · simp only [checkHeader, if_neg hheight, hstamp, bind_ok]
      exact hpow _

theorem RacedOn.chain (hraced : RacedOn s blocks batch) (h : Chain latest blocks s)
    (hlatest : batch.timestamp ≤ latest) :
    Chain latest (blocks ++ [batch]) (racedAfter s blocks batch) :=
  h.block hlatest hraced.accepted

theorem racedFirst_chain (latest : Nat) : Chain latest [.genesis] racedFirst := by
  rw [racedFirst_eq]
  exact Chain.genesis.block (Nat.zero_le _) (genesis_accepted 0)

section Blocks

def rushedPayload (height amount : Nat) : Bytes :=
  List.replicate 24 0 ++ ((Bytes.le 8 amount).reverse ++
    Bytes32.toBytes (BitVec.ofNat 256 height) ++ List.replicate 16 0)

local instance rushedWords : Primitives := Primitives.words

/-- What the payee's output shares with its spender. -/
def rushedSecret : Bytes32 := sharedSecret ((1 : Bytes32) • (1 : Bytes32))

def rushedOutput (height amount : Nat) : Output where
  commitment := compress (commit amount (BitVec.ofNat 256 height))
  ownerKey := compress (ownerTweak rushedSecret • genG + (1 : Bytes32))
  ephemeralKey := compress ((1 : Bytes32) • genG)
  viewTag := viewTag rushedSecret
  payload := rushedPayload height amount
  recoveryCommitment := recoveryCommitment 0 amount (BitVec.ofNat 256 height)
    (recoverySalt rushedSecret)

/-- The coinbase of a block at `height` that may pay `amount`. -/
def rushedCoinbase (height amount : Nat) : Coinbase where
  outputs := ⟨[rushedOutput height amount], List.replicate 672 0⟩
  kernel := Kernel.new .coinbase 0 0 (BitVec.ofNat 256 height) 0 0
  extra := 0

end Blocks

/-- An unsigned block that pays its whole reward to one payee. -/
def racedBlock (s : State) (nonce timestamp : Nat) : Batch where
  prevMidstate := s.mwMidstate
  prevHeaderHash := s.headerHash
  body := .empty
  coinbase := some (rushedCoinbase s.height (blockReward s.height))
  extension := ⟨nonce, wordOf (Bytes.le 8 nonce)⟩
  timestamp := timestamp
  target := s.target
  stateRoot := 0
  auxPow := none
  registrations := []
  miner := none
  relay := none
  chainWeight := s.weight + (weighBlock s s.bonds none s.target timestamp).credited

/-- The same block signed by the bond, the only one. -/
def signedBlock (s : State) (nonce timestamp : Nat) : Batch :=
  { racedBlock s nonce timestamp with
    miner := some ⟨0, ⟨0, 0⟩⟩
    chainWeight := s.weight + (capWork s.workFloor s.height (calculateWork s.target)).1 }

/-- A coin locked past a year of midstate blocks, in the state of the header above the root. -/
def minedBond : BondRegistration where
  proof :=
    { coin := ⟨⟨1, midstateBlockHeight + 200000, 0⟩, launchMinMiningBond, 0⟩
      midstateHeight := midstateBlockHeight + 1
      roots := ⟨0, 0, 0, some 0⟩
      smt := ⟨0, 1, List.replicate 256 ⟨0, true⟩⟩ }

/-- A block that relays enough headers to register the bond that signs it. -/
def bondedBlock (s : State) (nonce timestamp : Nat) : Batch :=
  { signedBlock s nonce timestamp with
    registrations := [minedBond]
    relay := some ⟨midstateBlockHash,
      minedLinks (fun height => wordOf (Bytes.le 8 height)) 61 (midstateBlockHeight + 1) 0⟩ }

/-- The block that gives way. -/
def oldBlock : Batch := racedBlock racedFirst 1 (genesisTimestamp + 1)

def oldState : State := racedAfter racedFirst [.genesis] oldBlock

def oldTop : Batch := racedBlock oldState 2 (genesisTimestamp + 2)

def oldTopState : State := racedAfter oldState [.genesis, oldBlock] oldTop

/-- The block in its place. -/
def newBlock : Batch := racedBlock racedFirst 3 (genesisTimestamp + 3)

def newState : State := racedAfter racedFirst [.genesis] newBlock

/-- The bond registers. -/
def newMiddle : Batch := bondedBlock newState 4 (genesisTimestamp + 4)

def newMiddleState : State := racedAfter newState [.genesis, newBlock] newMiddle

/-- The bond signs once the early phase is over. -/
def newTop : Batch := signedBlock newMiddleState 5 launchEarlyBondsUntil

def newTopState : State := racedAfter newMiddleState [.genesis, newBlock, newMiddle] newTop

theorem raced_blocks :
    RacedOn racedFirst [.genesis] oldBlock ∧
    RacedOn oldState [.genesis, oldBlock] oldTop ∧
    RacedOn racedFirst [.genesis] newBlock ∧
    RacedOn newState [.genesis, newBlock] newMiddle ∧
    RacedOn newMiddleState [.genesis, newBlock, newMiddle] newTop ∧
    (0 :: [oldBlock, oldTop, newBlock, newMiddle, newTop].map
      fun b => b.extension.finalHash).Nodup := by
  decide +kernel

theorem oldState_chain : Chain launchEarlyBondsUntil [.genesis, oldBlock] oldState :=
  raced_blocks.1.chain (racedFirst_chain _) (by decide)

theorem oldTopState_chain : Chain launchEarlyBondsUntil [.genesis, oldBlock, oldTop] oldTopState :=
  raced_blocks.2.1.chain oldState_chain (by decide)

theorem newState_chain : Chain launchEarlyBondsUntil [.genesis, newBlock] newState :=
  raced_blocks.2.2.1.chain (racedFirst_chain _) (by decide)

theorem newMiddleState_chain :
    Chain launchEarlyBondsUntil [.genesis, newBlock, newMiddle] newMiddleState :=
  raced_blocks.2.2.2.1.chain newState_chain (by decide)

theorem newTopState_chain :
    Chain launchEarlyBondsUntil [.genesis, newBlock, newMiddle, newTop] newTopState :=
  raced_blocks.2.2.2.2.1.chain newMiddleState_chain (by decide)

theorem newMiddle_registers : ∃ entry, newMiddleState.effects.bondsAdded = [(0, entry)] ∧
    entry.value < 2 ^ 64 ∧ entry.bondedUntil < 2 ^ 64 ∧ entry.provenHeight < 2 ^ 64 := by
  have hall : newMiddleState.effects.bondsAdded.map Prod.fst = [0] ∧
      ∀ p ∈ newMiddleState.effects.bondsAdded,
        p.2.value < 2 ^ 64 ∧ p.2.bondedUntil < 2 ^ 64 ∧ p.2.provenHeight < 2 ^ 64 := by
    decide +kernel
  obtain ⟨hkeys, hall⟩ := hall
  obtain ⟨⟨id, entry⟩, hone, hkey⟩ := List.map_eq_singleton_iff.mp hkeys
  obtain rfl : id = 0 := hkey
  rw [hone] at hall
  exact ⟨entry, hone, hall _ List.mem_cons_self⟩

end Midwimble
