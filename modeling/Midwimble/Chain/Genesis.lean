import Midwimble.Chain.Accepted

namespace Midwimble
open Fallible
set_option autoImplicit true
variable [Primitives]

theorem empty_validateStructure : Transaction.empty.validateStructure .block = .ok () := by
  have h0 : scalarFromBytes 0#256 = some 0 := scalarFromBytes_zero
  simp [Transaction.validateStructure, Transaction.checkSize, Transaction.empty, bind_eq_ok,
    bailIf_eq_ok, Transaction.weight, Transaction.inputCommitments, Transaction.outputCount, h0,
    Transaction.kernelIds, Transaction.outputs, checkAll, checkUnique]

theorem aggregate_nil : Transaction.aggregate [] = .ok .empty := by
  have hs : Transaction.sumOffsets [] =
      .ok ((0 : Primitives.Scalar), (0 : Primitives.Scalar)) := rfl
  have hv := empty_validateStructure
  unfold Transaction.empty at hv
  simp only [Transaction.aggregate, hs, bind_ok, List.flatMap_nil, List.insertionSort_nil,
    List.map_nil, List.isChain_nil, not_true_eq_false, not_false_eq_true, bailIf_neg,
    Primitives.scalarToBytes_zero, hv]
  rfl

theorem genesis_contents :
    validateBlockContents .genesis 0 skip 0 relayFrom = .ok () :=
  validateBlockContents_eq_ok.mpr ⟨empty_validateStructure, Nat.zero_le _, rfl, 0, rfl,
    Nat.zero_le _, .genesis rfl rfl rfl⟩

/-- The steps of the genesis block's body. -/
def genesisBody : BodySteps .genesis Batch.genesis.body Batch.genesis.coinbase 0 where
  unlocked := by simp [Batch.genesis, Transaction.empty]
  spent := .genesis
  spends := rfl
  paid := .genesis
  pays := rfl
  rewarded := .genesis
  rewards := rfl
  excessBefore := 0
  excess_before := decompress_identity
  kernels := .new
  excessSum := 0
  sums := rfl
  total := 0
  total_before := scalarFromBytes_zero
  offset := 0
  offset_of_body := scalarFromBytes_zero
  no_overflow := Nat.zero_le _
  scheduled := Nat.zero_le _

theorem genesis_credited (target : Bytes32) (timestamp : Nat) :
    (weighBlock .genesis .empty none target timestamp).credited = calculateWork target := by
  simp [weighBlock, capWork, keepWindowOf, creditInWindow, State.genesis, bondedMiningFrom]

/-- The steps of the genesis block. -/
def genesisSteps (ts : List Nat) : BlockSteps .genesis .genesis ts false where
  change := ⟨[], [], none⟩
  revoked := []
  base := .genesis
  relayed := rfl
  registered := []
  bonds := .empty
  registers := rfl
  signed := rfl
  credit := weighBlock .genesis .empty none genesisTarget genesisTimestamp
  weighed := rfl
  claimed := by
    rw [genesis_credited]
    rfl
  subsidy := 0
  minted := rfl
  contents := genesis_contents
  body := genesisBody

/-- The state after genesis. -/
def State.first : State := (genesisSteps []).next

theorem genesis_root (ts : List Nat) :
    Batch.genesis.stateRoot = (genesisSteps ts).rooted.stateRoot := by
  have hr : (genesisSteps ts).rooted.rootParts = State.genesis.rootParts := by
    simp only [State.rootParts, BlockSteps.rooted, BodySteps.next, genesisSteps, genesisBody]
    rw [Primitives.compress_zero, add_zero, Primitives.scalarToBytes_zero]
    rfl
  rw [State.stateRoot, hr]
  rfl

theorem genesis_accepted (now : Nat) : applyBatch .genesis .genesis [] now = .ok .first :=
  applyBatchInternal_eq_ok.mpr
    ⟨by simp [checkLinkage, bailIf_eq_ok, bind_eq_ok, Batch.genesis],
      by simp [checkHeader, bailIf_eq_ok, State.genesis], genesisSteps [], genesis_root [], rfl⟩

theorem genesis_run : Run [.genesis] .first :=
  (Applies.start).block ⟨_, _, _, _, genesis_accepted 0⟩

end Midwimble
