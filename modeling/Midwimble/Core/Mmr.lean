import Std.Data.ExtTreeSet.Lemmas
import Midwimble.Core.Primitives

namespace Midwimble
set_option autoImplicit true

variable [Primitives]

def nodeTag : UInt8 := 0x01

def hashNode (left right : Bytes32) (isV2 : Bool) : Bytes32 :=
  blake3 ((if isV2 then [nodeTag] else []) ++ left.toBytes ++ right.toBytes)

/-- The first loop of `pos_height`: the height of the smallest perfect tree past `pos`. -/
def posHeightUp : (fuel h pos : Nat) → Nat
  | 0, h, _ => h
  | fuel + 1, h, pos => if 2 ^ (h + 1) - 1 ≤ pos then posHeightUp fuel (h + 1) pos else h

/-- The second loop of `pos_height`: descends to the subtree whose root is at `pos`. -/
def posHeightDown : (h pos : Nat) → Nat
  | 0, _ => 0
  | h + 1, pos =>
    if pos = 2 ^ (h + 2) - 2 then h + 1
    else
      let leftSubtreeSize := 2 ^ (h + 1) - 1
      posHeightDown h (if pos ≥ leftSubtreeSize then pos - leftSubtreeSize else pos)

/-- Height of the MMR node at a post-order position. -/
def posHeight (pos : Nat) : Nat := posHeightDown (posHeightUp 64 0 pos) pos

/-- `u64::count_ones`. -/
def countOnes : (bits n : Nat) → Nat
  | 0, _ => 0
  | bits + 1, n => n % 2 + countOnes bits (n / 2)

def mmrSize (n : Nat) : Nat := if n = 0 then 0 else 2 * n - countOnes 64 n

/-- The inner loop of `peaks`: the height of the largest perfect tree that fits. -/
def peakHeight : (fuel h remaining : Nat) → Nat
  | 0, h, _ => h
  | fuel + 1, h, remaining =>
    if 2 ^ (h + 1) - 1 ≤ remaining then peakHeight fuel (h + 1) remaining else h

def peaksLoop : (fuel offset remaining : Nat) → List Nat
  | 0, _, _ => []
  | fuel + 1, offset, remaining =>
    if remaining = 0 then []
    else
      let treeSize := 2 ^ peakHeight 64 1 remaining - 1
      if treeSize > remaining then []
      else (offset + treeSize - 1) :: peaksLoop fuel (offset + treeSize) (remaining - treeSize)

/-- Peak positions of an MMR of the given size, left to right. -/
def peaks (size : Nat) : List Nat := peaksLoop size 0 size

structure MerkleMountainRange where
  nodes : List Bytes32
  leafCount : Nat
  deriving DecidableEq

namespace MerkleMountainRange

def new : MerkleMountainRange := ⟨[], 0⟩

def truncated (m : MerkleMountainRange) (n : Nat) : MerkleMountainRange :=
  let n := min n m.leafCount
  ⟨m.nodes.take (mmrSize n), n⟩

/-- The merge cascade of `append`: adds parents while the node to the left of the last
one has its height. -/
def mergeUp (isV2 : Bool) : (fuel currentHeight : Nat) → List Bytes32 → List Bytes32
  | 0, _, nodes => nodes
  | fuel + 1, currentHeight, nodes =>
    let currentPos := nodes.length - 1
    let siblingDistance := 2 ^ (currentHeight + 1) - 1
    if currentPos < siblingDistance then nodes
    else
      let leftPos := currentPos - siblingDistance
      if posHeight leftPos ≠ currentHeight then nodes
      else
        let parentHash := hashNode (nodes.getD leftPos 0) (nodes.getD currentPos 0) isV2
        mergeUp isV2 fuel (currentHeight + 1) (nodes ++ [parentHash])

def append (m : MerkleMountainRange) (leafHash : Bytes32) (isV2 : Bool) :
    MerkleMountainRange :=
  ⟨mergeUp isV2 64 0 (m.nodes ++ [leafHash]), m.leafCount + 1⟩

/-- The peaks folded right to left; zero for the empty range. -/
def root (m : MerkleMountainRange) (isV2 : Bool) : Bytes32 :=
  match (peaks m.nodes.length).reverse with
  | [] => 0
  | last :: rest =>
    rest.foldl (fun acc pos => hashNode (m.nodes.getD pos 0) acc isV2) (m.nodes.getD last 0)

end MerkleMountainRange

/-- `get_empty_hash`: the root of an empty subtree of this height. -/
def getEmptyHash (isV2 : Bool) : (height : Nat) → Bytes32
  | 0 => 0
  | height + 1 =>
    let below := getEmptyHash isV2 height
    hashNode below below isV2

/-- The root of the subtree of this height over `coins`, in ascending order. -/
def computeSparseSubtree (isV2 : Bool) : (height : Nat) → List Bytes32 → Bytes32
  | 0, coins => coins.headD 0
  | height + 1, coins =>
    if coins.isEmpty then getEmptyHash isV2 (height + 1)
    else
      hashNode
        (computeSparseSubtree isV2 height (coins.takeWhile fun c => !c.getLsbD height))
        (computeSparseSubtree isV2 height (coins.dropWhile fun c => !c.getLsbD height)) isV2

/-- A sparse Merkle tree over a set of hashes, as the set it commits to. -/
structure UtxoAccumulator where
  coins : Std.ExtTreeSet Bytes32
  deriving DecidableEq

namespace UtxoAccumulator

def new : UtxoAccumulator := ⟨∅⟩

/-- Adds a coin; `false` if it was there. -/
def insert (a : UtxoAccumulator) (coin : Bytes32) : Bool × UtxoAccumulator :=
  if a.coins.contains coin then (false, a) else (true, ⟨a.coins.insert coin⟩)

def remove (a : UtxoAccumulator) (coin : Bytes32) : UtxoAccumulator :=
  ⟨a.coins.erase coin⟩

def root (a : UtxoAccumulator) (isV2 : Bool) : Bytes32 :=
  computeSparseSubtree isV2 256 a.coins.toList

end UtxoAccumulator

structure ProofElement where
  hash : Bytes32
  isRight : Bool
  deriving DecidableEq

structure UtxoProof where
  leafIndex : Nat
  leafCount : Nat
  siblings : List ProofElement
  deriving DecidableEq

/-- The climb of `verify_utxo_proof` from height `h`, refusing a sibling on the wrong side. -/
def climb (coin : Bytes32) (isV2 : Bool) : (h : Nat) → List ProofElement → Bytes32 →
    Option Bytes32
  | _, [], current => some current
  | h, elem :: rest, current =>
    if elem.isRight ≠ !coin.getLsbD h then none
    else
      climb coin isV2 (h + 1) rest
        (if elem.isRight then hashNode current elem.hash isV2
          else hashNode elem.hash current isV2)

def verifyUtxoProof (coin : Bytes32) (proof : UtxoProof) (expectedRoot : Bytes32)
    (isV2 : Bool) : Bool :=
  proof.siblings.length = 256 ∧ climb coin isV2 0 proof.siblings coin = some expectedRoot

end Midwimble
