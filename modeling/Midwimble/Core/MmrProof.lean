import Midwimble.Core.Snapshot

namespace Midwimble
set_option autoImplicit true

structure MmrProof where
  leafPos : Nat
  siblings : List ProofElement
  peakHashes : List Bytes32
  /-- Which of the peaks contains the leaf. -/
  peakIndex : Nat
  mmrSize : Nat
  deriving DecidableEq

namespace MerkleMountainRange

/-- The loop of `prove`: the siblings up to the containing peak, and the peak's position. -/
def climbToPeak (m : MerkleMountainRange) (peakPositions : List Nat) : (fuel : Nat) →
    List ProofElement → (pos height : Nat) → Option (List ProofElement × Nat)
  | 0, _, _, _ => none
  | fuel + 1, siblings, pos, height =>
    if pos ∈ peakPositions then some (siblings, pos)
    else
      let siblingDistance := 2 ^ (height + 1) - 1
      let rightSibling := pos + siblingDistance
      if rightSibling < m.nodes.length ∧ posHeight rightSibling = height then
        m.climbToPeak peakPositions fuel (siblings ++ [⟨m.nodes.getD rightSibling 0, true⟩])
          (rightSibling + 1) (height + 1)
      else if pos < siblingDistance ∨ m.nodes.length ≤ pos - siblingDistance then none
      else
        m.climbToPeak peakPositions fuel
          (siblings ++ [⟨m.nodes.getD (pos - siblingDistance) 0, false⟩]) (pos + 1) (height + 1)

/-- An inclusion proof for the leaf at a post-order position. -/
def prove (m : MerkleMountainRange) (leafPos : Nat) : Result MmrProof := do
  let sz := m.nodes.length
  Fallible.bailIf (leafPos ≥ sz) s!"position {leafPos} out of range (size {sz})"
  Fallible.bailIf (posHeight leafPos ≠ 0) s!"position {leafPos} is not a leaf"
  let peakPositions := peaks sz
  let (siblings, ourPeakPos) ← Fallible.orBail (m.climbToPeak peakPositions 64 [] leafPos 0)
    (.panic "node position out of bounds")
  let peakIndex ← Fallible.orBail (peakPositions.findIdx? (· == ourPeakPos))
    "internal invariant violated: climbed to non-peak"
  .ok ⟨leafPos, siblings, peakPositions.map fun p => m.nodes.getD p 0, peakIndex, sz⟩

/-- `append` with what it returns: the position of the new leaf. -/
def appendLeaf [Primitives] (m : MerkleMountainRange) (leafHash : Bytes32) (isV2 : Bool) :
    Nat × MerkleMountainRange :=
  (m.nodes.length, m.append leafHash isV2)

end MerkleMountainRange

/-- Peak values of an MMR, in position order. -/
def mmrPeakValues (mmr : MerkleMountainRange) : Result (List Bytes32) :=
  (peaks (mmrSize mmr.leafCount)).mapM fun p =>
    Fallible.orBail mmr.nodes[p]? s!"MMR missing peak {p}"

variable [Primitives]

/-- One step of the verifier's climb. -/
def ProofElement.above (elem : ProofElement) (isV2 : Bool) (current : Bytes32) : Bytes32 :=
  if elem.isRight then hashNode current elem.hash isV2 else hashNode elem.hash current isV2

/-- Checks an MMR inclusion proof against a known root. -/
def verifyMmrProof (leafHash : Bytes32) (proof : MmrProof) (expectedRoot : Bytes32)
    (isV2 : Bool) : Bool :=
  match proof.peakHashes.reverse with
  | [] => false
  | last :: rest =>
    if proof.peakIndex ≥ proof.peakHashes.length then false
    else
      let current := proof.siblings.foldl (fun current elem => elem.above isV2 current) leafHash
      if current ≠ proof.peakHashes.getD proof.peakIndex 0 then false
      else rest.foldl (fun acc peak => hashNode peak acc isV2) last == expectedRoot

end Midwimble
