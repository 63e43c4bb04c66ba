import Mathlib.Tactic.IntervalCases
import Midwimble.Merkle.Canonical
import Midwimble.Merkle.RangeProofs

namespace Midwimble
open Mountain
set_option autoImplicit true

/-- The sides of the siblings above a peak, among so many, when the peaks are bagged, top first. -/
def bagSides : (peakCount peakIndex : Nat) → List Bool
  | 0, _ => []
  | 1, _ => []
  | _ + 2, 0 => [true]
  | n + 2, i + 1 => false :: bagSides (n + 1) i

/-- The sides a proof goes by from the root down to its leaf. -/
def MmrProof.sides (proof : MmrProof) : List Bool :=
  bagSides proof.peakHashes.length proof.peakIndex ++ (proof.siblings.map (·.isRight)).reverse

/-- Which of the leaves the sides of a proof lead to. -/
def leadsTo (leaves : List Bytes32) (proof : MmrProof) : Option Nat :=
  (bagTree (treesOf leaves)).bind (HashTree.leafIndex proof.sides)

section Climb

variable [Primitives]

/-- The peaks folded right to left. -/
def bagPeaks (isV2 : Bool) : List Bytes32 → Bytes32
  | [] => 0
  | [peak] => peak
  | peak :: rest => hashNode peak (bagPeaks isV2 rest) isV2

theorem bagPeaks_cons (isV2 : Bool) (peak q : Bytes32) (rest : List Bytes32) :
    bagPeaks isV2 (peak :: q :: rest) = hashNode peak (bagPeaks isV2 (q :: rest)) isV2 := rfl

theorem bagPeaks_reverse (isV2 : Bool) (last : Bytes32) (rest : List Bytes32) :
    bagPeaks isV2 (rest.reverse ++ [last]) =
      rest.foldl (fun acc peak => hashNode peak acc isV2) last := by
  have key (peaks : List Bytes32) : bagPeaks isV2 (peaks ++ [last]) =
      peaks.foldr (fun peak acc => hashNode peak acc isV2) last := by
    induction peaks with
    | nil => rfl
    | cons peak peaks ih =>
      cases peaks with
      | nil => rfl
      | cons q peaks =>
        rw [List.cons_append, List.cons_append, bagPeaks_cons, ← List.cons_append, ih]
        rfl
  rw [key, List.foldr_reverse]

/-- The siblings above a peak when the peaks are bagged. -/
def bagClimb (isV2 : Bool) : List Bytes32 → Nat → List (Bytes32 × Bool)
  | [], _ => []
  | [_], _ => []
  | _ :: q :: rest, 0 => [(bagPeaks isV2 (q :: rest), true)]
  | peak :: q :: rest, i + 1 => bagClimb isV2 (q :: rest) i ++ [(peak, false)]

theorem foldl_bagClimb {peaks : List Bytes32} (hi : peaks[i]? = some peak) :
    (bagClimb isV2 peaks i).foldl (above (joinNodes isV2)) peak =
      bagPeaks isV2 peaks := by
  induction peaks generalizing i with
  | nil => cases hi
  | cons p rest ih =>
    cases rest with
    | nil =>
      cases i with
      | zero => exact (Option.some.inj hi).symm
      | succ i => cases hi
    | cons q rest =>
      cases i with
      | zero =>
        rw [← Option.some.inj hi]
        rfl
      | succ i =>
        rw [bagClimb, List.foldl_append, ih hi]
        rfl

theorem sides_bagClimb (isV2 : Bool) (peaks : List Bytes32) (i : Nat) :
    (bagClimb isV2 peaks i).reverse.map Prod.snd = bagSides peaks.length i := by
  induction peaks generalizing i with
  | nil => rfl
  | cons p rest ih =>
    cases rest with
    | nil => rfl
    | cons q rest =>
      cases i with
      | zero => rfl
      | succ i =>
        rw [bagClimb, List.reverse_append, List.map_append, ih]
        rfl

/-- All siblings from a proof's leaf to the root. -/
def MmrProof.climb (isV2 : Bool) (proof : MmrProof) : List (Bytes32 × Bool) :=
  proof.siblings.map (fun elem => (elem.hash, elem.isRight)) ++
    bagClimb isV2 proof.peakHashes proof.peakIndex

theorem sides_climb (isV2 : Bool) (proof : MmrProof) :
    (proof.climb isV2).reverse.map Prod.snd = proof.sides := by
  rw [MmrProof.climb, List.reverse_append, List.map_append, sides_bagClimb, MmrProof.sides,
    ← List.map_reverse, ← List.map_reverse, List.map_map]
  rfl

theorem climb_of_verify (hv : verifyMmrProof leaf proof root isV2 = true) :
    (proof.climb isV2).foldl (above (joinNodes isV2)) leaf = root := by
  rw [verifyMmrProof] at hv
  cases hr : proof.peakHashes.reverse with
  | nil =>
    rw [hr] at hv
    cases hv
  | cons last rest =>
    have hpeaks : proof.peakHashes = rest.reverse ++ [last] := by
      rw [← List.reverse_reverse proof.peakHashes, hr, List.reverse_cons]
    simp only [hr] at hv
    split at hv
    · cases hv
    · rename_i hlt
      split at hv
      · cases hv
      · rename_i hpeak
        rw [not_not] at hpeak
        have hget : proof.peakHashes[proof.peakIndex]? =
            some (proof.siblings.foldl (fun current elem => elem.above isV2 current) leaf) := by
          rw [hpeak, List.getD_eq_getElem _ _ (not_le.mp hlt), List.getElem?_eq_getElem]
        have hsib : (proof.siblings.map fun elem => (elem.hash, elem.isRight)).foldl
            (above (joinNodes isV2)) leaf =
              proof.siblings.foldl (fun current elem => elem.above isV2 current) leaf :=
          List.foldl_map
        rw [MmrProof.climb, List.foldl_append, hsib, foldl_bagClimb hget, hpeaks,
          bagPeaks_reverse]
        exact eq_of_beq hv

/-- The pairs hashed in the range of these leaves, bagging included. -/
def rangePairs (isV2 : Bool) (leaves : List Bytes32) : Set (Bytes32 × Bytes32) :=
  {p | ∃ t, bagTree (treesOf leaves) = some t ∧ p ∈ t.pairs (joinNodes isV2)}

/-- The pairs hashed on the way from a proof's leaf to the root. -/
def proofPairs (isV2 : Bool) (leaf : Bytes32) (proof : MmrProof) : Set (Bytes32 × Bytes32) :=
  climbPairs (joinNodes isV2) leaf (proof.climb isV2)

theorem Grown.root_bagTree (g : Grown isV2 leaves row m) (hn : leaves.length < 2 ^ 63)
    (ht : bagTree row = some t) : m.root isV2 = t.root (joinNodes isV2) := by
  have hroot := Mountain.root_bagTree (joinNodes isV2) row
  have hvalues : (row.map (HashTree.top (joinNodes isV2))).map Prod.snd =
      row.map (HashTree.root (joinNodes isV2)) := by
    rw [List.map_map]
    rfl
  rw [g.crested.root (by rw [g.leafCount]; exact hn), hvalues, ← hroot, ht]
  rfl

/-- A proof that verifies names the place of its leaf exactly when its sides lead to a leaf
equal to the one at that place: the verifier itself never reads the position. -/
theorem verified_position_iff (isV2 : Bool) (leaves : List Bytes32) (leafHash : Bytes32)
    (proof : MmrProof) (hn : leaves.length < 2 ^ 63)
    (hout : ∀ l ∈ leaves, ∀ a b, hashNode a b isV2 ≠ l)
    (hapart : HashesApart isV2 (rangePairs isV2 leaves ∪ proofPairs isV2 leafHash proof))
    (hv : verifyMmrProof leafHash proof
      ((MerkleMountainRange.new.appendAll isV2 leaves).root isV2) isV2 = true) :
    (∃ i, proof.leafPos = mmrSize i ∧ leaves[i]? = some leafHash) ↔
      ∃ i k, proof.leafPos = mmrSize i ∧ i < leaves.length ∧ leadsTo leaves proof = some k ∧
        leaves[k]? = leaves[i]? := by
  have g := grown_appendAll isV2 leaves hn
  cases ht : bagTree (treesOf leaves) with
  | none =>
    have hnone : leadsTo leaves proof = none := by rw [leadsTo, ht]; rfl
    have hempty : leaves = [] := by
      cases hrow : treesOf leaves with
      | nil =>
        rw [← g.overLeaves, hrow]
        rfl
      | cons t row =>
        rw [hrow] at ht
        cases ht
    subst hempty
    simp
  | some t =>
    have hover := (leaves_bagTree ht).trans g.overLeaves
    have hsub : t.pairs (joinNodes isV2) ∪ proofPairs isV2 leafHash proof ⊆
        rangePairs isV2 leaves ∪ proofPairs isV2 leafHash proof :=
      Set.union_subset_union_left _ fun p hp => ⟨t, ht, hp⟩
    have hclimb := climb_of_verify hv
    rw [g.root_bagTree hn ht] at hclimb
    obtain ⟨s, hs, hroot⟩ := descend_of_climb (Set.InjOn.mono hsub hapart)
      (by rw [hover]; exact hout) hclimb
    rw [sides_climb] at hs
    have hleads : leadsTo leaves proof = t.leafIndex proof.sides := by
      rw [leadsTo, ht]
      rfl
    constructor
    · rintro ⟨i, hpos, hi⟩
      cases s with
      | node left right => exact absurd hroot (hout _ (List.mem_of_getElem? hi) _ _)
      | leaf a =>
        obtain ⟨k, hk, hget⟩ := HashTree.leafIndex_of_descend hs
        rw [hover] at hget
        refine ⟨i, k, hpos, (List.getElem?_eq_some_iff.mp hi).1, hleads.trans hk, ?_⟩
        rw [hget, hi, show a = leafHash from hroot]
    · rintro ⟨i, k, hpos, _, hk, hget⟩
      rw [hleads] at hk
      obtain ⟨a, ha⟩ := HashTree.descend_of_leafIndex hk
      obtain ⟨k', hk', hget'⟩ := HashTree.leafIndex_of_descend ha
      rw [hk] at hk'
      rw [hs] at ha
      rw [Option.some.inj ha] at hroot
      rw [hover, ← Option.some.inj hk', hget, show a = leafHash from hroot] at hget'
      exact ⟨i, hpos, hget'⟩

end Climb

section Renamed

/-- Words under the mixing hash with its last bit set. -/
@[reducible] def mixingOdd : Primitives :=
  { Primitives.mixing with blake3 := fun data => Primitives.mixing.blake3 data ||| 1 }

local instance oddWords : Primitives := mixingOdd

/-- The proof of the first of the leaves two and four, with another position. -/
def renamed (pos : Nat) : MmrProof := ⟨pos, [⟨4, true⟩], [hashNode 2 4 true], 0, 3⟩

theorem even_not_hashed : ∀ l ∈ [(2 : Bytes32), 4], ∀ a b, hashNode a b true ≠ l := by
  intro l hl a b he
  have hodd : (hashNode a b true).getLsbD 0 = true := by
    show (Primitives.mixing.blake3 _ ||| 1).getLsbD 0 = true
    rw [BitVec.getLsbD_or]
    exact Bool.or_true _
  rw [he] at hodd
  rcases List.mem_cons.mp hl with rfl | hl
  · exact absurd hodd (by decide)
  · rw [List.mem_singleton.mp hl] at hodd
    exact absurd hodd (by decide)

theorem renamed_apart (pos : Nat) :
    HashesApart true (rangePairs true [2, 4] ∪ proofPairs true 2 (renamed pos)) := by
  have hone (p : Bytes32 × Bytes32)
      (hp : p ∈ rangePairs true [2, 4] ∪ proofPairs true 2 (renamed pos)) : p = (2, 4) := by
    rcases hp with ⟨t, ht, hp⟩ | hp
    · rw [← Option.some.inj ht] at hp
      simpa [HashTree.pairs, HashTree.root] using hp
    · simpa [proofPairs, MmrProof.climb, renamed, bagClimb, climbPairs] using hp
  intro p hp q hq _
  rw [hone p hp, hone q hq]

theorem verify_renamed (pos : Nat) : verifyMmrProof 2 (renamed pos)
    ((MerkleMountainRange.new.appendAll true [2, 4]).root true) true = true := by
  have hroot : (MerkleMountainRange.new.appendAll true [2, 4]).root true = hashNode 2 4 true := by
    decide +kernel
  rw [hroot]
  simp [verifyMmrProof, renamed, ProofElement.above]

theorem verified_position_iff_first :
    (∃ i, (renamed 0).leafPos = mmrSize i ∧ [(2 : Bytes32), 4][i]? = some 2) ↔
      ∃ i k, (renamed 0).leafPos = mmrSize i ∧ i < [(2 : Bytes32), 4].length ∧
        leadsTo [2, 4] (renamed 0) = some k ∧ [(2 : Bytes32), 4][k]? = [(2 : Bytes32), 4][i]? :=
  verified_position_iff true [2, 4] 2 (renamed 0) (by decide) even_not_hashed (renamed_apart 0)
    (verify_renamed 0)

/-- The proof of the first leaf verifies under the position of the second. -/
theorem verified_proof_misplaces :
    let m := MerkleMountainRange.new.appendAll true [2, 4]
    (∀ l ∈ [(2 : Bytes32), 4], ∀ a b, hashNode a b true ≠ l) ∧
    HashesApart true (rangePairs true [2, 4] ∪ proofPairs true 2 (renamed 1)) ∧
    (renamed 1).mmrSize = m.nodes.length ∧
    verifyMmrProof 2 (renamed 1) (m.root true) true = true ∧
    ¬ ∃ i, (renamed 1).leafPos = mmrSize i ∧ [(2 : Bytes32), 4][i]? = some 2 := by
  refine ⟨even_not_hashed, renamed_apart 1, by decide +kernel, verify_renamed 1, ?_⟩
  rintro ⟨i, hpos, hi⟩
  have hlt : i < 2 := (List.getElem?_eq_some_iff.mp hi).1
  interval_cases i
  · exact absurd hpos (by decide)
  · exact absurd hi (by decide)

end Renamed

end Midwimble
