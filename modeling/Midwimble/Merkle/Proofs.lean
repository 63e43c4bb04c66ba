import Midwimble.Merkle.Canonical

namespace Midwimble
open SparseTree (Agrees)
set_option autoImplicit true

variable [Primitives]

/-- The sibling at height `h` on the path of a coin, in the tree over a set. -/
noncomputable def siblingAt (isV2 : Bool) (s : Set Bytes32) (coin : Bytes32) (h : Nat) :
    ProofElement :=
  ⟨subtree isV2 s h (flipBit coin h), !coin.getLsbD h⟩

omit [Primitives] in
theorem agrees_flipBit (p : Bytes32) (hh : h < 256) : Agrees (h + 1) (flipBit p h) p :=
  SparseTree.agrees_flip p hh

theorem siblingAt_congr {coin : Bytes32} (hh : h < 256)
    (hst : ∀ c, Agrees (h + 1) c coin → (c ∈ s ↔ c ∈ t)) :
    siblingAt isV2 s coin h = siblingAt isV2 t coin h := by
  rw [siblingAt, siblingAt, subtree_congr (Nat.le_of_lt hh) fun c hc =>
    hst c ((hc.mono (Nat.le_succ h)).trans (agrees_flipBit coin hh))]

/-- The descent of `extract_path_siblings` emits the siblings below its height. -/
theorem extractPathSiblings_eq {coins : List Bytes32} (hh : h ≤ 256)
    (hs : coins.Pairwise (· < ·)) (ha : ∀ c ∈ coins, Agrees h c target) :
    extractPathSiblings isV2 h coins target =
      (List.range' 0 h).map (siblingAt isV2 {c | c ∈ coins} target) := by
  induction h generalizing coins with
  | zero => rfl
  | succ h ih =>
    obtain ⟨hleft, hright⟩ := SparseTree.split_sorted hs ha
    -- the half on the target's side
    have hown : extractPathSiblings isV2 h
        (coins.filter fun c => c.getLsbD h == target.getLsbD h) target =
          (List.range' 0 h).map (siblingAt isV2 {c | c ∈ coins} target) := by
      rw [ih (by omega) (hs.filter _)]
      · refine List.map_congr_left fun i hi => ?_
        have hlt : i < h := by simpa using hi
        refine siblingAt_congr (by omega) fun c hc => ?_
        simp [hc h hlt]
      · intro c hc
        obtain ⟨hmem, hbit⟩ := List.mem_filter.mp hc
        exact SparseTree.agrees_succ.mpr ⟨eq_of_beq hbit, ha c hmem⟩
    -- and the other one
    have hother : computeSparseSubtree isV2 h
        (coins.filter fun c => c.getLsbD h == !target.getLsbD h) =
          subtree isV2 {c | c ∈ coins} h (flipBit target h) := by
      have hbit : (flipBit target h).getLsbD h = !target.getLsbD h := by
        rw [flipBit, ← SparseTree.flip, SparseTree.getLsbD_flip target hh, decide_eq_true rfl,
          Bool.xor_true]
      rw [computeSparseSubtree_eq (p := flipBit target h) (by omega) (hs.filter _)]
      · refine subtree_congr (by omega) fun c hc => ?_
        simp [hc h (Nat.le_refl h), hbit]
      · intro c hc
        obtain ⟨hmem, hcb⟩ := List.mem_filter.mp hc
        exact SparseTree.agrees_succ.mpr ⟨(eq_of_beq hcb).trans hbit.symm,
          (ha c hmem).trans (agrees_flipBit target hh).symm⟩
    rw [extractPathSiblings, hleft, hright, List.range'_concat, List.map_append]
    cases hb : target.getLsbD h with
    | false =>
      simp only [hb, beq_false, beq_true, Bool.not_false] at hown hother
      simp [hown, hother, siblingAt, hb]
    | true =>
      simp only [hb, beq_false, beq_true, Bool.not_true] at hown hother
      simp [hown, hother, siblingAt, hb]

namespace CachedAccumulator

theorem foldl_climbingUp {a : CachedAccumulator} {coin : Bytes32}
    (ha : Caches isV2 a.set a.nodes) (hlo : 240 ≤ h) (hhi : h + n ≤ 256) :
    (List.range' h n).foldl (Climbing.up a coin isV2) ⟨maskLowerBits coin h, siblings⟩ =
      ⟨maskLowerBits coin (h + n),
        siblings ++ (List.range' h n).map (siblingAt isV2 a.set coin)⟩ := by
  induction n generalizing h siblings with
  | zero => simp
  | succ n ih =>
    have hup : Climbing.up a coin isV2 ⟨maskLowerBits coin h, siblings⟩ h =
        ⟨maskLowerBits coin (h + 1), siblings ++ [siblingAt isV2 a.set coin h]⟩ := by
      rw [Climbing.up, flipBit_maskLowerBits coin (by omega), ha.getNode hlo (by omega),
        maskLowerBits_maskLowerBits coin (Nat.le_succ h), siblingAt]
    rw [List.range'_succ, List.foldl_cons, hup, ih (by omega) (by omega), List.map_cons,
      List.append_assoc, List.singleton_append, Nat.add_assoc, Nat.add_comm 1 n]

theorem prove_eq {a : CachedAccumulator} {coin : Bytes32}
    (ha : Caches isV2 a.set a.nodes) (hc : coin ∈ a.coins) :
    a.prove coin isV2 =
      .ok ⟨0, a.coins.size, (List.range' 0 256).map (siblingAt isV2 a.set coin)⟩ := by
  have hbucket : extractPathSiblings isV2 240 (a.bucket (top16 coin)) coin =
      (List.range' 0 240).map (siblingAt isV2 a.set coin) := by
    rw [extractPathSiblings_eq (by omega) (sorted_bucket a coin) fun c hm => (mem_bucket.mp hm).2]
    refine List.map_congr_left fun i hi => ?_
    have hlt : i < 240 := by simpa using hi
    refine siblingAt_congr (by omega) fun c hm => ?_
    exact ⟨fun hb => (mem_bucket.mp hb).1, fun hs => mem_bucket.mpr ⟨hs, hm.mono hlt⟩⟩
  have hclimb (siblings : List ProofElement) :
      ((List.range' 240 16).foldl (Climbing.up a coin isV2)
          ⟨maskLowerBits coin 240, siblings⟩).siblings =
        siblings ++ (List.range' 240 16).map (siblingAt isV2 a.set coin) := by
    rw [foldl_climbingUp ha (Nat.le_refl 240) (Nat.le_refl 256)]
  rw [prove, Std.ExtTreeSet.mem_iff_contains.mp hc]
  simp only [Bool.not_true, Bool.false_eq_true, if_false, cacheMinHeight, hbucket,
    pathFromTop16_top16, cachedLevels, smtHeight]
  rw [hclimb, ← List.map_append, List.range'_append_1]

end CachedAccumulator

theorem climb_sided (isV2 : Bool) (coin x : Bytes32) (f : Nat → Bytes32) :
    climb coin isV2 h ((List.range' h n).map fun i => ⟨f i, !coin.getLsbD i⟩) x =
      some (SparseTree.climb (fun left right => hashNode left right isV2) coin h
        ((List.range' h n).map f) x) := by
  induction n generalizing h x with
  | zero => rfl
  | succ n ih =>
    rw [List.range'_succ, List.map_cons, climb, if_neg (not_not.mpr rfl), ih, List.map_cons,
      SparseTree.climb]
    cases coin.getLsbD h <;> rfl

theorem climb_eq_some {coin : Bytes32}
    (hclimb : climb coin isV2 h siblings x = some r) :
    SparseTree.climb (fun left right => hashNode left right isV2) coin h
      (siblings.map (·.hash)) x = r := by
  induction siblings generalizing h x with
  | nil => exact Option.some.inj hclimb
  | cons elem rest ih =>
    rw [climb] at hclimb
    split at hclimb
    · exact absurd hclimb (Option.some_ne_none r).symm
    · rename_i hside
      rw [not_not] at hside
      rw [List.map_cons, SparseTree.climb, ← ih hclimb, hside]
      cases coin.getLsbD h <;> rfl

/-- The pairs of hashes that the verifier hashes for a proof. -/
def verifiedPairs (isV2 : Bool) (coin : Bytes32) (proof : UtxoProof) : Set (Bytes32 × Bytes32) :=
  {p | p ∈ SparseTree.climbPairs (fun left right => hashNode left right isV2) coin 0
    (proof.siblings.map (·.hash)) coin}

theorem climb_subtree (isV2 : Bool) (s : Set Bytes32) (coin : Bytes32) (h n : Nat) :
    SparseTree.climb (fun left right => hashNode left right isV2) coin h
      ((List.range' h n).map fun i => subtree isV2 s i (flipBit coin i)) (subtree isV2 s h coin) =
        subtree isV2 s (h + n) coin :=
  SparseTree.climb_siblings coin n

theorem verifyUtxoProof_siblings {a : CachedAccumulator} {coin : Bytes32}
    (ha : Caches isV2 a.set a.nodes) (hc : coin ∈ a.coins) :
    verifyUtxoProof coin ⟨i, n, (List.range' 0 256).map (siblingAt isV2 a.set coin)⟩
      (a.root isV2) isV2 = true := by
  have hleaf : subtree isV2 a.set 0 coin = coin := if_pos (show coin ∈ a.set from hc)
  have hroot := climb_subtree isV2 a.set coin 0 256
  rw [hleaf, Nat.zero_add, ← CachedAccumulator.root_eq_subtree ha coin] at hroot
  rw [verifyUtxoProof, decide_eq_true_eq]
  refine ⟨by rw [List.length_map, List.length_range'], ?_⟩
  rw [← hroot]
  exact climb_sided isV2 coin coin fun i => subtree isV2 a.set i (flipBit coin i)

theorem mem_of_verify_subtree {s : Set Bytes32} {coin : Bytes32} (hz : coin ≠ 0)
    (hx : HashesApart isV2 (hashedPairs isV2 s ∪ verifiedPairs isV2 coin proof))
    (hv : verifyUtxoProof coin proof (subtree isV2 s 256 coin) isV2 = true) : coin ∈ s := by
  rw [verifyUtxoProof, decide_eq_true_eq] at hv
  obtain ⟨hlen, hclimb⟩ := hv
  have hreach := climb_eq_some hclimb
  have hlength : 0 + (proof.siblings.map (·.hash)).length = 256 := by
    rw [List.length_map, hlen]
  have hpin : coin = subtree isV2 s 0 coin :=
    SparseTree.climb_pins (Nat.le_of_eq hlength) hx (by rw [hreach, hlength, subtree])
  by_contra hc
  rw [subtree, SparseTree.value, if_neg hc] at hpin
  exact hz hpin

theorem mem_of_verifyUtxoProof {a : CachedAccumulator} {coin : Bytes32}
    (ha : Caches isV2 a.set a.nodes)
    (hz : coin ≠ 0) (hx : HashesApart isV2 (hashedPairs isV2 a.set ∪
      verifiedPairs isV2 coin proof))
    (hv : verifyUtxoProof coin proof (a.root isV2) isV2 = true) : coin ∈ a.coins := by
  rw [CachedAccumulator.root_eq_subtree ha coin] at hv
  exact mem_of_verify_subtree hz hx hv

/-- Inclusion proofs are exact: a coin of the accumulator has one, and, where hashes do not
collide, a non-zero coin outside it has none. -/
theorem utxo_proofs_exact (isV2 : Bool) (calls : List Call) :
    let a := afterCalls isV2 calls
    (∀ coin ∈ a.coins, ∃ proof, a.prove coin isV2 = .ok proof ∧ proof.siblings.length = 256 ∧
      verifyUtxoProof coin proof (a.root isV2) isV2 = true) ∧
    ∀ coin proof, coin ≠ 0 →
      HashesApart isV2 (hashedPairs isV2 a.set ∪ verifiedPairs isV2 coin proof) →
        verifyUtxoProof coin proof (a.root isV2) isV2 = true → coin ∈ a.coins := by
  have ha := caches_afterCalls isV2 calls
  refine ⟨fun coin hc => ⟨_, CachedAccumulator.prove_eq ha hc, ?_,
    verifyUtxoProof_siblings ha hc⟩, fun coin proof hz hx hv => mem_of_verifyUtxoProof ha hz hx hv⟩
  rw [List.length_map, List.length_range']

theorem verifiedPairs_siblings {s : Set Bytes32} {coin : Bytes32} (hc : coin ∈ s) :
    verifiedPairs isV2 coin ⟨i, n, (List.range' 0 256).map (siblingAt isV2 s coin)⟩ ⊆
      hashedPairs isV2 s := by
  have hleaf : subtree isV2 s 0 coin = coin := if_pos hc
  have hpairs : SparseTree.climbPairs (fun left right => hashNode left right isV2) coin 0
      ((List.range' 0 256).map fun h => subtree isV2 s h (flipBit coin h))
        (subtree isV2 s 0 coin) = _ := SparseTree.climbPairs_siblings coin 256
  intro p hp
  rw [verifiedPairs, Set.mem_ofPred_eq, List.map_map, Function.comp_def] at hp
  simp only [siblingAt] at hp
  rw [hleaf] at hpairs
  rw [hpairs, List.mem_map] at hp
  obtain ⟨h, hh, rfl⟩ := hp
  exact SparseTree.mem_pairs (by simpa using hh) coin

omit [Primitives] in
theorem utxo_proofs_exact_lone :
    letI := Primitives.adding
    (1 : Bytes32) ∈ (afterCalls true [.insert 1]).coins := by
  let := Primitives.adding
  have hmem : (1 : Bytes32) ∈ (afterCalls true [.insert 1]).coins :=
    (mem_coins_afterCalls true _ 1).mpr (Set.mem_insert 1 ∅)
  have ha := caches_afterCalls true [.insert 1]
  refine (utxo_proofs_exact true [.insert 1]).2 1
    ⟨0, 0, (List.range' 0 256).map (siblingAt true (afterCalls true [.insert 1]).set 1)⟩
    (by decide) ?_ (verifyUtxoProof_siblings ha hmem)
  have hset : (afterCalls true [.insert 1]).set = {1} :=
    (set_afterCalls true _).trans (insert_empty_eq 1)
  refine lonePairs_apart.mono fun p hp => mem_lone (.inl ?_)
  rw [← hset]
  exact hp.elim id fun hv => verifiedPairs_siblings hmem hv

end Midwimble
