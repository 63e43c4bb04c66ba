import Midwimble.Lib.SparseTree
import Midwimble.Core.SparseMerkle

namespace Midwimble
open SparseTree (Agrees)
set_option autoImplicit true

theorem getLsbD_maskLowerBits (p : Bytes32) (h i : Nat) :
    (maskLowerBits p h).getLsbD i = (!decide (i < h) && p.getLsbD i) := by
  rw [maskLowerBits, BitVec.getLsbD_shiftLeft, BitVec.getLsbD_ushiftRight]
  by_cases hih : i < h
  · simp [hih]
  · rw [decide_eq_false hih, Nat.add_sub_cancel' (Nat.le_of_not_lt hih)]
    by_cases hi : i < 256
    · simp [hi]
    · simp [BitVec.getLsbD_of_ge p i (Nat.le_of_not_lt hi)]

theorem agrees_maskLowerBits (p : Bytes32) (h : Nat) : Agrees h (maskLowerBits p h) p := by
  intro i hi
  rw [getLsbD_maskLowerBits, decide_eq_false (Nat.not_lt.mpr hi), Bool.not_false, Bool.true_and]

theorem maskLowerBits_eq_iff {p q : Bytes32} :
    maskLowerBits p h = maskLowerBits q h ↔ Agrees h p q := by
  refine ⟨fun he => ?_, fun a => ?_⟩
  · exact (agrees_maskLowerBits p h).symm.trans (he ▸ agrees_maskLowerBits q h)
  · refine BitVec.eq_of_getLsbD_eq fun i _ => ?_
    rw [getLsbD_maskLowerBits, getLsbD_maskLowerBits]
    by_cases hi : i < h
    · rw [decide_eq_true hi, Bool.not_true, Bool.false_and, Bool.false_and]
    · rw [a i (Nat.le_of_not_lt hi)]

theorem maskLowerBits_maskLowerBits (p : Bytes32) (hle : h ≤ h') :
    maskLowerBits (maskLowerBits p h) h' = maskLowerBits p h' :=
  maskLowerBits_eq_iff.mpr ((agrees_maskLowerBits p h).mono hle)

theorem flipBit_maskLowerBits (p : Bytes32) (hh : h < 256) :
    flipBit (maskLowerBits p h) h = maskLowerBits (flipBit p h) h := by
  refine BitVec.eq_of_getLsbD_eq fun i _ => ?_
  rw [getLsbD_maskLowerBits, flipBit, flipBit, ← SparseTree.flip, ← SparseTree.flip,
    SparseTree.getLsbD_flip _ hh, SparseTree.getLsbD_flip _ hh, getLsbD_maskLowerBits]
  by_cases hi : i < h
  · simp [hi, Nat.ne_of_gt hi]
  · simp [hi]

theorem top16_eq_iff {p q : Bytes32} : top16 p = top16 q ↔ Agrees 240 p q := by
  rw [top16, top16, BitVec.toNat_inj]
  refine ⟨fun he i hi => ?_, fun a => BitVec.eq_of_getLsbD_eq fun i _ => ?_⟩
  · have := congrArg (fun x => x.getLsbD (i - 240)) he
    simpa [BitVec.getLsbD_ushiftRight, Nat.add_sub_cancel' hi] using this
  · rw [BitVec.getLsbD_ushiftRight, BitVec.getLsbD_ushiftRight]
    exact a (240 + i) (Nat.le_add_right 240 i)

theorem pathFromTop16_top16 (p : Bytes32) : pathFromTop16 (top16 p) = maskLowerBits p 240 := by
  rw [pathFromTop16, top16, maskLowerBits, BitVec.ofNat_toNat, BitVec.setWidth_eq]

theorem cacheKey_eq_iff {p q : Bytes32} (hh : 240 ≤ h) :
    cacheKey h (maskLowerBits p h) = cacheKey h' (maskLowerBits q h') ↔
      h = h' ∧ Agrees h p q := by
  rw [cacheKey, cacheKey, Prod.mk.injEq]
  refine and_congr_right fun he => ?_
  subst he
  rw [top16_eq_iff]
  refine ⟨fun a => ?_, fun a => ?_⟩
  · exact (agrees_maskLowerBits p h).symm.trans ((a.mono hh).trans (agrees_maskLowerBits q h))
  · rw [maskLowerBits_eq_iff.mpr a]
    exact .refl 240 _

variable [Primitives]

/-- The subtree of height `h` above a path, in the tree over the coins of `s`. -/
noncomputable def subtree (isV2 : Bool) (s : Set Bytes32) : (h : Nat) → Bytes32 → Bytes32 :=
  SparseTree.value (fun left right => hashNode left right isV2) id 0 s

theorem getEmptyHash_eq :
    getEmptyHash isV2 h = SparseTree.empty (fun left right => hashNode left right isV2) 0 h := by
  induction h with
  | zero => rfl
  | succ h ih => rw [getEmptyHash, SparseTree.empty, ih]

/-- `compute_sparse_subtree` hashes the subtree over its coins. -/
theorem computeSparseSubtree_eq {coins : List Bytes32} (hh : h ≤ 256)
    (hs : coins.Pairwise (· < ·)) (ha : ∀ c ∈ coins, Agrees h c p) :
    computeSparseSubtree isV2 h coins = subtree isV2 {c | c ∈ coins} h p := by
  induction h generalizing coins p with
  | zero =>
    cases coins with
    | nil => simp [computeSparseSubtree, subtree, SparseTree.value]
    | cons c coins =>
      obtain rfl := SparseTree.agrees_zero.mp (ha c List.mem_cons_self)
      simp [computeSparseSubtree, subtree, SparseTree.value]
  | succ h ih =>
    rw [computeSparseSubtree]
    split
    · rename_i hnil
      rw [List.isEmpty_iff] at hnil
      rw [getEmptyHash_eq, subtree, SparseTree.value_empty hh]
      simp [hnil]
    · obtain ⟨hleft, hright⟩ := SparseTree.split_sorted hs ha
      have hchild (b : Bool) : computeSparseSubtree isV2 h
          (coins.filter fun c => c.getLsbD h == b) =
            subtree isV2 {c | c ∈ coins} h (SparseTree.put p h b) := by
        rw [ih (p := SparseTree.put p h b) (by omega) (hs.filter _)]
        · refine SparseTree.value_congr (by omega) fun c hc => ?_
          have hbit := ((SparseTree.agrees_put_iff hh).mp hc).1
          simp [hbit]
        · intro c hc
          obtain ⟨hmem, hbit⟩ := List.mem_filter.mp hc
          exact (SparseTree.agrees_put_iff hh).mpr ⟨eq_of_beq hbit, ha c hmem⟩
      rw [hleft, hright, subtree, SparseTree.value]
      have hfalse := hchild false
      have htrue := hchild true
      simp only [beq_false, beq_true] at hfalse htrue
      rw [hfalse, htrue, subtree]

theorem subtree_agrees (hh : h ≤ 256) (a : Agrees h p q) :
    subtree isV2 s h p = subtree isV2 s h q :=
  SparseTree.value_agrees hh a

theorem subtree_congr (hh : h ≤ 256) (hst : ∀ c, Agrees h c p → (c ∈ s ↔ c ∈ t)) :
    subtree isV2 s h p = subtree isV2 t h p :=
  SparseTree.value_congr hh hst

/-- What the cache keeps of a hash: nothing when it is the empty subtree's. -/
def kept (isV2 : Bool) (h : Nat) (hash : Bytes32) : Option Bytes32 :=
  if hash = getEmptyHash isV2 h then none else some hash

theorem kept_getD : (kept isV2 h x).getD (getEmptyHash isV2 h) = x := by
  unfold kept
  split
  · exact Eq.symm ‹_›
  · rfl

theorem kept_isSome : (kept isV2 h x).isSome = true ↔ x ≠ getEmptyHash isV2 h := by
  unfold kept
  split
  · exact ⟨fun hn => absurd hn Bool.false_ne_true, fun hn => absurd ‹_› hn⟩
  · exact ⟨fun _ => ‹_›, fun _ => rfl⟩

theorem getElem?_putNode {nodes : Std.ExtHashMap (Nat × Nat) Bytes32} {k : Nat × Nat} :
    (putNode nodes h path x isV2)[k]? =
      if cacheKey h path = k then kept isV2 h x else nodes[k]? := by
  unfold putNode kept
  split
  · rw [Std.ExtHashMap.getElem?_erase]
    by_cases hk : cacheKey h path = k <;> simp [hk]
  · rw [Std.ExtHashMap.getElem?_insert]
    by_cases hk : cacheKey h path = k <;> simp [hk]

/-- A cache that holds, on each of its levels, what is kept of the tree over that level's set. -/
structure Holds (isV2 : Bool) (s : (h : Nat) → Set Bytes32)
    (nodes : Std.ExtHashMap (Nat × Nat) Bytes32) : Prop where
  entry : ∀ h path, 240 ≤ h → h ≤ 256 →
    nodes[cacheKey h (maskLowerBits path h)]? = kept isV2 h (subtree isV2 (s h) h path)
  key : ∀ k ∈ nodes, ∃ h path, 240 ≤ h ∧ h ≤ 256 ∧ k = cacheKey h (maskLowerBits path h)

/-- A cache of the tree over a set. -/
abbrev Caches (isV2 : Bool) (s : Set Bytes32) (nodes : Std.ExtHashMap (Nat × Nat) Bytes32) : Prop :=
  Holds isV2 (fun _ => s) nodes

theorem Holds.getNode {nodes : Std.ExtHashMap (Nat × Nat) Bytes32} (hn : Holds isV2 s nodes)
    (hlo : 240 ≤ h) (hhi : h ≤ 256) (path : Bytes32) :
    getNode nodes h (maskLowerBits path h) isV2 = subtree isV2 (s h) h path := by
  rw [Midwimble.getNode, hn.entry h path hlo hhi, kept_getD]

theorem Holds.congr {nodes : Std.ExtHashMap (Nat × Nat) Bytes32} (hn : Holds isV2 s nodes)
    (hst : ∀ h, 240 ≤ h → h ≤ 256 → s h = t h) : Holds isV2 t nodes :=
  ⟨fun h path hlo hhi => by rw [hn.entry h path hlo hhi, hst h hlo hhi], hn.key⟩

theorem Holds.unique {nodes nodes' : Std.ExtHashMap (Nat × Nat) Bytes32}
    (hn : Holds isV2 s nodes) (hn' : Holds isV2 s nodes') : nodes = nodes' := by
  apply Std.ExtHashMap.ext_getElem?
  intro k
  rcases Classical.em (∃ h path, 240 ≤ h ∧ h ≤ 256 ∧ k = cacheKey h (maskLowerBits path h)) with
    ⟨h, path, hlo, hhi, rfl⟩ | hk
  · rw [hn.entry h path hlo hhi, hn'.entry h path hlo hhi]
  · rw [Std.ExtHashMap.getElem?_eq_none (mt (hn.key k) hk),
      Std.ExtHashMap.getElem?_eq_none (mt (hn'.key k) hk)]

theorem caches_empty : Caches isV2 ∅ ∅ := by
  refine ⟨fun h path _ hhi => ?_, fun k hk => absurd hk Std.ExtHashMap.not_mem_empty⟩
  rw [Std.ExtHashMap.getElem?_empty, subtree, SparseTree.value_empty hhi fun _ _ =>
    Set.notMem_empty _, kept, getEmptyHash_eq, if_pos rfl]

/-- Sets that differ below one node of height 240 at most. -/
def SameOutside (c : Bytes32) (s t : Set Bytes32) : Prop := ∀ d, ¬Agrees 240 d c → (d ∈ s ↔ d ∈ t)

/-- The levels up to `h` hold the new set, those above it the old one. -/
def upTo (t s : Set Bytes32) (h h' : Nat) : Set Bytes32 := if h' ≤ h then t else s

theorem Holds.putNode {nodes : Std.ExtHashMap (Nat × Nat) Bytes32}
    (hn : Holds isV2 (upTo t s h) nodes) (hst : SameOutside c s t) (hlo : 240 ≤ h + 1)
    (hhi : h + 1 ≤ 256) :
    Holds isV2 (upTo t s (h + 1)) (putNode nodes (h + 1) (maskLowerBits c (h + 1))
      (subtree isV2 t (h + 1) c) isV2) := by
  refine ⟨fun h' path hlo' hhi' => ?_, fun k hk => ?_⟩
  · rw [getElem?_putNode]
    by_cases hk : cacheKey (h + 1) (maskLowerBits c (h + 1)) = cacheKey h' (maskLowerBits path h')
    · obtain ⟨rfl, a⟩ := (cacheKey_eq_iff hlo).mp hk
      rw [if_pos hk, upTo, if_pos (Nat.le_refl _), subtree_agrees hhi a]
    · rw [if_neg hk, hn.entry h' path hlo' hhi']
      by_cases hle : h' ≤ h
      · rw [upTo, upTo, if_pos hle, if_pos (Nat.le_succ_of_le hle)]
      · by_cases heq : h' = h + 1
        · subst heq
          -- the sets agree below a node off the path
          rw [upTo, upTo, if_neg hle, if_pos (Nat.le_refl _)]
          congr 1
          refine subtree_congr hhi fun d hd => hst d fun hdc => hk ?_
          exact (cacheKey_eq_iff hlo).mpr ⟨rfl, (hdc.mono hlo).symm.trans hd⟩
        · rw [upTo, upTo, if_neg hle, if_neg (by omega)]
  · rw [Std.ExtHashMap.mem_iff_isSome_getElem?, getElem?_putNode] at hk
    split at hk
    · rename_i hkey
      exact ⟨h + 1, c, hlo, hhi, hkey.symm⟩
    · exact hn.key k (Std.ExtHashMap.mem_iff_isSome_getElem?.mpr hk)

/-- The ripple has reached height `h` on the path of `c`. -/
structure Rippling (isV2 : Bool) (t s : Set Bytes32) (c : Bytes32) (h : Nat) (r : Ripple) :
    Prop where
  nodes : Holds isV2 (upTo t s h) r.nodes
  path : r.currentPath = maskLowerBits c h
  hash : r.hashToRipple = subtree isV2 t h c

theorem Rippling.up (hr : Rippling isV2 t s c h r) (hst : SameOutside c s t) (hlo : 240 ≤ h)
    (hhi : h < 256) : Rippling isV2 t s c (h + 1) (r.up isV2 h) := by
  have hsibling : getNode r.nodes h (flipBit r.currentPath h) isV2 =
      subtree isV2 t h (flipBit c h) := by
    rw [hr.path, flipBit_maskLowerBits c hhi, hr.nodes.getNode hlo (Nat.le_of_lt hhi), upTo,
      if_pos (Nat.le_refl h)]
  have hbit : r.currentPath.getLsbD h = c.getLsbD h := by
    rw [hr.path, getLsbD_maskLowerBits, decide_eq_false (Nat.lt_irrefl h), Bool.not_false,
      Bool.true_and]
  have hparent : (if !r.currentPath.getLsbD h
      then hashNode r.hashToRipple (subtree isV2 t h (flipBit c h)) isV2
      else hashNode (subtree isV2 t h (flipBit c h)) r.hashToRipple isV2) =
      subtree isV2 t (h + 1) c := by
    rw [hbit, hr.hash, subtree, SparseTree.value_succ]
    cases c.getLsbD h <;> rfl
  have hpath : maskLowerBits r.currentPath (h + 1) = maskLowerBits c (h + 1) := by
    rw [hr.path, maskLowerBits_maskLowerBits c (Nat.le_succ h)]
  simp only [Ripple.up, hsibling, hparent, hpath]
  exact ⟨hr.nodes.putNode hst (by omega) hhi, rfl, rfl⟩

theorem Rippling.run (hr : Rippling isV2 t s c h r) (hst : SameOutside c s t) (hlo : 240 ≤ h)
    (hhi : h + n ≤ 256) :
    Rippling isV2 t s c (h + n) ((List.range' h n).foldl (Ripple.up isV2) r) := by
  induction n generalizing h r with
  | zero => exact hr
  | succ n ih =>
    rw [List.range'_succ, List.foldl_cons, Nat.add_succ, ← Nat.succ_add]
    exact ih (hr.up hst hlo (by omega)) (by omega) (by omega)

theorem caches_updateCacheForBucket {nodes : Std.ExtHashMap (Nat × Nat) Bytes32}
    (hn : Caches isV2 s nodes) (hst : SameOutside c s t) (hsorted : bucket.Pairwise (· < ·))
    (hbucket : ∀ d, d ∈ bucket ↔ d ∈ t ∧ Agrees 240 d c) :
    Caches isV2 t (updateCacheForBucket nodes (top16 c) bucket isV2) := by
  have hhash : computeSparseSubtree isV2 cacheMinHeight bucket = subtree isV2 t 240 c := by
    rw [cacheMinHeight, computeSparseSubtree_eq (p := c) (by omega) hsorted fun d hd =>
      ((hbucket d).mp hd).2]
    exact subtree_congr (by omega) fun d hd =>
      ⟨fun hm => ((hbucket d).mp hm).1, fun hm => (hbucket d).mpr ⟨hm, hd⟩⟩
  have hbelow : Holds isV2 (upTo t s 239) nodes := hn.congr fun h hlo _ => by
    rw [upTo, if_neg (by omega)]
  have hstart : Rippling isV2 t s c 240
      ⟨putNode nodes 240 (maskLowerBits c 240) (subtree isV2 t 240 c) isV2,
        maskLowerBits c 240, subtree isV2 t 240 c⟩ :=
    ⟨hbelow.putNode hst (Nat.le_refl 240) (by omega), rfl, rfl⟩
  have hend := (hstart.run (n := 16) hst (by omega) (by omega)).nodes
  simp only [updateCacheForBucket, hhash, pathFromTop16_top16]
  exact hend.congr fun h _ hhi => by rw [upTo, if_pos hhi]

end Midwimble
