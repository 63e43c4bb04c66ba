import Midwimble.Merkle.Cache

namespace Midwimble
open SparseTree (Agrees)
set_option autoImplicit true

theorem sorted_toList (s : Std.ExtTreeSet Bytes32) : s.toList.Pairwise (· < ·) :=
  Std.ExtTreeSet.ordered_toList.imp fun h => by
    simpa [compare, compareOfLessAndEq_eq_lt] using h

theorem top16_eq_div (p : Bytes32) : top16 p = p.toNat / 2 ^ 240 := by
  rw [top16, BitVec.toNat_ushiftRight, Nat.shiftRight_eq_div_pow]

theorem toNat_pathFromTop16 (p : Bytes32) :
    (pathFromTop16 (top16 p)).toNat = top16 p * 2 ^ 240 := by
  have hp := p.isLt
  rw [pathFromTop16, BitVec.toNat_shiftLeft, BitVec.toNat_ofNat, Nat.shiftLeft_eq, top16_eq_div]
  omega

theorem bucket_range (c p : Bytes32) :
    (pathFromTop16 (top16 p) ≤ c &&
      c ≤ pathFromTop16 (top16 p) ||| (BitVec.allOnes 256 >>> 16)) = decide (top16 c = top16 p) := by
  have hones : (BitVec.allOnes 256 >>> 16).toNat = 2 ^ 240 - 1 := by decide +kernel
  have hhi : (pathFromTop16 (top16 p) ||| (BitVec.allOnes 256 >>> 16)).toNat =
      top16 p * 2 ^ 240 + (2 ^ 240 - 1) := by
    rw [BitVec.toNat_or, toNat_pathFromTop16, hones, ← Nat.shiftLeft_eq,
      Nat.shiftLeft_add_eq_or_of_lt (by decide +kernel)]
  rw [← Bool.decide_and, decide_eq_decide, BitVec.le_def, BitVec.le_def, hhi, toNat_pathFromTop16,
    top16_eq_div c]
  omega

namespace CachedAccumulator

/-- The set an accumulator is over. -/
def set (a : CachedAccumulator) : Set Bytes32 := {c | c ∈ a.coins}

theorem bucket_eq (a : CachedAccumulator) (p : Bytes32) :
    a.bucket (top16 p) = a.coins.toList.filter fun c => top16 c = top16 p :=
  List.filter_congr fun c _ => bucket_range c p

theorem sorted_bucket (a : CachedAccumulator) (p : Bytes32) :
    (a.bucket (top16 p)).Pairwise (· < ·) :=
  (sorted_toList a.coins).filter _

theorem mem_bucket {a : CachedAccumulator} :
    c ∈ a.bucket (top16 p) ↔ c ∈ a.set ∧ Agrees 240 c p := by
  rw [bucket_eq, List.mem_filter, Std.ExtTreeSet.mem_toList, decide_eq_true_eq, top16_eq_iff]
  rfl

/-- The coins below a node, in ascending order. -/
def below (a : CachedAccumulator) (h : Nat) (path : Bytes32) : List Bytes32 :=
  a.coins.toList.filter fun c => maskLowerBits c h = maskLowerBits path h

theorem mem_below {a : CachedAccumulator} : c ∈ a.below h p ↔ c ∈ a.coins ∧ Agrees h c p := by
  rw [below, List.mem_filter, Std.ExtTreeSet.mem_toList, decide_eq_true_eq, maskLowerBits_eq_iff]

/-- The prefixes of the coins, in the order a rebuild meets them. -/
def Occupied (a : CachedAccumulator) (order : List Nat) : Prop :=
  ∀ prefix16, prefix16 ∈ order ↔ ∃ c ∈ a.coins, top16 c = prefix16

end CachedAccumulator

section
variable [Primitives]

namespace CachedAccumulator

theorem caches_insert {a : CachedAccumulator} (ha : Caches isV2 a.set a.nodes) (coin : Bytes32) :
    Caches isV2 (a.insert coin isV2).2.set (a.insert coin isV2).2.nodes := by
  unfold insert
  split
  · exact ha
  · refine caches_updateCacheForBucket ha (fun d hd => ?_) (sorted_bucket _ coin) fun d => mem_bucket
    have hne : coin ≠ d := fun h => hd (h ▸ .refl 240 coin)
    simp [set, Std.ExtTreeSet.mem_insert, hne]

theorem caches_remove {a : CachedAccumulator} (ha : Caches isV2 a.set a.nodes) (coin : Bytes32) :
    Caches isV2 (a.remove coin isV2).2.set (a.remove coin isV2).2.nodes := by
  unfold remove
  split
  · exact ha
  · refine caches_updateCacheForBucket ha (fun d hd => ?_) (sorted_bucket _ coin) fun d => mem_bucket
    have hne : coin ≠ d := fun h => hd (h ▸ .refl 240 coin)
    simp [set, Std.ExtTreeSet.mem_erase, hne]

theorem caches_foldl_buckets {a : CachedAccumulator} {order : List Nat}
    {nodes : Std.ExtHashMap (Nat × Nat) Bytes32} (ho : ∀ p ∈ order, ∃ c ∈ a.coins, top16 c = p)
    (hs : s ⊆ a.set) (hn : Caches isV2 s nodes) :
    Caches isV2 (s ∪ {c | c ∈ a.coins ∧ top16 c ∈ order})
      (order.foldl (fun nodes prefix16 => updateCacheForBucket nodes prefix16
        (a.coins.toList.filter fun c => top16 c = prefix16) isV2) nodes) := by
  induction order generalizing s nodes with
  | nil => simpa using hn
  | cons p order ih =>
    obtain ⟨p', -, rfl⟩ := ho p List.mem_cons_self
    have hbucket : Caches isV2 (s ∪ {c | c ∈ a.coins ∧ top16 c = top16 p'})
        (updateCacheForBucket nodes (top16 p')
          (a.coins.toList.filter fun c => top16 c = top16 p') isV2) := by
      refine caches_updateCacheForBucket hn (fun d hd => ?_) ((sorted_toList a.coins).filter _)
        fun d => ?_
      · rw [← top16_eq_iff] at hd
        simp [hd]
      · rw [List.mem_filter, Std.ExtTreeSet.mem_toList, decide_eq_true_eq, top16_eq_iff]
        refine and_congr_left fun hd => ⟨fun hm => .inr ⟨hm, top16_eq_iff.mpr hd⟩, ?_⟩
        rintro (hm | hm)
        · exact hs hm
        · exact hm.1
    have hsub : s ∪ {c | c ∈ a.coins ∧ top16 c = top16 p'} ⊆ a.set :=
      Set.union_subset hs fun c hc => hc.1
    have hrest := ih (fun p hp => ho p (List.mem_cons_of_mem _ hp)) hsub hbucket
    have hset : s ∪ {c | c ∈ a.coins ∧ top16 c ∈ top16 p' :: order} =
        s ∪ {c | c ∈ a.coins ∧ top16 c = top16 p'} ∪ {c | c ∈ a.coins ∧ top16 c ∈ order} := by
      ext c
      simp only [List.mem_cons, Set.mem_union, Set.mem_ofPred_eq]
      tauto
    rw [hset]
    exact hrest

theorem caches_rebuildTree {a : CachedAccumulator} (ho : a.Occupied order) :
    Caches isV2 a.set (a.rebuildTree order isV2).nodes := by
  have hn : Caches isV2 (∅ ∪ {c | c ∈ a.coins ∧ top16 c ∈ order}) (a.rebuildTree order isV2).nodes :=
    caches_foldl_buckets (fun p hp => (ho p).mp hp) (Set.empty_subset _) caches_empty
  have hall : ∅ ∪ {c | c ∈ a.coins ∧ top16 c ∈ order} = a.set := by
    ext c
    simp only [Set.empty_union, Set.mem_ofPred_eq, set, and_iff_left_iff_imp]
    exact fun hc => (ho (top16 c)).mpr ⟨c, hc, rfl⟩
  rw [hall] at hn
  exact hn

theorem computeSparseSubtree_below {a : CachedAccumulator} (hh : h ≤ 256) (path : Bytes32) :
    computeSparseSubtree isV2 h (a.below h path) = subtree isV2 a.set h path := by
  have hsorted : (a.below h path).Pairwise (· < ·) := (sorted_toList a.coins).filter _
  rw [computeSparseSubtree_eq hh hsorted fun c hc => (mem_below.mp hc).2]
  exact subtree_congr hh fun c hc =>
    ⟨fun hm => (mem_below.mp hm).1, fun hm => mem_below.mpr ⟨hm, hc⟩⟩

theorem root_eq_subtree {a : CachedAccumulator} (ha : Caches isV2 a.set a.nodes) (path : Bytes32) :
    a.root isV2 = subtree isV2 a.set 256 path := by
  have hzero : maskLowerBits path 256 = 0 := by
    refine BitVec.eq_of_getLsbD_eq fun i hi => ?_
    rw [getLsbD_maskLowerBits, decide_eq_true hi, Bool.not_true, Bool.false_and]
    exact BitVec.getLsbD_zero.symm
  rw [root, smtHeight, ← hzero, ha.getNode (by omega) (Nat.le_refl 256)]

theorem root_eq {a : CachedAccumulator} (ha : Caches isV2 a.set a.nodes) :
    a.root isV2 = computeSparseSubtree isV2 256 a.coins.toList := by
  rw [root_eq_subtree ha 0, computeSparseSubtree_eq (Nat.le_refl 256) (sorted_toList a.coins)
    fun c _ => SparseTree.agrees_width c 0]
  congr 1
  ext c
  simp [set]

end CachedAccumulator

/-- A call that may change an accumulator. -/
inductive Call where
  | insert (coin : Bytes32)
  | remove (coin : Bytes32)

namespace Call

/-- What a call reports, and the accumulator after it. -/
def run (isV2 : Bool) (a : CachedAccumulator) : Call → Bool × CachedAccumulator
  | insert coin => a.insert coin isV2
  | remove coin => a.remove coin isV2

/-- What a call means for a set. -/
def onSet (s : Set Bytes32) : Call → Set Bytes32
  | insert coin => Insert.insert coin s
  | remove coin => s \ {coin}

end Call

/-- The accumulator a new one becomes by a sequence of calls. -/
def afterCalls (isV2 : Bool) (calls : List Call) : CachedAccumulator :=
  calls.foldl (fun a call => (call.run isV2 a).2) .new

omit [Primitives] in
/-- The set the empty one becomes by it. -/
def setAfter (calls : List Call) : Set Bytes32 := calls.foldl Call.onSet ∅

theorem set_run (isV2 : Bool) (a : CachedAccumulator) (call : Call) :
    (call.run isV2 a).2.set = call.onSet a.set := by
  cases call with
  | insert coin =>
    simp only [Call.run, Call.onSet, CachedAccumulator.insert]
    split
    · rename_i hc
      have hmem : coin ∈ a.set := Std.ExtTreeSet.mem_iff_contains.mpr hc
      exact (Set.insert_eq_of_mem hmem).symm
    · ext c
      change c ∈ a.coins.insert coin ↔ c ∈ insert coin a.set
      rw [Std.ExtTreeSet.mem_insert, Std.LawfulEqCmp.compare_eq_iff_eq, Set.mem_insert_iff,
        @eq_comm _ c coin]
      rfl
  | remove coin =>
    simp only [Call.run, Call.onSet, CachedAccumulator.remove]
    split
    · rename_i hc
      refine (Set.sdiff_singleton_eq_self fun hm => ?_).symm
      rw [Std.ExtTreeSet.mem_iff_contains.mp hm] at hc
      exact absurd hc Bool.false_ne_true
    · ext c
      change c ∈ a.coins.erase coin ↔ c ∈ a.set \ {coin}
      rw [Std.ExtTreeSet.mem_erase, Ne, Std.LawfulEqCmp.compare_eq_iff_eq, Set.mem_sdiff,
        Set.mem_singleton_iff, @eq_comm _ c coin, and_comm]
      rfl

theorem caches_run {a : CachedAccumulator} (ha : Caches isV2 a.set a.nodes) (call : Call) :
    Caches isV2 (call.run isV2 a).2.set (call.run isV2 a).2.nodes := by
  cases call with
  | insert coin => exact a.caches_insert ha coin
  | remove coin => exact a.caches_remove ha coin

theorem caches_calls {a : CachedAccumulator} (ha : Caches isV2 a.set a.nodes) (calls : List Call) :
    let a' := calls.foldl (fun a call => (call.run isV2 a).2) a
    Caches isV2 a'.set a'.nodes ∧ a'.set = calls.foldl Call.onSet a.set := by
  induction calls generalizing a with
  | nil => exact ⟨ha, rfl⟩
  | cons call calls ih =>
    rw [List.foldl_cons, List.foldl_cons, ← set_run isV2 a call]
    exact ih (caches_run ha call)

omit [Primitives] in
theorem set_new : CachedAccumulator.new.set = ∅ := by
  ext c
  simp [CachedAccumulator.set, CachedAccumulator.new]

theorem caches_afterCalls (isV2 : Bool) (calls : List Call) :
    Caches isV2 (afterCalls isV2 calls).set (afterCalls isV2 calls).nodes :=
  (caches_calls (set_new ▸ caches_empty) calls).1

theorem set_afterCalls (isV2 : Bool) (calls : List Call) :
    (afterCalls isV2 calls).set = setAfter calls := by
  have hnew : Caches isV2 CachedAccumulator.new.set CachedAccumulator.new.nodes :=
    set_new ▸ caches_empty
  have hset := (caches_calls hnew calls).2
  rwa [set_new] at hset

theorem mem_coins_afterCalls (isV2 : Bool) (calls : List Call) (c : Bytes32) :
    c ∈ (afterCalls isV2 calls).coins ↔ c ∈ setAfter calls := by
  rw [← set_afterCalls isV2 calls]
  rfl

/-- The pairs of hashes that the tree over a set hashes. -/
def hashedPairs (isV2 : Bool) (s : Set Bytes32) : Set (Bytes32 × Bytes32) :=
  SparseTree.pairs (fun left right => hashNode left right isV2) id 0 s

/-- `hash_node` without collisions on these pairs. -/
def HashesApart (isV2 : Bool) (x : Set (Bytes32 × Bytes32)) : Prop :=
  SparseTree.CollisionFree (fun left right => hashNode left right isV2) x

omit [Primitives] in
theorem id_ne_zero {s : Set Bytes32} (hs : 0 ∉ s) : ∀ c ∈ s, id c ≠ 0 :=
  fun _ hc h => hs (h ▸ hc)

theorem entry_afterCalls (hlo : 240 ≤ h) (hhi : h ≤ 256) :
    (afterCalls isV2 calls).nodes[cacheKey h (maskLowerBits path h)]? =
      kept isV2 h (computeSparseSubtree isV2 h ((afterCalls isV2 calls).below h path)) := by
  rw [(caches_afterCalls isV2 calls).entry h path hlo hhi,
    CachedAccumulator.computeSparseSubtree_below hhi]

omit [Primitives] in
theorem below_eq_nil_iff {a : CachedAccumulator} :
    a.below h path = [] ↔ ∀ c, Agrees h c path → c ∉ a.set := by
  rw [List.eq_nil_iff_forall_not_mem]
  simp only [CachedAccumulator.mem_below, not_and]
  exact forall_congr' fun c => ⟨fun hn a hc => hn hc a, fun hn hc a => hn a hc⟩

theorem cached_iff_occupied (hx : HashesApart isV2 (hashedPairs isV2 (setAfter calls) ∪
      hashedPairs isV2 ∅)) (hz : 0 ∉ setAfter calls) (hlo : 240 ≤ h) (hhi : h ≤ 256) :
    cacheKey h (maskLowerBits path h) ∈ (afterCalls isV2 calls).nodes ↔
      (afterCalls isV2 calls).below h path ≠ [] := by
  rw [Std.ExtHashMap.mem_iff_isSome_getElem?, (caches_afterCalls isV2 calls).entry h path hlo hhi,
    kept_isSome, Ne, Ne, below_eq_nil_iff, set_afterCalls, getEmptyHash_eq, subtree,
    SparseTree.value_eq_empty_iff hhi hx (id_ne_zero hz)]

theorem rebuilt_afterCalls (ho : (afterCalls isV2 calls).Occupied order) :
    (afterCalls isV2 calls).rebuildTree order isV2 = afterCalls isV2 calls ∧
      CachedAccumulator.fromCanonicalCoins (afterCalls isV2 calls).coins order isV2 =
        afterCalls isV2 calls := by
  have hrebuild : (afterCalls isV2 calls).rebuildTree order isV2 = afterCalls isV2 calls :=
    congrArg (CachedAccumulator.mk _)
      ((CachedAccumulator.caches_rebuildTree ho).unique (caches_afterCalls isV2 calls))
  exact ⟨hrebuild, hrebuild⟩

/-- The accumulator depends on its set alone: on what it reports, its root, its cache and a
rebuild after any calls; and where hashes do not collide its root fixes the set. -/
theorem accumulator_fixed_by_set (isV2 : Bool) :
    (∀ calls,
      let a := afterCalls isV2 calls
      (∀ c, c ∈ a.coins ↔ c ∈ setAfter calls) ∧
      (∀ coin, ((a.insert coin isV2).1 = true ↔ coin ∉ setAfter calls) ∧
        ((a.remove coin isV2).1 = true ↔ coin ∈ setAfter calls)) ∧
      a.root isV2 = computeSparseSubtree isV2 256 a.coins.toList ∧
      (∀ h path, 240 ≤ h → h ≤ 256 → a.nodes[cacheKey h (maskLowerBits path h)]? =
        kept isV2 h (computeSparseSubtree isV2 h (a.below h path))) ∧
      (∀ k ∈ a.nodes, ∃ h path, 240 ≤ h ∧ h ≤ 256 ∧ k = cacheKey h (maskLowerBits path h)) ∧
      (HashesApart isV2 (hashedPairs isV2 (setAfter calls) ∪ hashedPairs isV2 ∅) →
        0 ∉ setAfter calls → ∀ h path, 240 ≤ h → h ≤ 256 →
          (cacheKey h (maskLowerBits path h) ∈ a.nodes ↔ a.below h path ≠ [])) ∧
      ∀ order, a.Occupied order → a.rebuildTree order isV2 = a ∧
        CachedAccumulator.fromCanonicalCoins a.coins order isV2 = a) ∧
    ∀ calls calls', HashesApart isV2 (hashedPairs isV2 (setAfter calls) ∪
        hashedPairs isV2 (setAfter calls')) → 0 ∉ setAfter calls → 0 ∉ setAfter calls' →
      (afterCalls isV2 calls).root isV2 = (afterCalls isV2 calls').root isV2 →
        setAfter calls = setAfter calls' := by
  refine ⟨fun calls => ⟨mem_coins_afterCalls isV2 calls, fun coin => ?_,
    CachedAccumulator.root_eq (caches_afterCalls isV2 calls), fun h path => entry_afterCalls,
    (caches_afterCalls isV2 calls).key, fun hx hz h path => cached_iff_occupied hx hz,
    fun order => rebuilt_afterCalls⟩, fun calls calls' hx hz hz' hroot => ?_⟩
  · rw [← mem_coins_afterCalls isV2 calls, Std.ExtTreeSet.mem_iff_contains]
    unfold CachedAccumulator.insert CachedAccumulator.remove
    cases (afterCalls isV2 calls).coins.contains coin <;> simp
  · rw [CachedAccumulator.root_eq_subtree (caches_afterCalls isV2 calls) 0,
      CachedAccumulator.root_eq_subtree (caches_afterCalls isV2 calls') 0, set_afterCalls,
      set_afterCalls] at hroot
    exact SparseTree.eq_of_root_eq hx (id_ne_zero hz) (id_ne_zero hz') hroot

omit [Primitives] in
theorem below_ne_nil {a : CachedAccumulator} (hc : c ∈ a.set) (a' : Agrees h c path) :
    a.below h path ≠ [] := fun hn => below_eq_nil_iff.mp hn c a' hc

theorem zero_coin_uncached (isV2 : Bool) (hlo : 240 ≤ h) (hhi : h ≤ 256) :
    cacheKey h (maskLowerBits 0 h) ∉ (afterCalls isV2 [.insert 0]).nodes := by
  have hset : setAfter [.insert 0] = {0} := insert_empty_eq 0
  rw [Std.ExtHashMap.mem_iff_isSome_getElem?, (caches_afterCalls isV2 _).entry h 0 hlo hhi,
    kept_isSome, set_afterCalls, hset, getEmptyHash_eq, not_not]
  exact SparseTree.value_blank hhi fun c _ hc => hc

end

section
local instance addingWords : Primitives := Primitives.adding

theorem hashNode_adding (left right : Bytes32) : hashNode left right true = left + right + 1 := by
  have hlen : left.toBytes.length = 32 := by simp [Bytes32.toBytes]
  have hright : (left.toBytes ++ (right.toBytes ++ [])).drop 32 = right.toBytes ++ [] :=
    List.drop_left' hlen
  have hblake (data : Bytes) : blake3 data = wordOf (data.drop 1) + wordOf (data.drop 33) + 1 := rfl
  rw [hashNode, if_pos rfl, hblake, List.append_assoc, List.singleton_append, List.drop_succ_cons,
    List.drop_succ_cons, List.drop_zero, wordOf_toBytes, ← List.append_nil right.toBytes, hright,
    wordOf_toBytes]

/-- Where a sum stands among those of the tree over one. -/
def lonePlace (v : Bytes32) : Nat :=
  if v = 0 then 511 else if v.getLsbD 0 then v.toNat.log2 else 255 + v.toNat.log2

theorem lonePairs_apart :
    HashesApart true {x | x ∈ SparseTree.lonePairs (fun left right => hashNode left right true) id
      0 (1 : Bytes32)} := by
  have hnode : (fun left right => hashNode left right true) = fun left right => left + right + 1 :=
    funext fun left => funext fun right => hashNode_adding left right
  have hplaces : (SparseTree.lonePairs (fun left right => left + right + 1) id
      0 (1 : Bytes32)).map (fun p => lonePlace (p.1 + p.2 + 1)) = List.range 512 := by
    decide +kernel
  rw [HashesApart, hnode]
  intro p hp q hq he
  exact List.inj_on_of_nodup_map (hplaces ▸ List.nodup_range) hp hq (congrArg lonePlace he)

theorem mem_lone (hx : p ∈ hashedPairs true {1} ∪ hashedPairs true ∅) :
    p ∈ SparseTree.lonePairs (fun left right => hashNode left right true) id 0 (1 : Bytes32) :=
  hx.elim (SparseTree.pairs_singleton 1) (SparseTree.pairs_empty 1)

theorem accumulator_fixed_by_set_lone :
    cacheKey 240 (maskLowerBits 1 240) ∈ (afterCalls true [.insert 1]).nodes ∧
      setAfter [.insert 1] = setAfter [.insert 1, .insert 2, .remove 2] := by
  have hset : setAfter [.insert 1] = {1} := insert_empty_eq 1
  have hset' : setAfter [.insert 1, .insert 2, .remove 2] = {1} := by
    ext c
    simp only [setAfter, List.foldl_cons, List.foldl_nil, Call.onSet, insert_empty_eq,
      Set.mem_sdiff, Set.mem_insert_iff, Set.mem_singleton_iff]
    constructor
    · rintro ⟨rfl | rfl, hne⟩
      · exact absurd rfl hne
      · rfl
    · rintro rfl
      exact ⟨.inr rfl, by decide⟩
  have hzero : (0 : Bytes32) ∉ ({1} : Set Bytes32) := by decide
  obtain ⟨hcalls, hroots⟩ := accumulator_fixed_by_set true
  have hcached := (hcalls [.insert 1]).2.2.2.2.2.1
  have hsame := hroots [.insert 1] [.insert 1, .insert 2, .remove 2]
  rw [hset] at hcached
  rw [hset, hset'] at hsame ⊢
  refine ⟨(hcached (lonePairs_apart.mono fun p => mem_lone) hzero 240 1 (Nat.le_refl 240)
    (by omega)).mpr (below_ne_nil ?_ (.refl 240 1)), hsame ?_ hzero hzero ?_⟩
  · rw [set_afterCalls, hset]
    rfl
  · exact lonePairs_apart.mono fun p hp => mem_lone (.inl (hp.elim id id))
  · rw [CachedAccumulator.root_eq_subtree (caches_afterCalls true _) 0,
      CachedAccumulator.root_eq_subtree (caches_afterCalls true _) 0, set_afterCalls,
      set_afterCalls, hset, hset']

/-- The cache does not hold every subtree that is not empty: the one over the zero coin hashes
like an empty one. -/
theorem occupied_subtree_uncached :
    ¬∀ calls h path, 240 ≤ h → h ≤ 256 →
      (cacheKey h (maskLowerBits path h) ∈ (afterCalls true calls).nodes ↔
        (afterCalls true calls).below h path ≠ []) := by
  intro hn
  refine zero_coin_uncached true (Nat.le_refl 240) (by omega)
    ((hn [.insert 0] 240 0 (Nat.le_refl 240) (by omega)).mpr (below_ne_nil ?_ (.refl 240 0)))
  rw [set_afterCalls]
  exact Set.mem_insert 0 ∅

end

end Midwimble
