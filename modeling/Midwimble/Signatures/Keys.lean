import Midwimble.Core.Mss

namespace Midwimble
open Fallible
set_option autoImplicit true

/-- The digits of a message, the first from its highest bits. -/
def messageDigits (m : Bytes32) : List Nat :=
  (List.range 16).map fun i => m.toNat >>> (16 * (15 - i)) % 2 ^ 16

/-- What is left to the largest digit, over some digits. -/
def checksum (digits : List Nat) : Nat := (digits.map fun d => maxDigit - d).sum

theorem wotsDigits_eq (m : Bytes32) :
    wotsDigits m = messageDigits m ++
      [checksum (messageDigits m) >>> 16 % 2 ^ 16, checksum (messageDigits m) % 2 ^ 16] := rfl

theorem length_messageDigits (m : Bytes32) : (messageDigits m).length = 16 := by
  rw [messageDigits, List.length_map, List.length_range]

theorem length_wotsDigits (m : Bytes32) : (wotsDigits m).length = wotsChains := by
  rw [wotsDigits_eq, List.length_append, length_messageDigits]
  rfl

theorem mod_le_maxDigit (n : Nat) : n % 2 ^ 16 ≤ maxDigit :=
  Nat.le_of_lt_succ (Nat.mod_lt n (by decide))

theorem messageDigits_le (m : Bytes32) : ∀ d ∈ messageDigits m, d ≤ maxDigit := by
  intro d hd
  obtain ⟨i, -, rfl⟩ := List.mem_map.mp hd
  exact mod_le_maxDigit _

theorem wotsDigits_le (m : Bytes32) : ∀ d ∈ wotsDigits m, d ≤ maxDigit := by
  intro d hd
  rw [wotsDigits_eq, List.mem_append, List.mem_cons, List.mem_singleton] at hd
  rcases hd with hd | hd | hd
  · exact messageDigits_le m d hd
  · rw [hd]
    exact mod_le_maxDigit _
  · rw [hd]
    exact mod_le_maxDigit _

variable [Primitives]

theorem finish_chains {xs : List Bytes32} {ds : List Nat} (hlen : xs.length = ds.length)
    (hd : ∀ d ∈ ds, d ≤ maxDigit) :
    List.zipWith (fun x d => (fun y => hash (Bytes32.toBytes y))^[65535 - d] x)
        (processWotsBatch xs ds) ds =
      processWotsBatch xs (List.replicate xs.length maxDigit) := by
  induction xs generalizing ds with
  | nil => rfl
  | cons x xs ih =>
    cases ds with
    | nil => cases hlen
    | cons d ds =>
      have hle : d ≤ maxDigit := hd d List.mem_cons_self
      have hsum : 65535 - d + d = maxDigit := Nat.sub_add_cancel hle
      have htail := ih (Nat.succ.inj hlen) fun e he => hd e (List.mem_cons_of_mem d he)
      unfold processWotsBatch at htail ⊢
      rw [List.zipWith_cons_cons, List.zipWith_cons_cons, htail, List.length_cons,
        List.replicate_succ, List.zipWith_cons_cons, scalarWotsChain, scalarWotsChain,
        ← Function.iterate_add_apply, hsum]

theorem wotsVerify_sign (seed m : Bytes32) :
    wotsVerify (wotsSign seed m) m (wotsKeygen seed) = true := by
  have hsks : (chainSks seed).length = wotsChains := by
    rw [chainSks, List.length_map, List.length_range]
  have hlen : (chainSks seed).length = (wotsDigits m).length :=
    hsks.trans (length_wotsDigits m).symm
  have hchains := finish_chains hlen (wotsDigits_le m)
  rw [hsks] at hchains
  unfold wotsVerify wotsSign wotsKeygen
  rw [hchains]
  exact decide_eq_true rfl

section Leaves

variable {seed : Bytes32} {leaves k i start count : Nat} {tree saved : List Bytes32}

/-- The leaf row of a tree being grown: leaves up to some point, then zeros. -/
def PartialRow (seed : Bytes32) (leaves k : Nat) (row : Nat → Option Bytes32) : Prop :=
  ∀ i < leaves, row i = some (if i < k then leafPublicKey seed i else 0)

/-- A checkpoint of the first leaves of a tree. -/
def PartialLeaves (seed : Bytes32) (leaves : Nat) (saved : List Bytes32) : Prop :=
  saved.length = leaves ∧ ∃ k, PartialRow seed leaves k fun i => saved[i]?

/-- A tree whose first `k` leaves are filled, and nothing else. -/
structure GrownTree (seed : Bytes32) (leaves k : Nat) (tree : List Bytes32) : Prop where
  length : tree.length = leaves * 2
  inner : ∀ j < leaves, tree[j]? = some 0
  row : PartialRow seed leaves k fun i => tree[leaves + i]?

namespace GrownTree

theorem empty : GrownTree seed leaves 0 (List.replicate (leaves * 2) 0) where
  length := List.length_replicate
  inner j hj := by
    rw [List.getElem?_replicate, if_pos (by omega)]
  row i hi := by
    dsimp only
    rw [List.getElem?_replicate, if_pos (by omega), if_neg (Nat.not_lt_zero i)]

theorem set (h : GrownTree seed leaves k tree) (hk : i ≤ k) (hi : i < leaves) :
    GrownTree seed leaves (max k (i + 1)) (tree.set (leaves + i) (leafPublicKey seed i)) where
  length := by rw [List.length_set, h.length]
  inner j hj := by
    rw [List.getElem?_set_ne (by omega)]
    exact h.inner j hj
  row j hj := by
    dsimp only
    by_cases hij : i = j
    · subst hij
      have hlen : leaves + i < tree.length := by
        rw [h.length]
        omega
      rw [List.getElem?_set_self hlen, if_pos (by omega)]
    · have hrow := h.row j hj
      dsimp only at hrow
      rw [List.getElem?_set_ne (by omega), hrow]
      -- No index but `i` lies between `k` and `max k (i + 1)`.
      by_cases hjk : j < k
      · rw [if_pos hjk, if_pos (by omega)]
      · rw [if_neg hjk, if_neg (by omega)]

theorem fill (h : GrownTree seed leaves k tree) (hk : start ≤ k) (hstop : start + count ≤ leaves) :
    GrownTree seed leaves (max k (start + count)) (fillLeaves seed leaves start count tree) := by
  induction count generalizing start k tree with
  | zero =>
    rw [fillLeaves, Nat.add_zero, Nat.max_eq_left hk]
    exact h
  | succ count ih =>
    have hset : GrownTree seed leaves (max k (start + 1))
        (tree.set (leaves + start) (leafPublicKey seed start)) := h.set hk (by omega)
    have hrest := ih hset (Nat.le_max_right k (start + 1)) (by omega)
    have hmax : max (max k (start + 1)) (start + 1 + count) = max k (start + (count + 1)) := by
      omega
    rw [hmax] at hrest
    exact hrest

theorem checkpoint (h : GrownTree seed leaves k tree) :
    PartialLeaves seed leaves (tree.drop leaves) := by
  refine ⟨?_, k, ?_⟩
  · rw [List.length_drop, h.length]
    omega
  · intro i hi
    dsimp only
    rw [List.getElem?_drop]
    exact h.row i hi

theorem unique {k' : Nat} {tree' : List Bytes32} (h : GrownTree seed leaves k tree)
    (h' : GrownTree seed leaves k' tree') (hk : leaves ≤ k) (hk' : leaves ≤ k') : tree = tree' := by
  apply List.ext_getElem?
  intro j
  rcases Nat.lt_or_ge j leaves with hj | hj
  · rw [h.inner j hj, h'.inner j hj]
  · obtain ⟨i, rfl⟩ := Nat.exists_eq_add_of_le hj
    by_cases hi : i < leaves
    · have hrow := h.row i hi
      have hrow' := h'.row i hi
      dsimp only at hrow hrow'
      rw [hrow, hrow', if_pos (by omega), if_pos (by omega)]
    · have hlen := h.length
      have hlen' := h'.length
      rw [List.getElem?_eq_none (by omega), List.getElem?_eq_none (by omega)]

theorem chunks {saves : List (List Bytes32)} (h : GrownTree seed leaves k tree)
    (hk : min start leaves ≤ k) (hsaves : ∀ s ∈ saves, PartialLeaves seed leaves s) :
    (∃ k' ≥ leaves, GrownTree seed leaves k' (fillChunks seed leaves start tree saves).1) ∧
      ∀ s ∈ (fillChunks seed leaves start tree saves).2, PartialLeaves seed leaves s := by
  fun_induction fillChunks seed leaves start tree saves generalizing k with
  | case1 start tree saves hstart stop tree' saves' =>
    rename_i ih
    have hgrown : GrownTree seed leaves (max k (start + (stop - start))) tree' :=
      h.fill (by omega) (by omega)
    apply ih hgrown
    · omega
    · intro s hs
      by_cases hsave : start / chunkSize % 10 = 0 ∨ stop = leaves
      · have heq : saves' = saves ++ [tree'.drop leaves] := if_pos hsave
        rw [heq, List.mem_append, List.mem_singleton] at hs
        rcases hs with hs | rfl
        · exact hsaves s hs
        · exact hgrown.checkpoint
      · have heq : saves' = saves := if_neg hsave
        rw [heq] at hs
        exact hsaves s hs
  | case2 start tree saves hstart => exact ⟨⟨k, by omega, h⟩, hsaves⟩

end GrownTree

theorem leavesCompleted_le (h : PartialRow seed leaves k fun i => saved[i]?)
    (hlen : saved.length = leaves) : leavesCompleted saved ≤ k := by
  have hzero : (saved.drop k).countP (· ≠ 0) = 0 := by
    apply List.countP_eq_zero.mpr
    intro x hx
    obtain ⟨j, hj⟩ := List.getElem?_of_mem hx
    rw [List.getElem?_drop] at hj
    obtain ⟨hlt, -⟩ := List.getElem?_eq_some_iff.mp hj
    have hrow := h (k + j) (by omega)
    dsimp only at hrow
    rw [if_neg (by omega), hj] at hrow
    obtain rfl := Option.some.inj hrow
    simp
  calc
    leavesCompleted saved = (saved.take k ++ saved.drop k).countP (· ≠ 0) := by
      rw [List.take_append_drop, leavesCompleted]
    _ = (saved.take k).countP (· ≠ 0) := by rw [List.countP_append, hzero, Nat.add_zero]
    _ ≤ (saved.take k).length := List.countP_le_length
    _ ≤ k := List.length_take_le k saved

theorem GrownTree.resume {checkpoint : Option (List Bytes32)}
    (h : ∀ saved, checkpoint = some saved → saved.length = leaves →
      PartialLeaves seed leaves saved) :
    ∃ k, (resumeTree leaves checkpoint).2 ≤ k ∧
      GrownTree seed leaves k (resumeTree leaves checkpoint).1 := by
  have hfresh : ∃ k, 0 ≤ k ∧ GrownTree seed leaves k (List.replicate (leaves * 2) 0) :=
    ⟨0, Nat.le_refl 0, .empty⟩
  cases checkpoint with
  | none => exact hfresh
  | some saved =>
    unfold resumeTree
    dsimp only
    by_cases hlen : saved.length = leaves
    · obtain ⟨-, k, hrow⟩ := h saved rfl hlen
      rw [if_pos hlen]
      have htake : ((List.replicate (leaves * 2) (0 : Bytes32)).take leaves).length = leaves := by
        rw [List.length_take, List.length_replicate]
        omega
      refine ⟨k, leavesCompleted_le hrow hlen, ?_, ?_, ?_⟩
      · rw [List.length_append, htake, hlen]
        omega
      · intro j hj
        rw [List.getElem?_append_left (by omega), List.getElem?_take_of_lt hj]
        exact (GrownTree.empty : GrownTree seed leaves 0 _).inner j hj
      · intro i hi
        dsimp only
        rw [List.getElem?_append_right (by omega), htake, Nat.add_sub_cancel_left]
        exact hrow i hi
    · rw [if_neg hlen]
      exact hfresh

end Leaves

section Tree

variable {leaves last h j k s : Nat} {tree : List Bytes32}

/-- Every inner node of a tree is the hash of the two below it. -/
def Heap (leaves : Nat) (tree : List Bytes32) : Prop :=
  ∀ j, 1 ≤ j → j < leaves →
    tree.getD j 0 = parentHash (tree.getD (2 * j) 0) (tree.getD (2 * j + 1) 0)

omit [Primitives] in
theorem getD_set_ne {i : Nat} {x : Bytes32} (h : i ≠ j) :
    (tree.set i x).getD j 0 = tree.getD j 0 := by
  rw [List.getD_eq_getElem?_getD, List.getElem?_set_ne h, List.getD_eq_getElem?_getD]

theorem buildNodes_above (h : last < j) : (buildNodes last tree).getD j 0 = tree.getD j 0 := by
  induction last generalizing tree with
  | zero => rfl
  | succ last ih => rw [buildNodes, ih (by omega), getD_set_ne (by omega)]

theorem buildNodes_node (hlen : 2 * last + 1 < tree.length) (h1 : 1 ≤ j) (hj : j ≤ last) :
    (buildNodes last tree).getD j 0 =
      parentHash ((buildNodes last tree).getD (2 * j) 0)
        ((buildNodes last tree).getD (2 * j + 1) 0) := by
  induction last generalizing tree with
  | zero => omega
  | succ last ih =>
    rw [buildNodes]
    rcases Nat.lt_or_eq_of_le hj with hj | rfl
    · exact ih (by rw [List.length_set]; omega) (by omega)
    · -- The node itself is written last, after both nodes below it.
      have hself : ∀ x : Bytes32, (tree.set (last + 1) x).getD (last + 1) 0 = x := by
        intro x
        rw [List.getD_eq_getElem?_getD, List.getElem?_set_self (by omega), Option.getD_some]
      rw [buildNodes_above (by omega), buildNodes_above (by omega), buildNodes_above (by omega),
        hself, getD_set_ne (by omega), getD_set_ne (by omega)]

theorem heap_buildNodes (hlen : tree.length = leaves * 2) (hpos : 0 < leaves) :
    Heap leaves (buildNodes (leaves - 1) tree) := by
  intro j h1 hj
  exact buildNodes_node (by omega) h1 (by omega)

/-- The nodes from `s` on, as many. -/
def treeLevel (tree : List Bytes32) (s : Nat) : List Bytes32 :=
  (List.range' s s).map fun j => tree.getD j 0

theorem nextLevel_map (g : Nat → Bytes32) :
    nextLevel ((List.range' (2 * s) (2 * k)).map g) =
      (List.range' s k).map fun j => parentHash (g (2 * j)) (g (2 * j + 1)) := by
  induction k generalizing s with
  | zero => rfl
  | succ k ih =>
    have hnext := ih (s := s + 1)
    rw [show 2 * (k + 1) = 2 * k + 1 + 1 by omega, List.range'_succ, List.range'_succ,
      List.range'_succ, List.map_cons, List.map_cons, List.map_cons, nextLevel, ← hnext]
    rfl

theorem nextLevel_treeLevel (hheap : Heap leaves tree) (hs : 1 ≤ s) (hle : 2 * s ≤ leaves) :
    nextLevel (treeLevel tree (2 * s)) = treeLevel tree s := by
  rw [treeLevel, nextLevel_map, treeLevel]
  apply List.map_congr_left
  intro j hj
  obtain ⟨hsj, hjs⟩ := List.mem_range'_1.mp hj
  exact (hheap j (hs.trans hsj) (by omega)).symm

theorem topOf_treeLevel (hheap : Heap leaves tree) (hle : 2 ^ h ≤ leaves) :
    topOf (treeLevel tree (2 ^ h)) = tree.getD 1 0 := by
  induction h with
  | zero =>
    rw [topOf]
    rfl
  | succ h ih =>
    have hpos : 0 < 2 ^ h := Nat.two_pow_pos h
    rw [Nat.pow_succ'] at hle ⊢
    have hlen : (treeLevel tree (2 * 2 ^ h)).length > 1 := by
      rw [treeLevel, List.length_map, List.length_range']
      omega
    rw [topOf, if_pos hlen, nextLevel_treeLevel hheap hpos hle]
    exact ih (by omega)

omit [Primitives] in
theorem length_authSiblings {node : Nat} : (authSiblings tree h node).length = h := by
  induction h generalizing node with
  | zero => rfl
  | succ h ih => rw [authSiblings, List.length_cons, ih]

theorem authRoot_authSiblings {index : Nat} (hheap : Heap leaves tree) (hle : 2 ^ h ≤ leaves)
    (hindex : index < 2 ^ h) :
    authRoot index (authSiblings tree h (2 ^ h + index)) (tree.getD (2 ^ h + index) 0) =
      tree.getD 1 0 := by
  induction h generalizing index with
  | zero =>
    obtain rfl : index = 0 := by omega
    rfl
  | succ h ih =>
    rw [Nat.pow_succ'] at hle hindex ⊢
    have hpos : 0 < 2 ^ h := Nat.two_pow_pos h
    have hhalf : (2 * 2 ^ h + index) / 2 = 2 ^ h + index / 2 := by omega
    have hparent := hheap (2 ^ h + index / 2) (by omega) (by omega)
    have hhalfway : index / 2 < 2 ^ h := by omega
    have hup := ih (by omega) hhalfway
    rw [authSiblings, authRoot, hhalf]
    rcases Nat.mod_two_eq_zero_or_one index with heven | hodd
    · have hself : 2 * (2 ^ h + index / 2) = 2 * 2 ^ h + index := by omega
      rw [hself] at hparent
      rw [if_pos heven, if_pos (by omega), ← hup, hparent, parentHash]
    · have hself : 2 * (2 ^ h + index / 2) + 1 = 2 * 2 ^ h + index := by omega
      have hleft : 2 * (2 ^ h + index / 2) = 2 * 2 ^ h + index - 1 := by omega
      rw [hself, hleft] at hparent
      rw [if_neg (by omega), if_neg (by omega), ← hup, hparent, parentHash]

end Tree

section Keygen

variable {seed : Bytes32} {height i : Nat}

/-- The key pair of a seed: every leaf in its place, every node hashed. -/
def keypairOf (seed : Bytes32) (height : Nat) : MssKeypair :=
  .build height seed
    (fillLeaves seed (2 ^ height) 0 (2 ^ height) (List.replicate (2 ^ height * 2) 0))

/-- What native key generation finds in its checkpoint file is not of another tree: nothing, a
list of another length, or the first leaves of this tree. -/
def ResumesOwn (seed : Bytes32) (height : Nat) (checkpoint : Option (List Bytes32)) : Prop :=
  ∀ saved, checkpoint = some saved → saved.length = 2 ^ height →
    PartialLeaves seed (2 ^ height) saved

theorem grown_fillLeaves :
    GrownTree seed (2 ^ height) (2 ^ height)
      (fillLeaves seed (2 ^ height) 0 (2 ^ height) (List.replicate (2 ^ height * 2) 0)) := by
  have h : GrownTree seed (2 ^ height) 0 (List.replicate (2 ^ height * 2) 0) := .empty
  have hfill := h.fill (Nat.le_refl 0) (Nat.le_of_eq (Nat.zero_add (2 ^ height)))
  rw [Nat.zero_add, Nat.max_eq_right (Nat.zero_le _)] at hfill
  exact hfill

omit [Primitives] in
theorem checkHeight_eq_ok (h1 : 1 ≤ height) (h20 : height ≤ maxHeight) :
    checkHeight height = .ok () := by
  rw [checkHeight, bailIf_neg (by omega)]

theorem keygenSequential_eq (h1 : 1 ≤ height) (h20 : height ≤ maxHeight) :
    keygenSequential seed height = .ok (keypairOf seed height) := by
  rw [keygenSequential, checkHeight_eq_ok h1 h20]
  rfl

theorem keygenNative_eq {checkpoint : Option (List Bytes32)} (h1 : 1 ≤ height)
    (h20 : height ≤ maxHeight) (hown : ResumesOwn seed height checkpoint) :
    ∃ saves, keygenNative seed height checkpoint = .ok (keypairOf seed height, saves) ∧
      ∀ saved ∈ saves, PartialLeaves seed (2 ^ height) saved := by
  obtain ⟨k, hcount, hgrown⟩ := GrownTree.resume hown
  unfold keygenNative
  rw [checkHeight_eq_ok h1 h20, bind_ok]
  rcases hresume : resumeTree (2 ^ height) checkpoint with ⟨tree, completed⟩
  rw [hresume] at hcount hgrown
  have hnone : ∀ s ∈ ([] : List (List Bytes32)), PartialLeaves seed (2 ^ height) s := nofun
  obtain ⟨⟨k', hk', hfilled⟩, hsaves⟩ :=
    hgrown.chunks ((Nat.min_le_left _ _).trans hcount) hnone
  have htree := hfilled.unique grown_fillLeaves hk' (Nat.le_refl _)
  refine ⟨_, ?_, hsaves⟩
  rw [keypairOf, ← htree]

theorem heap_keypairOf : Heap (2 ^ height) (keypairOf seed height).tree :=
  heap_buildNodes grown_fillLeaves.length (Nat.two_pow_pos height)

theorem leaf_keypairOf (hi : i < 2 ^ height) :
    (keypairOf seed height).tree.getD (2 ^ height + i) 0 = leafPublicKey seed i := by
  have hrow := (grown_fillLeaves : GrownTree seed (2 ^ height) (2 ^ height) _).row i hi
  dsimp only at hrow
  rw [if_pos hi] at hrow
  rw [keypairOf, MssKeypair.build, buildNodes_above (by omega), List.getD_eq_getElem?_getD, hrow,
    Option.getD_some]

theorem treeLevel_keypairOf :
    treeLevel (keypairOf seed height).tree (2 ^ height) =
      (List.range (2 ^ height)).map (leafPublicKey seed) := by
  rw [treeLevel, List.range'_eq_map_range, List.map_map]
  apply List.map_congr_left
  intro i hi
  exact leaf_keypairOf (List.mem_range.mp hi)

theorem rootFromLeaves_eq (h1 : 1 ≤ height) (h20 : height ≤ maxHeight) :
    rootFromLeaves ((List.range (2 ^ height)).map (leafPublicKey seed)) =
      .ok (keypairOf seed height).masterPk := by
  have hlen : ((List.range (2 ^ height)).map (leafPublicKey seed)).length = 2 ^ height := by
    rw [List.length_map, List.length_range]
  have htwo : 2 ^ 1 ≤ 2 ^ height := Nat.pow_le_pow_right (by omega) h1
  have hmax : 2 ^ height ≤ 2 ^ maxHeight := Nat.pow_le_pow_right (by omega) h20
  have hpow : (2 ^ height).isPowerOfTwo := ⟨height, rfl⟩
  have hvalid : ¬ (2 ^ height < 2 ∨ ¬ (2 ^ height).isPowerOfTwo ∨ 2 ^ height > 2 ^ maxHeight) := by
    rintro (h | h | h)
    · omega
    · exact h hpow
    · omega
  rw [rootFromLeaves, hlen, bailIf_neg hvalid, bind_ok, ← treeLevel_keypairOf,
    topOf_treeLevel heap_keypairOf (Nat.le_refl _)]
  rfl

theorem verify_sign (message : Bytes32) (h20 : height ≤ maxHeight) (hi : i < 2 ^ height) :
    ∃ sig, { keypairOf seed height with nextLeaf := i }.sign message =
        ({ keypairOf seed height with nextLeaf := i + 1 }, .ok sig) ∧
      sig.leafIndex = i ∧ sig.authPath.length = height ∧ sig.wotsSig.length = wotsChains ∧
      sig.verify message (keypairOf seed height).masterPk = true := by
  have hauth : authRoot i ((keypairOf seed height).authPath i) (leafPublicKey seed i) =
      (keypairOf seed height).masterPk := by
    have hheap : Heap (2 ^ height) (keypairOf seed height).tree := heap_keypairOf
    have h := authRoot_authSiblings hheap (Nat.le_refl _) hi
    rw [leaf_keypairOf hi] at h
    exact h
  have hsign : { keypairOf seed height with nextLeaf := i }.sign message =
      ({ keypairOf seed height with nextLeaf := i + 1 },
        .ok ⟨i, leafPublicKey seed i, wotsSign (deriveWotsSeed seed i) message,
          (keypairOf seed height).authPath i⟩) := if_neg (Nat.not_le_of_lt hi)
  have hpath : ((keypairOf seed height).authPath i).length = height := length_authSiblings
  refine ⟨_, hsign, rfl, hpath, ?_, ?_⟩
  · rw [wotsSign, processWotsBatch, List.length_zipWith, length_wotsDigits, chainSks,
      List.length_map, List.length_range, Nat.min_self]
  · have hlen : height % 2 ^ 32 = height := by
      unfold maxHeight at h20
      omega
    have hsmall : height < 64 := by
      unfold maxHeight at h20
      omega
    unfold MssSignature.verify
    dsimp only
    rw [hpath, hlen, if_pos hsmall, hauth, leafPublicKey, wotsVerify_sign,
      decide_eq_true hi, decide_eq_true rfl]
    rfl

end Keygen

end Midwimble
