import Midwimble.Core.PoolWindow
import Midwimble.Pool.ShareTree

namespace Midwimble
set_option autoImplicit true

/-- The weight beneath some nodes. -/
def totalWeight (nodes : List TreeNode) : Nat := (nodes.map TreeNode.weight).sum

@[simp] theorem totalWeight_nil : totalWeight [] = 0 := rfl

@[simp] theorem totalWeight_cons (node : TreeNode) (nodes : List TreeNode) :
    totalWeight (node :: nodes) = node.weight + totalWeight nodes := by
  simp [totalWeight]

theorem weight_le_totalWeight {nodes : List TreeNode} {node : TreeNode} {i : Nat}
    (h : nodes[i]? = some node) :
    node.weight ≤ totalWeight nodes :=
  List.single_le_sum (fun _ _ => Nat.zero_le _) _
    (List.mem_map_of_mem (List.mem_of_getElem? h))

theorem weights_le_totalWeight {nodes : List TreeNode} {a b : TreeNode} (ha : nodes[i]? = some a)
    (hb : nodes[i + 1]? = some b) : a.weight + b.weight ≤ totalWeight nodes := by
  induction nodes generalizing i with
  | nil => simp at ha
  | cons node nodes ih =>
    cases i with
    | zero =>
      simp only [List.getElem?_cons_zero, Option.some.injEq] at ha
      simp only [Nat.zero_add, List.getElem?_cons_succ] at hb
      have := weight_le_totalWeight hb
      rw [totalWeight_cons, ha]
      omega
    | succ i =>
      simp only [List.getElem?_cons_succ] at ha hb
      have := ih ha hb
      rw [totalWeight_cons]
      omega

theorem totalWeight_take_succ {nodes : List TreeNode} {i : Nat} (h : nodes[i]? = some node) :
    totalWeight (nodes.take (i + 1)) = totalWeight (nodes.take i) + node.weight := by
  rw [List.take_add_one, h]
  simp [totalWeight]

/-- Nodes whose ranges of final hashes ascend. -/
structure AscendingRanges (nodes : List TreeNode) : Prop where
  range : ∀ a ∈ nodes, a.low ≤ a.high
  apart : nodes.Pairwise fun a b => a.high < b.low

theorem AscendingRanges.next {nodes : List TreeNode} {a b : TreeNode} {i j : Nat}
    (h : AscendingRanges nodes) (ha : nodes[i]? = some a) (hb : nodes[j]? = some b) (hij : i < j) :
    a.high < b.low := by
  obtain ⟨hi, rfl⟩ := List.getElem?_eq_some_iff.mp ha
  obtain ⟨hj, rfl⟩ := List.getElem?_eq_some_iff.mp hb
  exact List.pairwise_iff_getElem.mp h.apart i j hi hj hij

theorem AscendingRanges.tail {nodes : List TreeNode} (h : AscendingRanges (node :: nodes)) :
    AscendingRanges nodes :=
  ⟨fun a ha => h.range a (List.mem_cons_of_mem _ ha), h.apart.of_cons⟩

variable [Primitives]

theorem joinLevel_getElem? (level : List TreeNode) (k : Nat) :
    (joinLevel level)[k]? = match level[2 * k]?, level[2 * k + 1]? with
      | some a, some b => some (.join a b)
      | some a, none => some a
      | none, _ => none := by
  induction level using joinLevel.induct generalizing k with
  | case1 left right rest ih =>
    cases k with
    | zero => simp [joinLevel]
    | succ k =>
      have h : 2 * (k + 1) = 2 * k + 1 + 1 := by omega
      simp only [joinLevel, List.getElem?_cons_succ, h, ih]
  | case2 only => cases k <;> simp [joinLevel]
  | case3 => simp [joinLevel]

theorem joinLevel_pair {level : List TreeNode} (ha : level[2 * k]? = some a)
    (hb : level[2 * k + 1]? = some b) : (joinLevel level)[k]? = some (.join a b) := by
  rw [joinLevel_getElem?, ha, hb]

theorem joinLevel_alone {level : List TreeNode} (ha : level[2 * k]? = some a)
    (hb : level[2 * k + 1]? = none) : (joinLevel level)[k]? = some a := by
  rw [joinLevel_getElem?, ha, hb]

theorem join_weight {l r : TreeNode} (h : l.weight + r.weight < 2 ^ 64) :
    (TreeNode.join l r).weight = l.weight + r.weight := by
  simp only [TreeNode.join, satAdd64]
  omega

theorem totalWeight_take_joinLevel {level : List TreeNode} (h : totalWeight level < 2 ^ 64)
    (k : Nat) : totalWeight ((joinLevel level).take k) = totalWeight (level.take (2 * k)) := by
  induction level using joinLevel.induct generalizing k with
  | case1 left right rest ih =>
    simp only [totalWeight_cons] at h
    cases k with
    | zero => rfl
    | succ k =>
      have hk : 2 * (k + 1) = 2 * k + 1 + 1 := by omega
      rw [joinLevel, List.take_succ_cons, hk, List.take_succ_cons, List.take_succ_cons,
        totalWeight_cons, totalWeight_cons, totalWeight_cons, ih (by omega),
        join_weight (by omega), Nat.add_assoc]
  | case2 only => cases k <;> simp [joinLevel, Nat.mul_add]
  | case3 => simp [joinLevel]

theorem totalWeight_joinLevel {level : List TreeNode} (h : totalWeight level < 2 ^ 64) :
    totalWeight (joinLevel level) = totalWeight level := by
  have htake := totalWeight_take_joinLevel h level.length
  rwa [List.take_of_length_le (by rw [length_joinLevel]; omega),
    List.take_of_length_le (by omega)] at htake

theorem mem_joinLevel {level : List TreeNode} (h : node ∈ joinLevel level) :
    ∃ a ∈ level, ∃ b ∈ level, node.low = a.low ∧ node.high = b.high := by
  induction level using joinLevel.induct with
  | case1 left right rest ih =>
    cases List.mem_cons.mp h with
    | inl heq =>
      rw [heq]
      exact ⟨left, by simp, right, by simp, rfl, rfl⟩
    | inr hrest =>
      obtain ⟨a, ha, b, hb, hab⟩ := ih hrest
      exact ⟨a, by simp [ha], b, by simp [hb], hab⟩
  | case2 only =>
    simp only [joinLevel, List.mem_singleton] at h
    exact ⟨only, by simp, only, by simp, by rw [h], by rw [h]⟩
  | case3 => simp [joinLevel] at h

theorem AscendingRanges.joinLevel {level : List TreeNode} (h : AscendingRanges level) :
    AscendingRanges (joinLevel level) := by
  induction level using joinLevel.induct with
  | case1 left right rest ih =>
    have hrest := ih h.tail.tail
    have hl := h.range left (by simp)
    have hr := h.range right (by simp)
    have hlr : left.high < right.low := List.rel_of_pairwise_cons h.apart (by simp)
    rw [Midwimble.joinLevel]
    refine ⟨fun node hnode => ?_, List.pairwise_cons.mpr ⟨fun node hnode => ?_, hrest.apart⟩⟩
    · cases List.mem_cons.mp hnode with
      | inl heq =>
        rw [heq]
        simp only [TreeNode.join, BitVec.le_def, BitVec.lt_def] at hl hr hlr ⊢
        omega
      | inr hmem => exact hrest.range node hmem
    · obtain ⟨a, ha, b, hb, hlow, -⟩ := mem_joinLevel hnode
      rw [hlow]
      exact List.rel_of_pairwise_cons h.apart.of_cons ha
  | case2 only => simpa [Midwimble.joinLevel] using h
  | case3 => simpa [Midwimble.joinLevel] using h

theorem joinChecked_eq {l r : TreeNode} (hw : l.weight + r.weight < 2 ^ 64)
    (ho : l.high < r.low) : TreeNode.joinChecked l r = some (.join l r) := by
  rw [TreeNode.joinChecked, checkedAdd, if_pos hw]
  simp [ho]

namespace ShareTree

theorem levelsFrom_ne_nil (level : List TreeNode) : levelsFrom level ≠ [] := by
  rw [levelsFrom.eq_def]
  split <;> simp

theorem levelsFrom_cons {level : List TreeNode} (h : level.length > 1) :
    levelsFrom level = level :: levelsFrom (joinLevel level) := by
  rw [levelsFrom.eq_def, if_pos h]

theorem levelsFrom_one {level : List TreeNode} (h : ¬ level.length > 1) :
    levelsFrom level = [level] := by
  rw [levelsFrom.eq_def, if_neg h]

theorem dropLast_levelsFrom {level : List TreeNode} (h : level.length > 1) :
    (levelsFrom level).dropLast = level :: (levelsFrom (joinLevel level)).dropLast := by
  rw [levelsFrom_cons h, List.dropLast_cons_of_ne_nil (levelsFrom_ne_nil _)]

theorem root_build {level : List TreeNode} (h : level.length > 1) :
    (build level).root = (build (joinLevel level)).root := by
  unfold build root
  rw [levelsFrom_cons h, List.getLast?_cons_of_ne_nil (levelsFrom_ne_nil _)]

theorem root_build_one {level : List TreeNode} (h : ¬ level.length > 1) :
    (build level).root = level.head? := by
  unfold build root
  rw [levelsFrom_one h]
  rfl

/-- The siblings of any node of a level fold it up to the root, and add up to the weight before
it: a pair joins, a node alone at the end of a level rises as it is. -/
theorem foldShareUp_siblings {level : List TreeNode} (hi : level[i]? = some node)
    (hr : AscendingRanges level) (hw : totalWeight level < 2 ^ 64)
    (hs : start + totalWeight (level.take i) < 2 ^ 64) :
    ∃ top, (build level).root = some top ∧
      foldShareUp node i level.length start (siblings i (levelsFrom level).dropLast) =
        some (top, start + totalWeight (level.take i)) := by
  induction level using levelsFrom.induct generalizing i node start with
  | case2 level hone =>
    obtain ⟨hlt, hget⟩ := List.getElem?_eq_some_iff.mp hi
    obtain ⟨x, rfl⟩ := List.length_eq_one_iff.mp (by omega : level.length = 1)
    have hzero : i = 0 := by simpa using hlt
    subst hzero
    simp only [List.getElem_cons_zero] at hget
    subst hget
    refine ⟨x, by rw [root_build_one hone]; rfl, ?_⟩
    rw [levelsFrom_one hone, foldShareUp.eq_def]
    simp [siblings]
  | case1 level hmany ih =>
    have hlt : i < level.length := (List.getElem?_eq_some_iff.mp hi).1
    have hjw : totalWeight (joinLevel level) < 2 ^ 64 := by rwa [totalWeight_joinLevel hw]
    rw [root_build hmany, dropLast_levelsFrom hmany, foldShareUp.eq_def, if_pos hmany]
    obtain ⟨k, hk | hk⟩ := Nat.even_or_odd' i
    · -- on the left of a pair, or alone
      have hxor : i ^^^ 1 = i + 1 := Nat.xor_one_of_even ⟨k, by omega⟩
      have hhalf : i / 2 = k := by omega
      have heven : ¬ i % 2 = 1 := by omega
      have hbefore := totalWeight_take_joinLevel hw k
      rw [← hk] at hbefore
      rw [hxor, siblings, hxor, hhalf]
      cases hsib : level[i + 1]? with
      | some sibling =>
        have hin : i + 1 < level.length := (List.getElem?_eq_some_iff.mp hsib).1
        have hsum := weights_le_totalWeight hi hsib
        have hjoin : (joinLevel level)[k]? = some (.join node sibling) :=
          joinLevel_pair (hk ▸ hi) (hk ▸ hsib)
        obtain ⟨top, htop, hfold⟩ := ih hjoin hr.joinLevel hjw (by rwa [hbefore])
        rw [length_joinLevel, hbefore] at hfold
        refine ⟨top, htop, ?_⟩
        rw [if_pos hin]
        simp only [if_neg heven, Option.bind_eq_bind,
          joinChecked_eq (by omega) (hr.next hi hsib (Nat.lt_succ_self i)), Option.bind_some]
        exact hfold
      | none =>
        have hout : ¬ i + 1 < level.length := Nat.not_lt.mpr (List.getElem?_eq_none_iff.mp hsib)
        have hjoin : (joinLevel level)[k]? = some node := joinLevel_alone (hk ▸ hi) (hk ▸ hsib)
        obtain ⟨top, htop, hfold⟩ := ih hjoin hr.joinLevel hjw (by rwa [hbefore])
        rw [length_joinLevel, hbefore] at hfold
        refine ⟨top, htop, ?_⟩
        rw [if_neg hout]
        exact hfold
    · -- on the right of a pair
      have hxor : i ^^^ 1 = 2 * k := by
        rw [Nat.xor_one_of_odd ⟨k, by omega⟩]
        omega
      have hhalf : i / 2 = k := by omega
      have hodd : i % 2 = 1 := by omega
      have hbefore := totalWeight_take_joinLevel hw k
      have hsib : level[2 * k]? = some level[2 * k] := List.getElem?_eq_getElem (by omega)
      generalize level[2 * k] = sibling at hsib
      rw [hk] at hi
      have hsum := weights_le_totalWeight hsib hi
      have htake := totalWeight_take_succ hsib
      have hjoin : (joinLevel level)[k]? = some (.join sibling node) := joinLevel_pair hsib hi
      rw [hk, htake] at hs
      have hstart : start + sibling.weight + totalWeight ((joinLevel level).take k) < 2 ^ 64 := by
        rw [hbefore]
        omega
      obtain ⟨top, htop, hfold⟩ := ih hjoin hr.joinLevel hjw hstart
      rw [length_joinLevel, hbefore] at hfold
      refine ⟨top, htop, ?_⟩
      rw [hxor, if_pos (by omega), siblings, hxor, hsib, hhalf]
      have hadd : checkedAdd start sibling.weight = some (start + sibling.weight) := by
        rw [checkedAdd, if_pos (by omega)]
      simp only [if_pos hodd, Option.bind_eq_bind, hadd, Option.bind_some,
        joinChecked_eq (Nat.lt_of_le_of_lt hsum hw) (hr.next hsib hi (Nat.lt_succ_self _))]
      rw [hfold, hk, htake]
      congr 2
      omega

end ShareTree

/-- The pairs of a level that are joined. -/
def levelPairs : List TreeNode → List (TreeNode × TreeNode)
  | left :: right :: rest => (left, right) :: levelPairs rest
  | _ => []

/-- Everything hashed to build a share tree. -/
def treePreimages (level : List TreeNode) : List Bytes :=
  if level.length > 1 then
    (levelPairs level).map (fun p => TreeNode.joinPreimage p.1 p.2) ++
      treePreimages (joinLevel level)
  else []
termination_by level.length
decreasing_by
  rw [length_joinLevel]
  omega

omit [Primitives] in
theorem joinPreimage_children {l r l' r' : TreeNode}
    (h : l.weight < 2 ^ 64 ∧ r.weight < 2 ^ 64) (h' : l'.weight < 2 ^ 64 ∧ r'.weight < 2 ^ 64)
    (he : TreeNode.joinPreimage l r = TreeNode.joinPreimage l' r') : l = l' ∧ r = r' := by
  have hshort : ∀ l r : TreeNode,
      ∀ p ∈ Bytes.ascii "midwimble.pool.share-node.v1" :: TreeNode.joinParts l r,
        p.length < 2 ^ 64 := by
    intro l r
    simp only [TreeNode.joinParts, List.mem_cons, List.not_mem_nil, or_false]
    rintro p (rfl | rfl | rfl | rfl | rfl | rfl | rfl | rfl | rfl)
    · decide
    all_goals simp
  obtain ⟨-, hparts⟩ := domainPreimage_inj (hshort l r) (hshort l' r') he
  simp only [TreeNode.joinParts, List.cons.injEq, and_true] at hparts
  obtain ⟨h1, h2, h3, h4, h5, h6, h7, h8⟩ := hparts
  cases l
  cases r
  cases l'
  cases r'
  simp only [TreeNode.mk.injEq]
  exact ⟨⟨toBytes_inj h1, Bytes.le_inj h.1 h'.1 h2, toBytes_inj h3, toBytes_inj h4⟩,
    toBytes_inj h5, Bytes.le_inj h.2 h'.2 h6, toBytes_inj h7, toBytes_inj h8⟩

theorem joinLevel_inj {s : Set Bytes} (hinj : Set.InjOn blake3 s) {xs ys : List TreeNode}
    (hlen : xs.length = ys.length) (hx : ∀ a ∈ xs, a.weight < 2 ^ 64)
    (hy : ∀ a ∈ ys, a.weight < 2 ^ 64)
    (hxs : ∀ p ∈ levelPairs xs, TreeNode.joinPreimage p.1 p.2 ∈ s)
    (hys : ∀ p ∈ levelPairs ys, TreeNode.joinPreimage p.1 p.2 ∈ s)
    (h : joinLevel xs = joinLevel ys) : xs = ys := by
  induction xs using joinLevel.induct generalizing ys with
  | case1 left right rest ih =>
    rcases ys with _ | ⟨left', _ | ⟨right', rest'⟩⟩
    · simp at hlen
    · simp at hlen
    · simp only [joinLevel, List.cons.injEq] at h
      simp only [levelPairs, List.forall_mem_cons] at hx hy hxs hys
      obtain ⟨rfl, rfl⟩ := joinPreimage_children ⟨hx.1, hx.2.1⟩ ⟨hy.1, hy.2.1⟩
        (hinj hxs.1 hys.1 (congrArg TreeNode.hash h.1))
      rw [ih (by simpa using hlen) hx.2.2 hy.2.2 hxs.2 hys.2 h.2]
  | case2 only =>
    obtain ⟨y, rfl⟩ := List.length_eq_one_iff.mp hlen.symm
    exact h
  | case3 => exact (List.length_eq_zero_iff.mp hlen.symm).symm

theorem joinLevel_weights {level : List TreeNode} (h : ∀ a ∈ level, a.weight < 2 ^ 64) :
    ∀ a ∈ joinLevel level, a.weight < 2 ^ 64 := by
  induction level using joinLevel.induct with
  | case1 left right rest ih =>
    simp only [joinLevel, List.forall_mem_cons] at h ⊢
    refine ⟨?_, ih h.2.2⟩
    simp only [TreeNode.join, satAdd64]
    omega
  | case2 only => simpa [joinLevel] using h
  | case3 => simp [joinLevel]

theorem build_root_inj {s : Set Bytes} (hinj : Set.InjOn blake3 s) {xs ys : List TreeNode}
    (hlen : xs.length = ys.length) (hx : ∀ a ∈ xs, a.weight < 2 ^ 64)
    (hy : ∀ a ∈ ys, a.weight < 2 ^ 64) (hxs : ∀ p ∈ treePreimages xs, p ∈ s)
    (hys : ∀ p ∈ treePreimages ys, p ∈ s)
    (h : (ShareTree.build xs).root = (ShareTree.build ys).root) : xs = ys := by
  induction xs using ShareTree.levelsFrom.induct generalizing ys with
  | case1 level hmany ih =>
    have hmany' : ys.length > 1 := hlen ▸ hmany
    rw [ShareTree.root_build hmany, ShareTree.root_build hmany'] at h
    rw [treePreimages.eq_def, if_pos hmany, List.forall_mem_append] at hxs
    rw [treePreimages.eq_def, if_pos hmany', List.forall_mem_append] at hys
    have hjoined := ih (by rw [length_joinLevel, length_joinLevel, hlen]) (joinLevel_weights hx)
      (joinLevel_weights hy) hxs.2 hys.2 h
    apply joinLevel_inj hinj hlen hx hy
    · exact fun p hp => hxs.1 _ (List.mem_map_of_mem hp)
    · exact fun p hp => hys.1 _ (List.mem_map_of_mem hp)
    · exact hjoined
  | case2 level hone =>
    rw [ShareTree.root_build_one hone, ShareTree.root_build_one (hlen ▸ hone)] at h
    match level, ys, hlen with
    | [], [], _ => rfl
    | [x], [y], _ =>
      simp only [List.head?_cons, Option.some.injEq] at h
      rw [h]
    | _ :: _ :: _, _, _ => simp at hone

/-- What a layer's pairs hash. -/
def layerPreimages : List Bytes32 → List Bytes
  | a :: b :: rest => (a.toBytes ++ b.toBytes) :: layerPreimages rest
  | [a] => [a.toBytes ++ a.toBytes]
  | [] => []

/-- Everything hashed for a Merkle root. -/
def merklePreimages (layer : List Bytes32) : List Bytes :=
  if layer.length > 1 then layerPreimages layer ++ merklePreimages (hashLayer layer) else []
termination_by layer.length
decreasing_by
  rw [length_hashLayer]
  omega

theorem hashLayer_eq (layer : List Bytes32) :
    hashLayer layer = (layerPreimages layer).map blake3 := by
  induction layer using hashLayer.induct with
  | case1 a b rest ih => simp [hashLayer, layerPreimages, ih, hashConcat]
  | case2 a => simp [hashLayer, layerPreimages, hashConcat]
  | case3 => rfl

omit [Primitives] in
theorem layerPreimages_inj {xs ys : List Bytes32} (hlen : xs.length = ys.length)
    (h : layerPreimages xs = layerPreimages ys) : xs = ys := by
  induction xs using layerPreimages.induct generalizing ys with
  | case1 a b rest ih =>
    match ys, hlen with
    | a' :: b' :: rest', hlen =>
      simp only [layerPreimages, List.cons.injEq] at h
      obtain ⟨rfl, hb⟩ := toBytes_append_inj h.1
      rw [toBytes_inj hb, ih (by simpa using hlen) h.2]
  | case2 a =>
    obtain ⟨y, rfl⟩ := List.length_eq_one_iff.mp hlen.symm
    simp only [layerPreimages, List.cons.injEq, and_true] at h
    rw [(toBytes_append_inj h).1]
  | case3 => exact (List.length_eq_zero_iff.mp hlen.symm).symm

omit [Primitives] in
theorem map_injOn {α β : Type} {f : α → β} {s : Set α} (hinj : Set.InjOn f s) {xs ys : List α}
    (hx : ∀ x ∈ xs, x ∈ s) (hy : ∀ y ∈ ys, y ∈ s) (h : xs.map f = ys.map f) : xs = ys := by
  induction xs generalizing ys with
  | nil =>
    cases ys with
    | nil => rfl
    | cons y ys => cases h
  | cons x xs ih =>
    cases ys with
    | nil => cases h
    | cons y ys =>
      simp only [List.map_cons, List.cons.injEq] at h
      rw [hinj (hx x List.mem_cons_self) (hy y List.mem_cons_self) h.1,
        ih (fun z hz => hx z (List.mem_cons_of_mem _ hz))
          (fun z hz => hy z (List.mem_cons_of_mem _ hz)) h.2]

theorem merkleRoot_inj {s : Set Bytes} (hinj : Set.InjOn blake3 s) {xs ys : List Bytes32}
    (hlen : xs.length = ys.length) (hxs : ∀ p ∈ merklePreimages xs, p ∈ s)
    (hys : ∀ p ∈ merklePreimages ys, p ∈ s) (h : merkleRoot xs = merkleRoot ys) : xs = ys := by
  induction xs using merkleRoot.induct generalizing ys with
  | case1 layer hmany ih =>
    have hmany' : ys.length > 1 := hlen ▸ hmany
    rw [merkleRoot.eq_def, if_pos hmany, merkleRoot.eq_def ys, if_pos hmany'] at h
    rw [merklePreimages.eq_def, if_pos hmany, List.forall_mem_append] at hxs
    rw [merklePreimages.eq_def, if_pos hmany', List.forall_mem_append] at hys
    have hup := ih (by rw [length_hashLayer, length_hashLayer, hlen]) hxs.2 hys.2 h
    rw [hashLayer_eq, hashLayer_eq] at hup
    exact layerPreimages_inj hlen (map_injOn hinj hxs.1 hys.1 hup)
  | case2 layer hone =>
    rw [merkleRoot.eq_def, if_neg hone, merkleRoot.eq_def ys, if_neg (hlen ▸ hone)] at h
    match layer, ys, hlen with
    | [], [], _ => rfl
    | [x], [y], _ =>
      simp only [List.headD_cons] at h
      rw [h]
    | _ :: _ :: _, _, _ => simp at hone

namespace WindowOwner

structure Fits (o : WindowOwner) : Prop where
  weight : o.weight < 2 ^ 64
  shares : o.shares < 2 ^ 64

def leafPreimage (o : WindowOwner) : Bytes :=
  domainPreimage (Bytes.ascii "midwimble.pool.owner-leaf.v1")
    [o.id.toBytes, Bytes.le 8 o.weight, o.sharesRoot.toBytes, Bytes.le 8 o.shares]

omit [Primitives] in
theorem leafPreimage_inj {o p : WindowOwner} (ho : o.Fits) (hp : p.Fits)
    (h : o.leafPreimage = p.leafPreimage) : o = p := by
  have hshort : ∀ o : WindowOwner, ∀ x ∈ Bytes.ascii "midwimble.pool.owner-leaf.v1" ::
      [o.id.toBytes, Bytes.le 8 o.weight, o.sharesRoot.toBytes, Bytes.le 8 o.shares],
      x.length < 2 ^ 64 := by
    intro o
    simp only [List.mem_cons, List.not_mem_nil, or_false]
    rintro x (rfl | rfl | rfl | rfl | rfl)
    · decide
    all_goals simp
  obtain ⟨-, hparts⟩ := domainPreimage_inj (hshort o) (hshort p) h
  simp only [List.cons.injEq, and_true] at hparts
  obtain ⟨hid, hweight, hroot, hshares⟩ := hparts
  cases o
  cases p
  simp only [mk.injEq]
  exact ⟨toBytes_inj hid, Bytes.le_inj ho.weight hp.weight hweight, toBytes_inj hroot,
    Bytes.le_inj ho.shares hp.shares hshares⟩

end WindowOwner

namespace Window

structure Fits (w : Window) : Prop where
  startSeq : w.startSeq < 2 ^ 64
  endSeq : w.endSeq < 2 ^ 64
  shareBits : w.shareBits < 2 ^ 32
  count : w.owners.length < 2 ^ 64
  owners : ∀ o ∈ w.owners, o.Fits

def rootParts (w : Window) : List Bytes :=
  [(merkleRoot (w.owners.map WindowOwner.leaf)).toBytes, Bytes.le 8 w.owners.length,
    Bytes.le 16 (w.owners.map WindowOwner.weight).sum, Bytes.le 8 w.startSeq,
    Bytes.le 8 w.endSeq, Bytes.le 4 w.shareBits]

def rootPreimage (w : Window) : Bytes :=
  domainPreimage (Bytes.ascii "midwimble.pool.window.v3") w.rootParts

/-- Everything hashed for a window's root. -/
def hashed (w : Window) : List Bytes :=
  w.rootPreimage :: (w.owners.map WindowOwner.leafPreimage ++
    merklePreimages (w.owners.map WindowOwner.leaf))

theorem rootParts_short (w : Window) :
    ∀ x ∈ Bytes.ascii "midwimble.pool.window.v3" :: w.rootParts, x.length < 2 ^ 64 := by
  simp only [rootParts, List.mem_cons, List.not_mem_nil, or_false]
  rintro x (rfl | rfl | rfl | rfl | rfl | rfl | rfl)
  · decide
  all_goals simp

theorem root_inj {s : Set Bytes} (hinj : Set.InjOn blake3 s) {v w : Window} (hv : v.Fits)
    (hw : w.Fits) (hvs : ∀ x ∈ v.hashed, x ∈ s) (hws : ∀ x ∈ w.hashed, x ∈ s)
    (h : v.root = w.root) : v = w := by
  simp only [hashed, List.forall_mem_cons, List.forall_mem_append] at hvs hws
  obtain ⟨hvroot, hvleaves, hvtree⟩ := hvs
  obtain ⟨hwroot, hwleaves, hwtree⟩ := hws
  obtain ⟨-, hparts⟩ := domainPreimage_inj v.rootParts_short w.rootParts_short
    (hinj hvroot hwroot h)
  simp only [rootParts, List.cons.injEq, and_true] at hparts
  obtain ⟨hmerkle, hcount, -, hstart, hend, hbits⟩ := hparts
  have hlen : v.owners.length = w.owners.length := Bytes.le_inj hv.count hw.count hcount
  have hleaves := merkleRoot_inj hinj (by rw [List.length_map, List.length_map, hlen]) hvtree
    hwtree (toBytes_inj hmerkle)
  have hpre : v.owners.map WindowOwner.leafPreimage = w.owners.map WindowOwner.leafPreimage := by
    apply map_injOn hinj hvleaves hwleaves
    rw [List.map_map, List.map_map]
    exact hleaves
  have howners : v.owners = w.owners := by
    have hfits : Set.InjOn WindowOwner.leafPreimage {o | o.Fits} :=
      fun o ho p hp he => WindowOwner.leafPreimage_inj ho hp he
    exact map_injOn hfits hv.owners hw.owners hpre
  cases v
  cases w
  simp only [mk.injEq]
  exact ⟨Bytes.le_inj hv.startSeq hw.startSeq hstart, Bytes.le_inj hv.endSeq hw.endSeq hend,
    Bytes.le_inj hv.shareBits hw.shareBits hbits, howners⟩

end Window

/-- Window commitments bind and their paths are complete: without collisions among what they
hash, windows with one root are equal and share trees with one root and one count have the same
leaves; and every leaf's path, in a tree of ascending shares that weigh less than `2 ^ 64` in
all, folds to the root and to the weight before the leaf. -/
theorem window_commitments_bind :
    (∀ v w : Window, v.Fits → w.Fits → Set.InjOn blake3 {x | x ∈ v.hashed ∨ x ∈ w.hashed} →
      v.root = w.root → v = w) ∧
    (∀ xs ys : List TreeNode, xs.length = ys.length → (∀ a ∈ xs, a.weight < 2 ^ 64) →
      (∀ a ∈ ys, a.weight < 2 ^ 64) →
      Set.InjOn blake3 {x | x ∈ treePreimages xs ∨ x ∈ treePreimages ys} →
      (ShareTree.build xs).root = (ShareTree.build ys).root → xs = ys) ∧
    (∀ (leaves : List TreeNode) (index : Nat) (leaf : TreeNode), leaves[index]? = some leaf →
      AscendingRanges leaves → totalWeight leaves < 2 ^ 64 →
      ∃ root, (ShareTree.build leaves).root = some root ∧
        foldSharePath leaf index leaves.length ((ShareTree.build leaves).path index) =
          some (root, totalWeight (leaves.take index))) := by
  refine ⟨fun v w hv hw hinj h => ?_, fun xs ys hlen hx hy hinj h => ?_,
    fun leaves index leaf hi hr hw => ?_⟩
  · exact Window.root_inj hinj hv hw (fun _ => .inl) (fun _ => .inr) h
  · exact build_root_inj hinj hlen hx hy (fun _ => .inl) (fun _ => .inr) h
  · have hlt : ¬ index ≥ leaves.length := Nat.not_le.mpr (List.getElem?_eq_some_iff.mp hi).1
    have hbefore : totalWeight (leaves.take index) ≤ totalWeight leaves :=
      ((List.take_sublist index leaves).map TreeNode.weight).sum_le_sum fun _ _ => Nat.zero_le _
    have hfits : 0 + totalWeight (leaves.take index) < 2 ^ 64 := by omega
    obtain ⟨root, hroot, hfold⟩ := ShareTree.foldShareUp_siblings hi hr hw hfits
    rw [Nat.zero_add] at hfold
    exact ⟨root, hroot, by rw [foldSharePath, if_neg hlt]; exact hfold⟩

/-- Leaves over ranges of their own. -/
def threeLeaves : List TreeNode := [⟨1, 10, 1, 3⟩, ⟨2, 20, 4, 6⟩, ⟨3, 30, 8, 8⟩]

omit [Primitives] in
theorem window_commitments_bind_three :
    letI := Primitives.mixing
    ∃ root, (ShareTree.build threeLeaves).root = some root ∧
      foldSharePath ⟨3, 30, 8, 8⟩ 2 3 ((ShareTree.build threeLeaves).path 2) = some (root, 30) := by
  let := Primitives.mixing
  have hpath := window_commitments_bind.2.2 threeLeaves 2 ⟨3, 30, 8, 8⟩ rfl
    ⟨by decide, by decide⟩ (by decide)
  exact hpath

end Midwimble
