import Mathlib.Data.Nat.Bitwise
import Midwimble.Core.Pool
import Midwimble.Identity.Preimages

namespace Midwimble
set_option autoImplicit true

/-- A share whose integers fit their types. -/
structure ShareRecord.Fits (s : ShareRecord) : Prop where
  seq : s.seq < 2 ^ 64
  weight : s.weight < 2 ^ 64
  jobId : s.jobId < 2 ^ 64
  nonce : s.nonce < 2 ^ 64

def ShareRecord.leafParts (s : ShareRecord) : List Bytes :=
  [Bytes.le 8 s.seq, s.owner.toBytes, Bytes.le 8 s.weight, Bytes.le 8 s.jobId,
    Bytes.le 8 s.nonce, s.finalHash.toBytes, [if s.auth.isSome then 1 else 0],
    (s.auth.getD 0).toBytes]

def ShareRecord.leafPreimage (s : ShareRecord) : Bytes :=
  domainPreimage (Bytes.ascii "midwimble.pool.share.v1") s.leafParts

def TreeNode.joinParts (left right : TreeNode) : List Bytes :=
  [left.hash.toBytes, Bytes.le 8 left.weight, left.low.toBytes, left.high.toBytes,
    right.hash.toBytes, Bytes.le 8 right.weight, right.low.toBytes, right.high.toBytes]

def TreeNode.joinPreimage (left right : TreeNode) : Bytes :=
  domainPreimage (Bytes.ascii "midwimble.pool.share-node.v1") (joinParts left right)

theorem ShareRecord.leafPreimage_inj {s t : ShareRecord} (hs : s.Fits) (ht : t.Fits)
    (h : s.leafPreimage = t.leafPreimage) : s = t := by
  have hshort : ∀ s : ShareRecord, ∀ p ∈ Bytes.ascii "midwimble.pool.share.v1" :: s.leafParts,
      p.length < 2 ^ 64 := by
    intro s
    simp only [leafParts, List.mem_cons, List.not_mem_nil, or_false]
    rintro p (rfl | rfl | rfl | rfl | rfl | rfl | rfl | rfl | rfl)
    · decide
    all_goals simp
  obtain ⟨-, hparts⟩ := domainPreimage_inj (hshort s) (hshort t) h
  simp only [leafParts, List.cons.injEq, and_true] at hparts
  obtain ⟨h1, h2, h3, h4, h5, h6, h7, h8⟩ := hparts
  have hauth : s.auth = t.auth := by
    have hsome := toBytes_inj h8
    cases hsa : s.auth <;> cases hta : t.auth <;> simp [hsa, hta] at h7 hsome ⊢
    exact hsome
  cases s
  cases t
  simp only [ShareRecord.mk.injEq]
  exact ⟨Bytes.le_inj hs.seq ht.seq h1, toBytes_inj h2, Bytes.le_inj hs.weight ht.weight h3,
    Bytes.le_inj hs.jobId ht.jobId h4, Bytes.le_inj hs.nonce ht.nonce h5, toBytes_inj h6, hauth⟩

theorem TreeNode.joinPreimage_inj {l r l' r' : TreeNode} (h : l.weight + r.weight < 2 ^ 64)
    (h' : l'.weight + r'.weight < 2 ^ 64) (he : joinPreimage l r = joinPreimage l' r') :
    l = l' ∧ r = r' := by
  have hshort : ∀ l r : TreeNode,
      ∀ p ∈ Bytes.ascii "midwimble.pool.share-node.v1" :: joinParts l r, p.length < 2 ^ 64 := by
    intro l r
    simp only [joinParts, List.mem_cons, List.not_mem_nil, or_false]
    rintro p (rfl | rfl | rfl | rfl | rfl | rfl | rfl | rfl | rfl)
    · decide
    all_goals simp
  obtain ⟨-, hparts⟩ := domainPreimage_inj (hshort l r) (hshort l' r') he
  simp only [joinParts, List.cons.injEq, and_true] at hparts
  obtain ⟨h1, h2, h3, h4, h5, h6, h7, h8⟩ := hparts
  have hw : l.weight = l'.weight := Bytes.le_inj (by omega) (by omega) h2
  have hw' : r.weight = r'.weight := Bytes.le_inj (by omega) (by omega) h6
  cases l
  cases r
  cases l'
  cases r'
  simp only [TreeNode.mk.injEq]
  exact ⟨⟨toBytes_inj h1, hw, toBytes_inj h3, toBytes_inj h4⟩,
    toBytes_inj h5, hw', toBytes_inj h7, toBytes_inj h8⟩

theorem checkedAdd_eq_some (h : checkedAdd a b = some c) : a + b < 2 ^ 64 ∧ c = a + b := by
  unfold checkedAdd at h
  split at h
  · rename_i hab
    exact ⟨hab, (Option.some.inj h).symm⟩
  · cases h

variable [Primitives]

/-- The pairs joined on the way up from a node, whatever their order and weights. -/
def joinedPairs (node : TreeNode) (i n : Nat) (siblings : List TreeNode) :
    List (TreeNode × TreeNode) :=
  if n > 1 then
    if i ^^^ 1 < n then
      match siblings with
      | [] => []
      | sibling :: rest =>
        if i % 2 = 1 then
          (sibling, node) :: joinedPairs (.join sibling node) (i / 2) ((n + 1) / 2) rest
        else (node, sibling) :: joinedPairs (.join node sibling) (i / 2) ((n + 1) / 2) rest
    else joinedPairs node (i / 2) ((n + 1) / 2) siblings
  else []
termination_by n

/-- A fold that reaches the root, with the pairs it joins. -/
inductive Climb : TreeNode → Nat → Nat → Nat → List (TreeNode × TreeNode) → TreeNode → Nat → Prop
  | root (h : n ≤ 1) : Climb node i n start [] node start
  | left (h : n > 1) (he : i % 2 = 0) (hi : i + 1 < n) (ho : node.high < sibling.low)
      (hw : node.weight + sibling.weight < 2 ^ 64)
      (up : Climb (.join node sibling) (i / 2) ((n + 1) / 2) start pairs root stop) :
      Climb node i n start ((node, sibling) :: pairs) root stop
  | right (h : n > 1) (he : i % 2 = 1) (ho : sibling.high < node.low)
      (hw : sibling.weight + node.weight < 2 ^ 64)
      (up : Climb (.join sibling node) (i / 2) ((n + 1) / 2) (start + sibling.weight) pairs root
        stop) :
      Climb node i n start ((sibling, node) :: pairs) root stop
  | alone (h : n > 1) (he : i % 2 = 0) (hi : n ≤ i + 1)
      (up : Climb node (i / 2) ((n + 1) / 2) start pairs root stop) :
      Climb node i n start pairs root stop

theorem TreeNode.joinChecked_eq_some {l r node : TreeNode} (h : joinChecked l r = some node) :
    l.weight + r.weight < 2 ^ 64 ∧ l.high < r.low ∧ node = join l r := by
  unfold joinChecked checkedAdd at h
  split at h
  · rename_i hw
    simp only [Option.bind_eq_bind, Option.bind_some] at h
    split at h
    · rename_i ho
      exact ⟨hw, ho, (Option.some.inj h).symm⟩
    · cases h
  · cases h

theorem climb_of_fold (hi : i < n)
    (h : foldShareUp node i n start siblings = some (root, stop)) :
    Climb node i n start (joinedPairs node i n siblings) root stop := by
  induction node, i, n, start, siblings using foldShareUp.induct with
  | case1 node i n start hn hx =>
    rw [foldShareUp.eq_def, if_pos hn, if_pos hx] at h
    cases h
  | case2 node i n start hn hx sibling rest hodd ih =>
    rw [foldShareUp.eq_def, if_pos hn, if_pos hx] at h
    simp only [if_pos hodd, Option.bind_eq_bind, Option.bind_eq_some_iff] at h
    obtain ⟨next, hadd, parent, hjoin, h⟩ := h
    obtain ⟨hw, ho, rfl⟩ := TreeNode.joinChecked_eq_some hjoin
    obtain ⟨-, rfl⟩ := checkedAdd_eq_some hadd
    rw [joinedPairs.eq_def, if_pos hn, if_pos hx]
    simp only [if_pos hodd]
    exact .right hn hodd ho hw (ih _ _ (by omega) h)
  | case3 node i n start hn hx sibling rest heven ih =>
    rw [foldShareUp.eq_def, if_pos hn, if_pos hx] at h
    simp only [if_neg heven, Option.bind_eq_bind, Option.bind_eq_some_iff] at h
    obtain ⟨parent, hjoin, h⟩ := h
    obtain ⟨hw, ho, rfl⟩ := TreeNode.joinChecked_eq_some hjoin
    have hmod : i % 2 = 0 := Nat.mod_two_ne_one.mp heven
    rw [joinedPairs.eq_def, if_pos hn, if_pos hx]
    simp only [if_neg heven]
    rw [Nat.xor_one_of_even (Nat.even_iff.mpr hmod)] at hx
    exact .left hn hmod hx ho hw (ih _ (by omega) h)
  | case4 node i n start siblings hn hx ih =>
    rw [foldShareUp.eq_def, if_pos hn, if_neg hx] at h
    rw [joinedPairs.eq_def, if_pos hn, if_neg hx]
    rcases Nat.mod_two_eq_zero_or_one i with hmod | hmod
    · rw [Nat.xor_one_of_even (Nat.even_iff.mpr hmod)] at hx
      exact .alone hn hmod (by omega) (ih (by omega) h)
    · rw [Nat.xor_one_of_odd (Nat.odd_iff.mpr hmod)] at hx
      omega
  | case5 node i n start siblings hn hs =>
    rw [foldShareUp.eq_def, if_neg hn, if_pos hs] at h
    obtain ⟨rfl, rfl⟩ := Prod.mk.inj (Option.some.inj h)
    rw [joinedPairs.eq_def, if_neg hn]
    exact .root (by omega)
  | case6 node i n start siblings hn hs =>
    rw [foldShareUp.eq_def, if_neg hn, if_neg hs] at h
    cases h

theorem TreeNode.join_inj {s : Set Bytes} {l r l' r' : TreeNode} (hinj : Set.InjOn blake3 s)
    (hm : joinPreimage l r ∈ s) (hm' : joinPreimage l' r' ∈ s)
    (hw : l.weight + r.weight < 2 ^ 64) (hw' : l'.weight + r'.weight < 2 ^ 64)
    (h : (join l r).hash = (join l' r').hash) : l = l' ∧ r = r' :=
  joinPreimage_inj hw hw' (hinj hm hm' h)

/-- Everything hashed to join some pairs lies in a set. -/
def PairsIn (s : Set Bytes) (pairs : List (TreeNode × TreeNode)) : Prop :=
  ∀ p ∈ pairs, TreeNode.joinPreimage p.1 p.2 ∈ s

omit [Primitives] in
theorem pairsIn_cons {s : Set Bytes} :
    PairsIn s ((l, r) :: pairs) ↔ TreeNode.joinPreimage l r ∈ s ∧ PairsIn s pairs :=
  List.forall_mem_cons

/-- Climbs from one place to one root start from one node, and add the same to their starts. -/
theorem Climb.same_node {s : Set Bytes} (hinj : Set.InjOn blake3 s)
    (hx : Climb x i n sx ps rx tx) (hy : Climb y i n sy qs ry ty) (hp : PairsIn s ps)
    (hq : PairsIn s qs) (hroot : rx.hash = ry.hash) (hweight : rx.weight = ry.weight) :
    x.hash = y.hash ∧ x.weight = y.weight ∧ tx + sy = ty + sx := by
  induction hx generalizing y sy qs with
  | root h =>
    cases hy with
    | root _ => exact ⟨hroot, hweight, Nat.add_comm _ _⟩
    | left h' => omega
    | right h' => omega
    | alone h' => omega
  | left h he hi ho hw up ih =>
    obtain ⟨hl, hp⟩ := pairsIn_cons.mp hp
    cases hy with
    | root h' => omega
    | left _ _ _ _ hw' up' =>
      obtain ⟨hl', hq⟩ := pairsIn_cons.mp hq
      obtain ⟨hhash, -, ht⟩ := ih up' hp hq hroot hweight
      obtain ⟨rfl, -⟩ := TreeNode.join_inj hinj hl hl' hw hw' hhash
      exact ⟨rfl, rfl, ht⟩
    | right _ he' => omega
    | alone _ _ hi' => omega
  | right h he ho hw up ih =>
    obtain ⟨hl, hp⟩ := pairsIn_cons.mp hp
    cases hy with
    | root h' => omega
    | left _ he' => omega
    | right _ _ _ hw' up' =>
      obtain ⟨hl', hq⟩ := pairsIn_cons.mp hq
      obtain ⟨hhash, -, ht⟩ := ih up' hp hq hroot hweight
      obtain ⟨rfl, rfl⟩ := TreeNode.join_inj hinj hl hl' hw hw' hhash
      exact ⟨rfl, rfl, by omega⟩
    | alone _ he' => omega
  | alone h he hi up ih =>
    cases hy with
    | root h' => omega
    | left _ _ hi' => omega
    | right _ he' => omega
    | alone _ _ _ up' => exact ih up' hp hq hroot hweight

/-- A final hash lies in a node's range. -/
def TreeNode.Covers (node : TreeNode) (final : Bytes32) : Prop :=
  node.low ≤ final ∧ final ≤ node.high

/-- A final hash lies in the range of every node joined from some pairs. -/
def Covered (final : Bytes32) (pairs : List (TreeNode × TreeNode)) : Prop :=
  ∀ p ∈ pairs, (TreeNode.join p.1 p.2).Covers final

theorem covered_cons :
    Covered final ((l, r) :: pairs) ↔ (TreeNode.join l r).Covers final ∧ Covered final pairs :=
  List.forall_mem_cons

/-- A final hash in the range of every node on two ways up stands at one place. -/
theorem Climb.same_place {s : Set Bytes} (hinj : Set.InjOn blake3 s) (hx : Climb x i n sx ps rx tx)
    (hy : Climb y j n sy qs ry ty) (hij : i < j) (hj : j < n) (hp : PairsIn s ps)
    (hq : PairsIn s qs) (hroot : rx.hash = ry.hash) (hweight : rx.weight = ry.weight)
    (hcx : x.Covers final) (hcy : y.Covers final) (hcp : Covered final ps)
    (hcq : Covered final qs) : False := by
  induction hx generalizing y j sy qs with
  | root h => omega
  | left h he hi ho hw up ih =>
    obtain ⟨hl, hps⟩ := pairsIn_cons.mp hp
    obtain ⟨hcl, hcps⟩ := covered_cons.mp hcp
    cases hy with
    | root h' => omega
    | left _ he' hi' _ _ up' =>
      obtain ⟨-, hqs⟩ := pairsIn_cons.mp hq
      obtain ⟨hcl', hcqs⟩ := covered_cons.mp hcq
      exact ih up' (by omega) (by omega) hps hqs hroot hweight hcl hcl' hcps hcqs
    | right _ he' ho' hw' up' =>
      obtain ⟨hl', hqs⟩ := pairsIn_cons.mp hq
      obtain ⟨hcl', hcqs⟩ := covered_cons.mp hcq
      rcases (Nat.div_le_div_right hij.le : _ / 2 ≤ j / 2).eq_or_lt with hpart | hpart
      · rw [← hpart] at up'
        obtain ⟨hhash, -⟩ := up.same_node hinj up' hps hqs hroot hweight
        obtain ⟨rfl, rfl⟩ := TreeNode.join_inj hinj hl hl' hw hw' hhash
        have hhigh := BitVec.le_def.mp hcx.2
        have hlow := BitVec.le_def.mp hcy.1
        have hlt := BitVec.lt_def.mp ho
        omega
      · exact ih up' hpart (by omega) hps hqs hroot hweight hcl hcl' hcps hcqs
    | alone _ he' hi' up' =>
      exact ih up' (by omega) (by omega) hps hq hroot hweight hcl hcy hcps hcq
  | right h he ho hw up ih =>
    obtain ⟨-, hps⟩ := pairsIn_cons.mp hp
    obtain ⟨hcl, hcps⟩ := covered_cons.mp hcp
    cases hy with
    | root h' => omega
    | left _ he' hi' _ _ up' =>
      obtain ⟨-, hqs⟩ := pairsIn_cons.mp hq
      obtain ⟨hcl', hcqs⟩ := covered_cons.mp hcq
      exact ih up' (by omega) (by omega) hps hqs hroot hweight hcl hcl' hcps hcqs
    | right _ he' ho' hw' up' =>
      obtain ⟨-, hqs⟩ := pairsIn_cons.mp hq
      obtain ⟨hcl', hcqs⟩ := covered_cons.mp hcq
      exact ih up' (by omega) (by omega) hps hqs hroot hweight hcl hcl' hcps hcqs
    | alone _ he' hi' up' =>
      exact ih up' (by omega) (by omega) hps hq hroot hweight hcl hcy hcps hcq
  | alone h he hi up ih => omega

/-- A share with its place and path. -/
structure ShareAnswer where
  share : ShareRecord
  index : Nat
  path : List TreeNode

namespace ShareAnswer

/-- An answer that folds to an owner's entry, its weight starting at `start`. -/
def Proves (a : ShareAnswer) (entry : WindowOwner) (start : Nat) : Prop :=
  ∃ root, foldSharePath a.share.node a.index entry.shares a.path = some (root, start) ∧
    root.hash = entry.sharesRoot ∧ root.weight = entry.weight

def pairs (a : ShareAnswer) (entry : WindowOwner) : List (TreeNode × TreeNode) :=
  joinedPairs a.share.node a.index entry.shares a.path

/-- Everything hashed to check an answer. -/
def hashed (a : ShareAnswer) (entry : WindowOwner) : List Bytes :=
  a.share.leafPreimage :: (a.pairs entry).map fun p => TreeNode.joinPreimage p.1 p.2

/-- No sibling on the path has the share's final hash outside its side: a left one's range does
not start above it, nor does a right one's end below it. -/
def InRange (a : ShareAnswer) (entry : WindowOwner) : Prop :=
  Covered a.share.finalHash (a.pairs entry)

theorem Proves.climb {a : ShareAnswer} {entry : WindowOwner} (h : a.Proves entry start) :
    a.index < entry.shares ∧ ∃ root,
      Climb a.share.node a.index entry.shares 0 (a.pairs entry) root start ∧
        root.hash = entry.sharesRoot ∧ root.weight = entry.weight := by
  obtain ⟨root, hfold, hroot, hweight⟩ := h
  unfold foldSharePath at hfold
  split at hfold
  · cases hfold
  · rename_i hi
    have hlt : a.index < entry.shares := Nat.lt_of_not_le hi
    exact ⟨hlt, root, climb_of_fold hlt hfold, hroot, hweight⟩

theorem pairsIn {a : ShareAnswer} {s : Set Bytes} (h : ∀ x ∈ a.hashed entry, x ∈ s) :
    PairsIn s (a.pairs entry) :=
  fun _ hp => h _ (List.mem_cons_of_mem _ (List.mem_map_of_mem hp))

end ShareAnswer

/-- Two answers with one final hash are one answer unless, at different places, some sibling's
range leaves that hash out. -/
theorem counted_once {entry : WindowOwner} {a b : ShareAnswer} (ha : a.Proves entry start)
    (hb : b.Proves entry start') (hfa : a.share.Fits) (hfb : b.share.Fits)
    (hinj : Set.InjOn blake3 {x | x ∈ a.hashed entry ∨ x ∈ b.hashed entry})
    (hfinal : a.share.finalHash = b.share.finalHash) :
    (a.share = b.share ∧ a.index = b.index ∧ start = start') ↔
      (a.index ≠ b.index → a.InRange entry ∧ b.InRange entry) := by
  obtain ⟨hia, ra, hca, hra, hwa⟩ := ha.climb
  obtain ⟨hib, rb, hcb, hrb, hwb⟩ := hb.climb
  have hpa : PairsIn {x | x ∈ a.hashed entry ∨ x ∈ b.hashed entry} (a.pairs entry) :=
    ShareAnswer.pairsIn fun _ => .inl
  have hpb : PairsIn {x | x ∈ a.hashed entry ∨ x ∈ b.hashed entry} (b.pairs entry) :=
    ShareAnswer.pairsIn fun _ => .inr
  have hroot : ra.hash = rb.hash := hra.trans hrb.symm
  have hweight : ra.weight = rb.weight := hwa.trans hwb.symm
  have hleaf : ∀ s : ShareRecord, s.node.Covers s.finalHash :=
    fun s => ⟨BitVec.le_refl _, BitVec.le_refl _⟩
  constructor
  · rintro ⟨-, hindex, -⟩ hne
    exact absurd hindex hne
  · intro hrange
    rcases Nat.lt_trichotomy a.index b.index with hlt | heq | hgt
    · obtain ⟨hra', hrb'⟩ := hrange hlt.ne
      unfold ShareAnswer.InRange at hra'
      rw [hfinal] at hra'
      exact (hca.same_place hinj hcb hlt hib hpa hpb hroot hweight (hfinal ▸ hleaf a.share)
        (hleaf b.share) hra' hrb').elim
    · rw [heq] at hca
      obtain ⟨hhash, -, hstart⟩ := hca.same_node hinj hcb hpa hpb hroot hweight
      have hpre : a.share.leafPreimage = b.share.leafPreimage :=
        hinj (.inl (.head _)) (.inr (.head _)) hhash
      exact ⟨ShareRecord.leafPreimage_inj hfa hfb hpre, heq, by omega⟩
    · obtain ⟨hra', hrb'⟩ := hrange hgt.ne'
      unfold ShareAnswer.InRange at hra'
      rw [hfinal] at hra'
      exact (hcb.same_place hinj hca hgt hia hpb hpa hroot.symm hweight.symm (hleaf b.share)
        (hfinal ▸ hleaf a.share) hrb' hra').elim

omit [Primitives] in
def twiceShare : ShareRecord := ⟨0, 1, 1, 0, 0, 5, none⟩

omit [Primitives] in
/-- A sibling without weight, its range inverted around the share's final hash. -/
def invertedNode : TreeNode := ⟨0, 0, 6, 4⟩

def twiceEntry : WindowOwner where
  id := 1
  weight := 2
  sharesRoot := (TreeNode.join (.join twiceShare.node invertedNode) twiceShare.node).hash
  shares := 3

def twiceFirst : ShareAnswer := ⟨twiceShare, 0, [invertedNode, twiceShare.node]⟩

def twiceLast : ShareAnswer := ⟨twiceShare, 2, [.join twiceShare.node invertedNode]⟩

theorem twiceFirst_pairs : twiceFirst.pairs twiceEntry =
    [(twiceShare.node, invertedNode), (.join twiceShare.node invertedNode, twiceShare.node)] := by
  simp [ShareAnswer.pairs, twiceFirst, twiceEntry, joinedPairs]

theorem twiceLast_pairs : twiceLast.pairs twiceEntry =
    [(.join twiceShare.node invertedNode, twiceShare.node)] := by
  simp [ShareAnswer.pairs, twiceLast, twiceEntry, joinedPairs]

theorem twice_joined : TreeNode.joinChecked twiceShare.node invertedNode =
      some (.join twiceShare.node invertedNode) ∧
    TreeNode.joinChecked (.join twiceShare.node invertedNode) twiceShare.node =
      some (.join (.join twiceShare.node invertedNode) twiceShare.node) :=
  ⟨rfl, rfl⟩

theorem twiceFirst_proves : twiceFirst.Proves twiceEntry 0 := by
  refine ⟨.join (.join twiceShare.node invertedNode) twiceShare.node, ?_, rfl, rfl⟩
  obtain ⟨hlow, htop⟩ := twice_joined
  simp [foldSharePath, foldShareUp, twiceFirst, twiceEntry, hlow, htop]

theorem twiceLast_proves : twiceLast.Proves twiceEntry 1 := by
  refine ⟨.join (.join twiceShare.node invertedNode) twiceShare.node, ?_, rfl, rfl⟩
  obtain ⟨-, htop⟩ := twice_joined
  have hstart : checkedAdd 0 (TreeNode.join twiceShare.node invertedNode).weight = some 1 := rfl
  simp [foldSharePath, foldShareUp, twiceLast, twiceEntry, htop, hstart]

omit [Primitives] in
theorem twiceShare_fits : twiceShare.Fits := by
  constructor <;> decide

omit [Primitives] in
theorem twice_injOn :
    letI := Primitives.mixing
    Set.InjOn blake3 {x | x ∈ twiceFirst.hashed twiceEntry ∨ x ∈ twiceLast.hashed twiceEntry} := by
  let := Primitives.mixing
  rw [ShareAnswer.hashed, ShareAnswer.hashed, twiceFirst_pairs, twiceLast_pairs]
  exact injOn_of_lists (by decide +kernel)

omit [Primitives] in
theorem counted_once_apart :
    letI := Primitives.mixing
    twiceFirst.index < twiceEntry.shares ∧
      ¬ (twiceFirst.InRange twiceEntry ∧ twiceLast.InRange twiceEntry) := by
  let := Primitives.mixing
  refine ⟨by decide, fun h => ?_⟩
  obtain ⟨-, hindex, -⟩ := (counted_once twiceFirst_proves twiceLast_proves twiceShare_fits
    twiceShare_fits twice_injOn rfl).mpr fun _ => h
  exact absurd hindex (by decide)

omit [Primitives] in
/-- One share at two places of one entry, under a hash that does not collide on anything hashed
to check it. -/
theorem counted_twice :
    letI := Primitives.mixing
    twiceFirst.Proves twiceEntry 0 ∧ twiceLast.Proves twiceEntry 1 ∧
      twiceFirst.share.Fits ∧ twiceLast.share.Fits ∧
      Set.InjOn blake3
        {x | x ∈ twiceFirst.hashed twiceEntry ∨ x ∈ twiceLast.hashed twiceEntry} ∧
      twiceFirst.share.finalHash = twiceLast.share.finalHash ∧
      twiceFirst.index ≠ twiceLast.index := by
  let := Primitives.mixing
  exact ⟨twiceFirst_proves, twiceLast_proves, twiceShare_fits, twiceShare_fits, twice_injOn, rfl,
    by decide⟩

end Midwimble
