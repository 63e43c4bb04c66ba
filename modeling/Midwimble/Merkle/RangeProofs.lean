import Midwimble.Merkle.Range

namespace Midwimble
open Mountain
set_option autoImplicit true

theorem posHeight_edge (hd : d ≤ k) (hk : k < 63) : posHeight (width k - 1 - d) = k - d := by
  induction d generalizing k with
  | zero => exact posHeight_top hk
  | succ d ih =>
    obtain ⟨k, rfl⟩ : ∃ j, k = j + 1 := ⟨k - 1, by omega⟩
    have hs := width_succ k
    have hwk := lt_width k
    have hbound : width k < 2 ^ 62 := width_lt (by omega)
    have hpos : width (k + 1) - 1 - (d + 1) = width k + (width k - 1 - d) := by omega
    rw [hpos, posHeight_right (by omega) (by omega), ih (by omega) (by omega)]
    omega

/-- Heights inside a tree that stands at `offset` are those of a tree at the left end. -/
def Aligned (offset h : Nat) : Prop := ∀ q < width h, posHeight (offset + q) = posHeight q

theorem Aligned.left (a : Aligned offset (h + 1)) : Aligned offset h := fun q hq =>
  a q (hq.trans_le (width_le (Nat.le_succ h)))

theorem Aligned.right (a : Aligned offset (h + 1)) (hh : h < 62) :
    Aligned (offset + width h) h := fun q hq => by
  have hs := width_succ h
  have hbound := width_lt hh
  rw [Nat.add_assoc, a _ (by omega), posHeight_right hq (by omega)]

theorem climbToPeak_succ {m : MerkleMountainRange} (hp : pos ∉ positions) :
    m.climbToPeak positions (fuel + 1) siblings pos h =
      if pos + width h < m.nodes.length ∧ posHeight (pos + width h) = h then
        m.climbToPeak positions fuel (siblings ++ [⟨m.nodes.getD (pos + width h) 0, true⟩])
          (pos + width h + 1) (h + 1)
      else if pos < width h ∨ m.nodes.length ≤ pos - width h then none
      else m.climbToPeak positions fuel (siblings ++ [⟨m.nodes.getD (pos - width h) 0, false⟩])
        (pos + 1) (h + 1) := by
  have hdist : pos + 2 ^ (h + 1) - 1 = pos + width h := by
    have := Nat.two_pow_pos (h + 1)
    rw [width]
    omega
  rw [MerkleMountainRange.climbToPeak, if_neg hp]
  rfl

variable [Primitives]

/-- The trees over a run of leaves, the last one first. -/
def treesOf (leaves : List Bytes32) : List (HashTree Bytes32) :=
  leaves.foldl (fun row leaf => graft (.leaf leaf) row) []

/-- A range that holds the trees over these leaves, with each leaf at the size it was
appended at. -/
structure Grown (isV2 : Bool) (leaves : List Bytes32) (row : List (HashTree Bytes32))
    (m : MerkleMountainRange) : Prop where
  perfect : Row row
  nodes : m.nodes = rowNodes (joinNodes isV2) row
  crested : Crested (row.map (HashTree.top (joinNodes isV2))) m
  overLeaves : rowLeaves row = leaves
  leafCount : m.leafCount = leaves.length
  placed : leaves[i]? = some l → posHeight (mmrSize i) = 0 ∧ m.nodes[mmrSize i]? = some l
  onlyLeaves : pos < m.nodes.length → posHeight pos = 0 → ∃ i < leaves.length, pos = mmrSize i

theorem grown_new (isV2 : Bool) : Grown isV2 [] [] .new where
  perfect := by simp [Row]
  nodes := rfl
  crested := crested_new
  overLeaves := rfl
  leafCount := rfl
  placed h := by simp at h
  onlyLeaves h := absurd h (Nat.not_lt_zero _)

theorem posHeight_added (c : Crested f m) (hn : m.leafCount + 1 < 2 ^ 63)
    (hj : m.nodes.length + j < (m.append leaf isV2).nodes.length) :
    posHeight (m.nodes.length + j) = j := by
  have hc : Crested (carry (joinNodes isV2) (0, leaf) f) (m.append leaf isV2) :=
    c.append hn
  have hlen := hc.crowned.length
  have hspan := span_le_count ((carry (joinNodes isV2) (0, leaf) f).map Prod.fst)
  have hcount := hc.leaves
  have hrise := hc.rising
  have hedge := c.crowned.carry (h := 0) (joinNodes isV2) [] rfl leaf
  have hlen' := hedge.length
  rw [List.length_append, List.length_append, List.nil_append, List.length_singleton] at hlen'
  obtain ⟨w, rest, he⟩ := carry_head (joinNodes isV2) 0 leaf f
  rw [Nat.zero_add] at he
  generalize (parents (joinNodes isV2) (0, leaf) f).length = k at he hlen'
  rw [show (m.append leaf isV2).leafCount = m.leafCount + 1 from rfl] at hcount
  rw [he] at hlen hspan hcount hrise hlen'
  simp only [List.map_cons, span_cons] at hlen hspan hcount hrise hlen'
  rw [hlen] at hj
  have hk : k < 63 := height_lt List.mem_cons_self (hcount ▸ hn)
  have hwp := width_pos k
  rw [hcount] at hspan
  have hpos : m.nodes.length + j = span (rest.map Prod.fst) + (width k - 1 - (k - j)) := by
    have hkw := lt_width k
    omega
  rw [hpos, posHeight_span (h := k) hrise (by omega) (by rw [span_cons]; omega),
    posHeight_edge (Nat.sub_le k j) hk]
  omega

theorem Grown.append (g : Grown isV2 leaves row m) (hn : leaves.length + 1 < 2 ^ 63) :
    Grown isV2 (leaves ++ [leaf]) (graft (.leaf leaf) row) (m.append leaf isV2) := by
  have hcount : m.leafCount + 1 < 2 ^ 63 := by
    rw [g.leafCount]
    exact hn
  have hsize : m.nodes.length = mmrSize leaves.length := by
    rw [g.crested.size (by omega), g.leafCount]
  obtain ⟨more, hmore⟩ := m.prefix_append leaf isV2
  have hleaf : (m.append leaf isV2).nodes[m.nodes.length]? = some leaf := by
    obtain ⟨added, hadd⟩ := prefix_mergeUp isV2 64 0 (m.nodes ++ [leaf])
    rw [MerkleMountainRange.append, ← hadd, List.append_assoc,
      List.getElem?_append_right (Nat.le_refl _), Nat.sub_self]
    rfl
  have hin : m.nodes.length < (m.append leaf isV2).nodes.length :=
    (List.getElem?_eq_some_iff.mp hleaf).1
  refine ⟨g.perfect.graft (.leaf leaf), ?_, ?_, ?_, ?_, ?_, ?_⟩
  · rw [rowNodes_graft, ← g.nodes]
    exact nodes_append g.crested hcount
  · rw [top_graft]
    exact g.crested.append hcount
  · rw [rowLeaves_graft, g.overLeaves, HashTree.leaves]
  · rw [List.length_append, ← g.leafCount]
    rfl
  · intro i l hl
    rcases Nat.lt_or_ge i leaves.length with hlt | hge
    · rw [List.getElem?_append_left hlt] at hl
      obtain ⟨h0, hget⟩ := g.placed hl
      refine ⟨h0, ?_⟩
      rw [← hmore, List.getElem?_append_left (List.getElem?_eq_some_iff.mp hget).1, hget]
    · have hi : i = leaves.length := by
        have := (List.getElem?_eq_some_iff.mp hl).1
        rw [List.length_append, List.length_singleton] at this
        omega
      subst hi
      rw [List.getElem?_append_right (Nat.le_refl _), Nat.sub_self] at hl
      rw [← hsize, hleaf]
      exact ⟨posHeight_added (j := 0) g.crested hcount hin, hl⟩
  · intro pos hpos h0
    rw [List.length_append, List.length_singleton]
    rcases Nat.lt_or_ge pos m.nodes.length with hlt | hge
    · obtain ⟨i, hi, he⟩ := g.onlyLeaves hlt h0
      exact ⟨i, Nat.lt_succ_of_lt hi, he⟩
    · obtain ⟨j, rfl⟩ := Nat.exists_eq_add_of_le hge
      rw [posHeight_added g.crested hcount hpos] at h0
      exact ⟨leaves.length, Nat.lt_succ_self _, by rw [h0, hsize, Nat.add_zero]⟩

theorem grown_appendAll (isV2 : Bool) (leaves : List Bytes32) (hn : leaves.length < 2 ^ 63) :
    Grown isV2 leaves (treesOf leaves) (MerkleMountainRange.new.appendAll isV2 leaves) := by
  induction leaves using List.reverseRecOn with
  | nil => exact grown_new isV2
  | append_singleton leaves leaf ih =>
    rw [List.length_append, List.length_singleton] at hn
    rw [treesOf, List.foldl_append, appendAll_append]
    exact (ih (by omega)).append hn

section Climb

/-- Where a tree stands among the nodes. -/
structure Stands (isV2 : Bool) (t : HashTree Bytes32) (h offset : Nat) (nodes : List Bytes32) :
    Prop where
  perfect : t.Perfect h
  high : h < 63
  among : ∃ before after, nodes = before ++ (t.postorder (joinNodes isV2) ++ after) ∧
    before.length = offset
  aligned : Aligned offset h

theorem Stands.root_get (s : Stands isV2 t h offset nodes) :
    nodes.getD (offset + width h - 1) 0 = t.root (joinNodes isV2) ∧
      offset + width h ≤ nodes.length := by
  obtain ⟨before, after, rfl, rfl⟩ := s.among
  have hlen := HashTree.length_postorder (joinNodes isV2) s.perfect
  obtain ⟨inner, hi⟩ := t.postorder_last (joinNodes isV2)
  rw [hi, List.length_append, List.length_singleton] at hlen
  refine ⟨?_, ?_⟩
  · have hpos : before.length + width h - 1 = before.length + inner.length := by omega
    rw [hpos, List.getD_append_right _ _ _ _ (Nat.le_add_right _ _), Nat.add_sub_cancel_left, hi,
      List.append_assoc, List.getD_append_right _ _ _ _ (Nat.le_refl _), Nat.sub_self]
    rfl
  · rw [hi]
    simp only [List.length_append, List.length_singleton]
    omega

theorem Stands.left (s : Stands isV2 (.node l r) (h + 1) offset nodes) :
    Stands isV2 l h offset nodes := by
  obtain ⟨before, after, rfl, hb⟩ := s.among
  cases s.perfect with
  | node hl hr =>
    exact ⟨hl, Nat.lt_of_succ_lt s.high,
      ⟨before, _, by rw [HashTree.postorder, List.append_assoc], hb⟩, s.aligned.left⟩

theorem Stands.right (s : Stands isV2 (.node l r) (h + 1) offset nodes) :
    Stands isV2 r h (offset + width h) nodes := by
  obtain ⟨before, after, rfl, rfl⟩ := s.among
  have hh := s.high
  cases s.perfect with
  | node hl hr =>
    refine ⟨hr, by omega, ⟨before ++ l.postorder (joinNodes isV2),
      [hashNode (l.root (joinNodes isV2)) (r.root (joinNodes isV2)) isV2]
        ++ after, ?_, ?_⟩, s.aligned.right (by omega)⟩
    · simp only [HashTree.postorder, List.append_assoc]
    · rw [List.length_append, HashTree.length_postorder _ hl]

theorem Stands.turn_left {m : MerkleMountainRange}
    (s : Stands isV2 (.node l r) (h + 1) offset m.nodes)
    (hnot : offset + width h - 1 ∉ positions) :
    m.climbToPeak positions (fuel + 1) siblings (offset + width h - 1) h =
      m.climbToPeak positions fuel (siblings ++ [⟨r.root (joinNodes isV2), true⟩])
        (offset + width (h + 1) - 1) (h + 1) := by
  have hs := width_succ h
  have hw := width_pos h
  have hh := s.high
  obtain ⟨hroot, hin⟩ := s.right.root_get
  have hheight : posHeight (offset + width h - 1 + width h) = h := by
    have hpos : offset + width h - 1 + width h = offset + width h + (width h - 1) := by omega
    rw [hpos, s.right.aligned _ (by omega), posHeight_top (by omega)]
  have hpos : offset + width h - 1 + width h = offset + width h + width h - 1 := by omega
  have hnext : offset + width (h + 1) - 1 = offset + width h + width h - 1 + 1 := by omega
  rw [climbToPeak_succ hnot, if_pos ⟨by omega, hheight⟩, hpos, hroot, hnext]

theorem Stands.turn_right {m : MerkleMountainRange}
    (s : Stands isV2 (.node l r) (h + 1) offset m.nodes) (hword : m.nodes.length < 2 ^ 63)
    (hnot : offset + width h + width h - 1 ∉ positions) :
    m.climbToPeak positions (fuel + 1) siblings (offset + width h + width h - 1) h =
      m.climbToPeak positions fuel (siblings ++ [⟨l.root (joinNodes isV2), false⟩])
        (offset + width (h + 1) - 1) (h + 1) := by
  have hs := width_succ h
  have hw := width_pos h
  obtain ⟨hroot, hin⟩ := s.left.root_get
  have hlen := s.root_get.2
  have hparent : posHeight (offset + 2 * width h) = h + 1 := by
    have htop := posHeight_top s.high
    rw [hs, Nat.add_sub_cancel] at htop
    rw [s.aligned _ (by omega), htop]
  have hP : offset + 2 * width h < width 62 := by
    rw [show width 62 = 2 ^ 63 - 1 from rfl]
    omega
  have hfresh : posHeight (offset + 2 * width h + (width h - 1)) ≠ h :=
    posHeight_fresh hP (by decide) (by omega) (by omega)
  have hpos : offset + width h + width h - 1 + width h =
      offset + 2 * width h + (width h - 1) := by omega
  have hback : offset + width h + width h - 1 - width h = offset + width h - 1 := by omega
  have hnext : offset + width (h + 1) - 1 = offset + width h + width h - 1 + 1 := by omega
  rw [climbToPeak_succ hnot, hpos, if_neg fun hc => hfresh hc.2, if_neg (by omega), hback, hroot,
    hnext]

/-- From a leaf of a tree the loop of `prove` collects the siblings that lead to the tree's root. -/
theorem climb_tree {m : MerkleMountainRange} (s : Stands isV2 t h offset m.nodes)
    (hword : m.nodes.length < 2 ^ 63)
    (hpeaks : ∀ q, q + 1 < width h → offset + q ∉ positions) (hq : q < width h)
    (hleaf : posHeight q = 0) :
    ∃ path : List ProofElement,
      path.foldl (fun current elem => elem.above isV2 current) (m.nodes.getD (offset + q) 0) =
        t.root (joinNodes isV2) ∧
      ∀ fuel siblings, m.climbToPeak positions (fuel + h) siblings (offset + q) 0 =
        m.climbToPeak positions fuel (siblings ++ path) (offset + width h - 1) h := by
  induction h generalizing t offset q with
  | zero =>
    have hq0 : q = 0 := by
      rw [width] at hq
      omega
    subst hq0
    refine ⟨[], s.root_get.1, fun fuel siblings => ?_⟩
    rw [List.append_nil]
    rfl
  | succ h ih =>
    have hs := width_succ h
    have hw := width_pos h
    cases hp : s.perfect with
    | @node _ l r hl hr =>
      rcases Nat.lt_or_ge q (width h) with hleft | hright
      · -- in the left subtree
        obtain ⟨path, hfold, hclimb⟩ := ih s.left (fun q hq => hpeaks q (by omega)) hleft hleaf
        have hnot : offset + width h - 1 ∉ positions := by
          have := hpeaks (width h - 1) (by omega)
          rwa [← Nat.add_sub_assoc hw] at this
        refine ⟨path ++ [⟨r.root (joinNodes isV2), true⟩], ?_, fun fuel siblings => ?_⟩
        · rw [List.foldl_append, hfold]
          rfl
        · have hfuel : fuel + (h + 1) = fuel + 1 + h := by omega
          rw [hfuel, hclimb, s.turn_left hnot, List.append_assoc]
      · rcases Nat.lt_or_ge q (2 * width h) with hin | htop
        · -- in the right subtree
          obtain ⟨k, rfl⟩ := Nat.exists_eq_add_of_le hright
          have hk : posHeight k = 0 := by
            have h1 := s.aligned (width h + k) (by omega)
            have h2 := s.right.aligned k (by omega)
            rw [Nat.add_assoc] at h2
            rw [← h2, h1, hleaf]
          obtain ⟨path, hfold, hclimb⟩ := ih s.right
            (fun q hq => by rw [Nat.add_assoc]; exact hpeaks _ (by omega)) (by omega) hk
          rw [Nat.add_assoc] at hfold hclimb
          have hnot : offset + width h + width h - 1 ∉ positions := by
            have := hpeaks (2 * width h - 1) (by omega)
            have hpos : offset + width h + width h - 1 = offset + (2 * width h - 1) := by omega
            rwa [hpos]
          refine ⟨path ++ [⟨l.root (joinNodes isV2), false⟩], ?_, fun fuel siblings => ?_⟩
          · rw [List.foldl_append, hfold]
            rfl
          · have hfuel : fuel + (h + 1) = fuel + 1 + h := by omega
            rw [hfuel, hclimb, s.turn_right hword hnot, List.append_assoc]
        · -- the root itself is no leaf
          have hq' : q = width (h + 1) - 1 := by omega
          rw [hq', posHeight_top s.high] at hleaf
          exact absurd hleaf (Nat.succ_ne_zero h)

theorem Grown.stands {front back : List (HashTree Bytes32)} (g : Grown isV2 leaves row m)
    (hn : leaves.length < 2 ^ 63) (hrow : row = front ++ t :: back) :
    Stands isV2 t t.height (rowNodes (joinNodes isV2) back).length m.nodes := by
  subst hrow
  have hrise := g.crested.rising
  have hspan := span_le_count
    (((front ++ t :: back).map (HashTree.top (joinNodes isV2))).map Prod.fst)
  rw [g.crested.leaves, g.leafCount] at hspan
  have hcount := g.crested.leaves
  rw [g.leafCount] at hcount
  simp only [List.map_append, List.map_cons, List.map_map] at hrise hspan hcount
  have hhigh : t.height < 63 := height_lt
    (List.mem_append_right _ List.mem_cons_self) (hcount ▸ hn)
  have hback : Row back := fun u hu => g.perfect u
    (List.mem_append_right _ (List.mem_cons_of_mem t hu))
  have hlen := (crowned_row (joinNodes isV2) hback).length
  rw [List.map_map] at hlen
  refine ⟨g.perfect t (List.mem_append_right _ List.mem_cons_self), hhigh,
    ⟨_, rowNodes (joinNodes isV2) front, ?_, rfl⟩, ?_⟩
  · rw [g.nodes, rowNodes_append, rowNodes, List.append_assoc]
  · intro q hq
    rw [hlen]
    apply posHeight_span (h := t.height) (List.pairwise_append.mp hrise).2.1 hq
    rw [span_append] at hspan
    exact (Nat.le_add_left _ _).trans (hspan.trans (by omega))

omit [Primitives] in
theorem prove_eq {m : MerkleMountainRange} (hpos : pos < m.nodes.length) (h0 : posHeight pos = 0)
    (hclimb : m.climbToPeak (peaks m.nodes.length) 64 [] pos 0 = some (path, top))
    (hindex : (peaks m.nodes.length).findIdx? (· == top) = some i) :
    m.prove pos = .ok ⟨pos, path, (peaks m.nodes.length).map fun p => m.nodes.getD p 0, i,
      m.nodes.length⟩ := by
  rw [MerkleMountainRange.prove, Fallible.bailIf_neg (by omega),
    Fallible.bailIf_neg (not_not.mpr h0)]
  simp only [hclimb, Fallible.orBail_some, Fallible.bind_ok, hindex]

theorem verifyMmrProof_bagged {ps : List Nat} {get : Nat → Bytes32}
    (hfold : path.foldl (fun current elem => elem.above isV2 current) leaf = (ps.map get).getD i 0)
    (hi : i < ps.length) :
    verifyMmrProof leaf ⟨pos, path, ps.map get, i, size⟩
      (match ps.reverse with
        | [] => 0
        | last :: rest => rest.foldl (fun acc p => hashNode (get p) acc isV2) (get last)) isV2 =
      true := by
  rw [verifyMmrProof, ← List.map_reverse]
  cases hr : ps.reverse with
  | nil =>
    rw [List.reverse_eq_nil_iff.mp hr] at hi
    exact absurd hi (Nat.not_lt_zero i)
  | cons last rest =>
    simp only [List.map_cons, List.length_map, List.foldl_map, hfold]
    rw [if_neg (by omega), if_neg (not_not.mpr rfl)]
    exact beq_self_eq_true _

theorem Grown.length_lt (g : Grown isV2 leaves row m) (hn : leaves.length < 2 ^ 62) :
    m.nodes.length < 2 ^ 63 := by
  have hsize := mmrSize_eq (n := leaves.length) (by omega)
  rw [g.crested.size (by rw [g.leafCount]; omega), g.leafCount]
  omega

theorem Grown.peaks_of_tree {front back : List (HashTree Bytes32)}
    (g : Grown isV2 leaves row m) (hn : leaves.length < 2 ^ 63)
    (hrow : row = front ++ t :: back) :
    (∀ k, k + 1 < width t.height →
      (rowNodes (joinNodes isV2) back).length + k ∉ peaks m.nodes.length) ∧
    (rowNodes (joinNodes isV2) back).length + width t.height - 1 ∈
      peaks m.nodes.length := by
  have hheights : ((row.map (HashTree.top (joinNodes isV2))).map Prod.fst) =
      front.map HashTree.height ++ t.height :: back.map HashTree.height := by
    rw [hrow, List.map_map, List.map_append]
    rfl
  have hback : (rowNodes (joinNodes isV2) back).length =
      span (back.map HashTree.height) := by
    have hr : Row back := fun u hu => g.perfect u
      (hrow ▸ List.mem_append_right _ (List.mem_cons_of_mem t hu))
    rw [(crowned_row (joinNodes isV2) hr).length, List.map_map]
    rfl
  rw [g.crested.peaks_nodes (by rw [g.leafCount]; exact hn), hheights, hback]
  constructor
  · intro k hk hmem
    have := crown_between (List.mem_reverse.mp hmem)
    omega
  · exact List.mem_reverse.mpr (mem_crown _ _ _)

omit [Primitives] in
theorem exists_findIdx {ps : List Nat} (h : p ∈ ps) :
    ∃ i, ps.findIdx? (· == p) = some i ∧ ps[i]? = some p := by
  cases hf : ps.findIdx? (· == p) with
  | none => exact absurd (List.findIdx?_eq_none_iff.mp hf p h) (by simp)
  | some i =>
    obtain ⟨hlt, heq, _⟩ := List.findIdx?_eq_some_iff_getElem.mp hf
    exact ⟨i, rfl, by rw [List.getElem?_eq_getElem hlt, eq_of_beq heq]⟩

theorem Grown.prove_verifies (g : Grown isV2 leaves row m) (hn : leaves.length < 2 ^ 62)
    (hpos : pos < m.nodes.length) (hleaf : posHeight pos = 0) :
    ∃ proof, m.prove pos = .ok proof ∧
      verifyMmrProof (m.nodes.getD pos 0) proof (m.root isV2) isV2 = true := by
  have hin := hpos
  rw [g.nodes] at hin
  obtain ⟨front, t, back, q, hrow, rfl, hq⟩ := exists_tree _ hin
  have hs := g.stands (by omega) hrow
  rw [HashTree.length_postorder _ hs.perfect] at hq
  obtain ⟨hinside, hpeak⟩ := g.peaks_of_tree (by omega) hrow
  have hzero := hleaf
  rw [hs.aligned q hq] at hleaf
  obtain ⟨path, hfold, hclimb⟩ := climb_tree hs (g.length_lt hn) hinside hq hleaf
  have hhigh := hs.high
  have hroot := hs.root_get.1
  generalize (rowNodes (joinNodes isV2) back).length + width t.height - 1 = top
    at hpeak hclimb hroot
  have hloop : m.climbToPeak (peaks m.nodes.length) 64 []
      ((rowNodes (joinNodes isV2) back).length + q) 0 = some (path, top) := by
    have hfuel : 64 = 63 - t.height + 1 + t.height := by omega
    rw [hfuel, hclimb, MerkleMountainRange.climbToPeak, if_pos hpeak, List.nil_append]
  obtain ⟨i, hi, hget⟩ := exists_findIdx hpeak
  refine ⟨_, prove_eq hpos hzero hloop hi, ?_⟩
  have hindex : ((peaks m.nodes.length).map fun p => m.nodes.getD p 0).getD i 0 =
      m.nodes.getD top 0 := by
    rw [List.getD_eq_getElem?_getD, List.getElem?_map, hget]
    rfl
  exact verifyMmrProof_bagged (hfold.trans (hroot.symm.trans hindex.symm))
    (List.getElem?_eq_some_iff.mp hget).1

end Climb

theorem Grown.prove_refuses (g : Grown isV2 leaves row m)
    (hpos : ∀ i < leaves.length, pos ≠ mmrSize i) :
    ∃ text, m.prove pos = .error (.message text) := by
  rw [MerkleMountainRange.prove]
  by_cases hin : pos < m.nodes.length
  · have hne : posHeight pos ≠ 0 := by
      intro h0
      obtain ⟨i, hi, he⟩ := g.onlyLeaves hin h0
      exact hpos i hi he
    rw [Fallible.bailIf_neg (not_le.mpr hin), Fallible.bailIf_pos hne]
    exact ⟨_, rfl⟩
  · rw [Fallible.bailIf_pos (not_lt.mp hin)]
    exact ⟨_, rfl⟩

/-- The trees of a grown range, first to last, and where their roots stand. -/
theorem Grown.row_spec (g : Grown isV2 leaves row m) (hn : leaves.length < 2 ^ 63) :
    (∀ t ∈ row.reverse, t.Perfect t.height) ∧
    row.reverse.Pairwise (fun t u => t.height > u.height) ∧
    row.reverse.flatMap HashTree.leaves = leaves ∧
    m.nodes = row.reverse.flatMap (HashTree.postorder (joinNodes isV2)) ∧
    row.reverse.length = countOnes 64 leaves.length ∧
    peaks (mmrSize leaves.length) = ends 0 (row.reverse.map HashTree.height) ∧
    (peaks (mmrSize leaves.length)).map (fun p => m.nodes.getD p 0) =
      row.reverse.map (HashTree.root (joinNodes isV2)) := by
  have hcount := g.leafCount
  have hsize := g.crested.size (by omega)
  have hpeaks := g.crested.peaks_nodes (by omega)
  have hrise := g.crested.rising
  have hleaves := g.crested.leaves
  have hheights : (row.map (HashTree.top (joinNodes isV2))).map Prod.fst =
      row.map HashTree.height := by
    rw [List.map_map]
    rfl
  have hvalues := g.crested.crowned.map_crown [] 0
  rw [List.append_nil] at hvalues
  rw [hsize, hcount] at hpeaks
  have hones := (mmrSize_count hrise (by rw [hleaves]; omega)).2
  rw [hleaves, hcount] at hones
  refine ⟨fun t ht => g.perfect t (List.mem_reverse.mp ht), ?_, ?_, ?_, ?_, ?_, ?_⟩
  · rw [hheights] at hrise
    exact List.pairwise_reverse.mpr (List.pairwise_map.mp hrise)
  · rw [← rowLeaves_eq_flatMap, g.overLeaves]
  · rw [← rowNodes_eq_flatMap, g.nodes]
  · rw [List.length_reverse, countOnes_eq_ones (by omega), hones, List.length_map, List.length_map]
  · rw [hpeaks, hheights, ← ends_eq_crown, List.map_reverse]
  · rw [hpeaks, List.map_reverse, hvalues, List.map_map, List.map_reverse]
    rfl

/-- A range is the mountain range of its leaves: its nodes are perfect trees over them that
fall in height, its size, its peaks and what `append` returns are those the leaf count
names, cutting it gives the range of the first leaves, and its leaves are what it proves. -/
theorem mmr_is_mountain_range (isV2 : Bool) (leaves : List Bytes32)
    (hn : leaves.length < 2 ^ 62) :
    let m := MerkleMountainRange.new.appendAll isV2 leaves
    let hash := fun left right => hashNode left right isV2
    (∃ row : List (HashTree Bytes32),
      (∀ t ∈ row, t.Perfect t.height) ∧ row.Pairwise (fun t u => t.height > u.height) ∧
      row.flatMap HashTree.leaves = leaves ∧
      m.nodes = row.flatMap (HashTree.postorder hash) ∧
      row.length = countOnes 64 leaves.length ∧
      peaks (mmrSize leaves.length) = ends 0 (row.map HashTree.height) ∧
      (peaks (mmrSize leaves.length)).map (fun p => m.nodes.getD p 0) =
        row.map (HashTree.root hash)) ∧
    m.nodes.length = mmrSize leaves.length ∧
    (∀ leaf, (m.appendLeaf leaf isV2).1 = mmrSize leaves.length) ∧
    (∀ k, m.truncated k = MerkleMountainRange.new.appendAll isV2 (leaves.take k)) ∧
    (∀ i leaf, leaves[i]? = some leaf → ∃ proof, m.prove (mmrSize i) = .ok proof ∧
      verifyMmrProof leaf proof (m.root isV2) isV2 = true) ∧
    ∀ pos, (∀ i < leaves.length, pos ≠ mmrSize i) →
      ∃ text, m.prove pos = .error (.message text) := by
  intro m hash
  have g : Grown isV2 leaves (treesOf leaves) m := grown_appendAll isV2 leaves (by omega)
  have hsize : m.nodes.length = mmrSize leaves.length := by
    rw [g.crested.size (by rw [g.leafCount]; omega), g.leafCount]
  refine ⟨⟨_, g.row_spec (by omega)⟩, hsize, fun leaf => hsize, fun k => ?_, fun i leaf hi => ?_,
    fun pos hpos => g.prove_refuses hpos⟩
  · have hzero : MerkleMountainRange.new.leafCount = 0 := rfl
    exact crested_new.truncated_appendAll (Nat.zero_le k) (by rw [hzero]; omega)
  · obtain ⟨h0, hget⟩ := g.placed hi
    obtain ⟨hlt, hval⟩ := List.getElem?_eq_some_iff.mp hget
    have hproof := g.prove_verifies hn hlt h0
    rwa [List.getD_eq_getElem _ _ hlt, hval] at hproof

omit [Primitives] in
theorem mmr_is_mountain_range_three :
    letI := Primitives.words
    ∃ proof, (MerkleMountainRange.new.appendAll true [1, 2, 3]).prove (mmrSize 1) = .ok proof ∧
      verifyMmrProof 2 proof ((MerkleMountainRange.new.appendAll true [1, 2, 3]).root true) true =
        true :=
  letI := Primitives.words
  (mmr_is_mountain_range true [1, 2, 3] (by decide)).2.2.2.2.1 1 2 rfl

end Midwimble
