import Midwimble.Core.Pool

namespace Midwimble
set_option autoImplicit true

variable [Primitives]

/-- The level above: each two nodes joined, an odd one at the end moved up unchanged. -/
def joinLevel : List TreeNode → List TreeNode
  | left :: right :: rest => .join left right :: joinLevel rest
  | [only] => [only]
  | [] => []

theorem length_joinLevel (level : List TreeNode) :
    (joinLevel level).length = (level.length + 1) / 2 := by
  induction level using joinLevel.induct with
  | case1 left right rest ih =>
    simp only [joinLevel, List.length_cons, ih]
    omega
  | case2 only => simp [joinLevel]
  | case3 => rfl

/-- The levels of a share tree, the leaves first. -/
structure ShareTree where
  levels : List (List TreeNode)

namespace ShareTree

/-- The loop of `build`. -/
def levelsFrom (level : List TreeNode) : List (List TreeNode) :=
  if level.length > 1 then level :: levelsFrom (joinLevel level) else [level]
termination_by level.length
decreasing_by
  rw [length_joinLevel]
  omega

def build (leaves : List TreeNode) : ShareTree := ⟨levelsFrom leaves⟩

def root (t : ShareTree) : Option TreeNode := t.levels.getLast?.bind List.head?

/-- The siblings from place `index` on the first of some levels. -/
def siblings : (index : Nat) → List (List TreeNode) → List TreeNode
  | _, [] => []
  | index, level :: levels =>
    match level[index ^^^ 1]? with
    | some sibling => sibling :: siblings (index / 2) levels
    | none => siblings (index / 2) levels

/-- The siblings on the way from leaf `index` to the root. -/
def path (t : ShareTree) (index : Nat) : List TreeNode := siblings index t.levels.dropLast

end ShareTree

/-- The layer above: each two hashes hashed together, an odd last one with itself. -/
def hashLayer : List Bytes32 → List Bytes32
  | a :: b :: rest => hashConcat a.toBytes b.toBytes :: hashLayer rest
  | [a] => [hashConcat a.toBytes a.toBytes]
  | [] => []

theorem length_hashLayer (layer : List Bytes32) :
    (hashLayer layer).length = (layer.length + 1) / 2 := by
  induction layer using hashLayer.induct with
  | case1 a b rest ih =>
    simp only [hashLayer, List.length_cons, ih]
    omega
  | case2 a => simp [hashLayer]
  | case3 => rfl

/-- Merkle root of `layer`, an odd last node paired with itself. -/
def merkleRoot (layer : List Bytes32) : Bytes32 :=
  if layer.length > 1 then merkleRoot (hashLayer layer) else layer.headD 0
termination_by layer.length
decreasing_by
  rw [length_hashLayer]
  omega

def WindowOwner.leaf (o : WindowOwner) : Bytes32 :=
  hashDomain (Bytes.ascii "midwimble.pool.owner-leaf.v1")
    [o.id.toBytes, Bytes.le 8 o.weight, o.sharesRoot.toBytes, Bytes.le 8 o.shares]

/-- What a job commits to. -/
def Window.root (w : Window) : Bytes32 :=
  let total := (w.owners.map WindowOwner.weight).sum
  hashDomain (Bytes.ascii "midwimble.pool.window.v3")
    [(merkleRoot (w.owners.map WindowOwner.leaf)).toBytes, Bytes.le 8 w.owners.length,
      Bytes.le 16 total, Bytes.le 8 w.startSeq, Bytes.le 8 w.endSeq, Bytes.le 4 w.shareBits]

end Midwimble
