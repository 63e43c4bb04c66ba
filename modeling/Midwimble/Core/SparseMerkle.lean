import Std.Data.ExtHashMap.Lemmas
import Midwimble.Core.Mmr

namespace Midwimble
set_option autoImplicit true

/-- Levels of the tree. -/
def smtHeight : Nat := 256

/-- The lowest level the cache holds: the roots of the 16-bit prefixes. -/
def cacheMinHeight : Nat := 240

def flipBit (path : Bytes32) (bitIndex : Nat) : Bytes32 := path ^^^ BitVec.twoPow 256 bitIndex

/-- Clears the bits below `height`. -/
def maskLowerBits (path : Bytes32) (height : Nat) : Bytes32 := (path >>> height) <<< height

/-- The sixteen highest bits. -/
def top16 (path : Bytes32) : Nat := (path >>> 240).toNat

/-- A path's height and its highest bits, which determine it in the cache. -/
def cacheKey (height : Nat) (path : Bytes32) : Nat × Nat := (height, top16 path)

def pathFromTop16 (prefix16 : Nat) : Bytes32 := BitVec.ofNat 256 prefix16 <<< 240

/-- `UtxoAccumulator` as the code has it: the coins, and the hashes of the non-empty subtrees
of its top levels. -/
structure CachedAccumulator where
  coins : Std.ExtTreeSet Bytes32
  nodes : Std.ExtHashMap (Nat × Nat) Bytes32

variable [Primitives]

/-- The siblings on the path of `target` below `height`, lowest first. -/
def extractPathSiblings (isV2 : Bool) : (height : Nat) → List Bytes32 → (target : Bytes32) →
    List ProofElement
  | 0, _, _ => []
  | height + 1, coins, target =>
    let leftCoins := coins.takeWhile fun c => !c.getLsbD height
    let rightCoins := coins.dropWhile fun c => !c.getLsbD height
    if !target.getLsbD height then
      extractPathSiblings isV2 height leftCoins target ++
        [⟨computeSparseSubtree isV2 height rightCoins, true⟩]
    else
      extractPathSiblings isV2 height rightCoins target ++
        [⟨computeSparseSubtree isV2 height leftCoins, false⟩]

/-- A cached node's hash, or the empty subtree's. -/
def getNode (nodes : Std.ExtHashMap (Nat × Nat) Bytes32) (height : Nat) (path : Bytes32)
    (isV2 : Bool) : Bytes32 :=
  nodes[cacheKey height path]?.getD (getEmptyHash isV2 height)

/-- Caches a node, or evicts it when its subtree hashes like an empty one. -/
def putNode (nodes : Std.ExtHashMap (Nat × Nat) Bytes32) (height : Nat) (path hash : Bytes32)
    (isV2 : Bool) : Std.ExtHashMap (Nat × Nat) Bytes32 :=
  if hash = getEmptyHash isV2 height then nodes.erase (cacheKey height path)
  else nodes.insert (cacheKey height path) hash

/-- Where the ripple of `update_cache_for_bucket` stands. -/
structure Ripple where
  nodes : Std.ExtHashMap (Nat × Nat) Bytes32
  currentPath : Bytes32
  hashToRipple : Bytes32

/-- One turn of the ripple: from the node at height `h` to its parent. -/
def Ripple.up (isV2 : Bool) (r : Ripple) (h : Nat) : Ripple :=
  let siblingHash := getNode r.nodes h (flipBit r.currentPath h) isV2
  let parentHash :=
    if !r.currentPath.getLsbD h then hashNode r.hashToRipple siblingHash isV2
    else hashNode siblingHash r.hashToRipple isV2
  let parentPath := maskLowerBits r.currentPath (h + 1)
  ⟨putNode r.nodes (h + 1) parentPath parentHash isV2, parentPath, parentHash⟩

/-- The levels whose parents are cached. -/
def cachedLevels : List Nat := List.range' cacheMinHeight (smtHeight - cacheMinHeight)

/-- `update_cache_for_bucket`: recomputes what a bucket contributes to the cache. -/
def updateCacheForBucket (nodes : Std.ExtHashMap (Nat × Nat) Bytes32) (prefix16 : Nat)
    (bucketCoins : List Bytes32) (isV2 : Bool) : Std.ExtHashMap (Nat × Nat) Bytes32 :=
  let bucketHash := computeSparseSubtree isV2 cacheMinHeight bucketCoins
  let currentPath := pathFromTop16 prefix16
  let nodes := putNode nodes cacheMinHeight currentPath bucketHash isV2
  (cachedLevels.foldl (Ripple.up isV2) ⟨nodes, currentPath, bucketHash⟩).nodes

namespace CachedAccumulator

omit [Primitives] in
def new : CachedAccumulator := ⟨∅, ∅⟩

omit [Primitives] in
/-- The coins with a prefix, in ascending order. -/
def bucket (a : CachedAccumulator) (prefix16 : Nat) : List Bytes32 :=
  let lo := pathFromTop16 prefix16
  let hi := lo ||| (BitVec.allOnes 256 >>> 16)
  a.coins.toList.filter fun c => lo ≤ c && c ≤ hi

/-- Adds a coin; `false` if it was there. -/
def insert (a : CachedAccumulator) (coin : Bytes32) (isV2 : Bool) : Bool × CachedAccumulator :=
  if a.coins.contains coin then (false, a)
  else
    let a := { a with coins := a.coins.insert coin }
    let prefix16 := top16 coin
    (true, { a with
      nodes := updateCacheForBucket a.nodes prefix16 (a.bucket prefix16) isV2 })

/-- Takes a coin out; `false` if it was not there. -/
def remove (a : CachedAccumulator) (coin : Bytes32) (isV2 : Bool) : Bool × CachedAccumulator :=
  if !a.coins.contains coin then (false, a)
  else
    let a := { a with coins := a.coins.erase coin }
    let prefix16 := top16 coin
    (true, { a with
      nodes := updateCacheForBucket a.nodes prefix16 (a.bucket prefix16) isV2 })

/-- Rebuilds the cache from the coins, a bucket at a time. -/
def rebuildTree (a : CachedAccumulator) (order : List Nat) (isV2 : Bool) : CachedAccumulator :=
  { a with
    nodes := order.foldl (fun nodes prefix16 => updateCacheForBucket nodes prefix16
      (a.coins.toList.filter fun c => top16 c = prefix16) isV2) ∅ }

def fromCanonicalCoins (coins : Std.ExtTreeSet Bytes32) (order : List Nat) (isV2 : Bool) :
    CachedAccumulator :=
  (CachedAccumulator.mk coins ∅).rebuildTree order isV2

def root (a : CachedAccumulator) (isV2 : Bool) : Bytes32 := getNode a.nodes smtHeight 0 isV2

/-- Where the second part of `prove` stands. -/
structure Climbing where
  currentPath : Bytes32
  siblings : List ProofElement

/-- One turn of it: the sibling at height `h`, from the cache. -/
def Climbing.up (a : CachedAccumulator) (coin : Bytes32) (isV2 : Bool) (s : Climbing)
    (h : Nat) : Climbing :=
  let siblingHash := getNode a.nodes h (flipBit s.currentPath h) isV2
  ⟨maskLowerBits s.currentPath (h + 1), s.siblings ++ [⟨siblingHash, !coin.getLsbD h⟩]⟩

/-- An inclusion proof of a coin. -/
def prove (a : CachedAccumulator) (coin : Bytes32) (isV2 : Bool) : Result UtxoProof :=
  if !a.coins.contains coin then .error "coin not in accumulator"
  else
    let prefix16 := top16 coin
    let siblings := extractPathSiblings isV2 cacheMinHeight (a.bucket prefix16) coin
    let s := cachedLevels.foldl (Climbing.up a coin isV2) ⟨pathFromTop16 prefix16, siblings⟩
    .ok ⟨0, a.coins.size, s.siblings⟩

end CachedAccumulator

end Midwimble
