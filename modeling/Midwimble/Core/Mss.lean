import Midwimble.Core.BondScript
import Midwimble.Core.Recovery

namespace Midwimble
set_option autoImplicit true

def maxHeight : Nat := 20
def wotsChains : Nat := 18
def maxDigit : Nat := 65535
def sigSize : Nat := wotsChains * 32

namespace MssSignature

/-- Layout: `leaf_index(8) || wots_pk(32) || wots_sig(576) || auth_len(4) || auth_path`. -/
def toBytes (s : MssSignature) : Bytes :=
  Bytes.le 8 s.leafIndex ++ s.wotsPk.toBytes ++ s.wotsSig.flatMap Bytes32.toBytes ++
    Bytes.le 4 s.authPath.length ++ s.authPath.flatMap Bytes32.toBytes

/-- Thirty-two bytes from each of `n` offsets on. -/
def wordsAt (data : Bytes) (start n : Nat) : List Bytes32 :=
  (List.range n).map fun i => wordOf (data.drop (start + i * 32))

def authLen (data : Bytes) : Nat := fromLeBytes ((data.drop 616).take 4)

def minSize : Nat := 8 + 32 + sigSize + 4

def fromBytes (data : Bytes) : Result MssSignature := do
  Fallible.bailIf (data.length < minSize)
    s!"MSS signature too short ({data.length} < {minSize})"
  let leafIndex := fromLeBytes (data.take 8)
  let wotsPk := wordOf (data.drop 8)
  -- The slice has `SIG_SIZE` bytes, so that `sig_from_bytes` cannot fail.
  let wotsSig := wordsAt data 40 wotsChains
  let authLen := authLen data
  Fallible.bailIf (authLen > maxHeight) s!"MSS auth path too long: {authLen} > {maxHeight}"
  let remaining := data.length - minSize
  Fallible.bailIf (authLen > 0 ∧ remaining ≠ authLen * 32)
    (s!"MSS auth path length mismatch: expected {authLen * 32} bytes for {authLen} nodes, " ++
      s!"got {remaining}")
  .ok ⟨leafIndex, wotsPk, wotsSig, wordsAt data minSize authLen⟩

end MssSignature

/-- A key pair, its tree one-indexed: the root at 1, the leaves from `2 ^ height` on. -/
structure MssKeypair where
  height : Nat
  masterSeed : Bytes32
  tree : List Bytes32
  nextLeaf : Nat
  masterPk : Bytes32
  deriving DecidableEq

variable [Primitives]

def scalarWotsChain (val : Bytes32) (iters : Nat) : Bytes32 :=
  (fun y => hash (Bytes32.toBytes y))^[iters] val

/-- Each chain hashed on its own number of times. -/
def processWotsBatch (inputs : List Bytes32) (iters : List Nat) : List Bytes32 :=
  List.zipWith scalarWotsChain inputs iters

def chainSk (seed : Bytes32) (i : Nat) : Bytes32 := blake3 (seed.toBytes ++ Bytes.le 4 i)

def chainSks (seed : Bytes32) : List Bytes32 := (List.range wotsChains).map (chainSk seed)

def wotsKeygen (seed : Bytes32) : Bytes32 :=
  let endpoints := processWotsBatch (chainSks seed) (List.replicate wotsChains maxDigit)
  hash (endpoints.flatMap Bytes32.toBytes)

def wotsSign (seed message : Bytes32) : List Bytes32 :=
  processWotsBatch (chainSks seed) (wotsDigits message)

def deriveWotsSeed (masterSeed : Bytes32) (index : Nat) : Bytes32 :=
  hashConcat masterSeed.toBytes (Bytes.le 8 index)

def leafPublicKey (masterSeed : Bytes32) (index : Nat) : Bytes32 :=
  wotsKeygen (deriveWotsSeed masterSeed index)

def parentHash (left right : Bytes32) : Bytes32 := hashConcat left.toBytes right.toBytes

/-- Puts the leaves `start`, ..., `start + count - 1` into the tree. -/
def fillLeaves (masterSeed : Bytes32) (leafStart : Nat) :
    (start count : Nat) → List Bytes32 → List Bytes32
  | _, 0, tree => tree
  | i, count + 1, tree =>
    fillLeaves masterSeed leafStart (i + 1) count
      (tree.set (leafStart + i) (leafPublicKey masterSeed i))

def buildNodes : (last : Nat) → List Bytes32 → List Bytes32
  | 0, tree => tree
  | i + 1, tree =>
    buildNodes i
      (tree.set (i + 1) (parentHash (tree.getD (2 * (i + 1)) 0) (tree.getD (2 * (i + 1) + 1) 0)))

/-- The key pair over a tree whose leaves are filled. -/
def MssKeypair.build (height : Nat) (masterSeed : Bytes32) (filled : List Bytes32) : MssKeypair :=
  let tree := buildNodes (2 ^ height - 1) filled
  ⟨height, masterSeed, tree, 0, tree.getD 1 0⟩

def checkHeight (height : Nat) : Result Unit :=
  Fallible.bailIf (height = 0 ∨ height > maxHeight) s!"height must be in 1..={maxHeight}"

/-- `keygen` as the browser runs it, and `keygen_with_progress`: one leaf after the other. -/
def keygenSequential (masterSeed : Bytes32) (height : Nat) : Result MssKeypair := do
  checkHeight height
  let tree := List.replicate (2 ^ height * 2) 0
  .ok (.build height masterSeed (fillLeaves masterSeed (2 ^ height) 0 (2 ^ height) tree))

def chunkSize : Nat := 4096

/-- Fills the leaves from `start` on by chunks, with the leaves saved after some of them. -/
def fillChunks (masterSeed : Bytes32) (leaves start : Nat) (tree : List Bytes32)
    (saved : List (List Bytes32)) : List Bytes32 × List (List Bytes32) :=
  if start < leaves then
    let stop := min (start + chunkSize) leaves
    let tree := fillLeaves masterSeed leaves start (stop - start) tree
    let saved :=
      if start / chunkSize % 10 = 0 ∨ stop = leaves then saved ++ [tree.drop leaves] else saved
    fillChunks masterSeed leaves (start + chunkSize) tree saved
  else (tree, saved)
termination_by leaves - start
decreasing_by
  have : 0 < chunkSize := by decide
  omega

/-- How many leaves of a checkpoint are not all zeros. -/
def leavesCompleted (leaves : List Bytes32) : Nat := leaves.countP (· ≠ 0)

/-- The tree a checkpoint's leaves are copied into, if there are as many as the tree has, and
how many are taken to be done. -/
def resumeTree (leaves : Nat) (checkpoint : Option (List Bytes32)) : List Bytes32 × Nat :=
  let tree := List.replicate (leaves * 2) 0
  match checkpoint with
  | none => (tree, 0)
  | some savedLeaves =>
    if savedLeaves.length = leaves then
      (tree.take leaves ++ savedLeaves, leavesCompleted savedLeaves)
    else (tree, 0)

/-- Native `keygen`, given what its checkpoint file decodes to, with the checkpoints it writes
on the way. -/
def keygenNative (masterSeed : Bytes32) (height : Nat) (checkpoint : Option (List Bytes32)) :
    Result (MssKeypair × List (List Bytes32)) := do
  checkHeight height
  let (tree, completed) := resumeTree (2 ^ height) checkpoint
  let (tree, saved) := fillChunks masterSeed (2 ^ height) completed tree []
  .ok (.build height masterSeed tree, saved)

def nextLevel : List Bytes32 → List Bytes32
  | left :: right :: rest => parentHash left right :: nextLevel rest
  | _ => []

theorem length_nextLevel (level : List Bytes32) : (nextLevel level).length = level.length / 2 := by
  fun_induction nextLevel level with
  | case1 left right rest ih =>
    rw [List.length_cons, List.length_cons, List.length_cons, ih]
    omega
  | case2 level hpair =>
    match level, hpair with
    | [], _ => rfl
    | [_], _ => simp
    | left :: right :: rest, hpair => exact absurd rfl (hpair left right rest)

/-- Hashes level upon level until one node is left. -/
def topOf (level : List Bytes32) : Bytes32 :=
  if level.length > 1 then topOf (nextLevel level) else level.getD 0 0
termination_by level.length
decreasing_by
  rw [length_nextLevel]
  omega

def rootFromLeaves (leaves : List Bytes32) : Result Bytes32 := do
  let n := leaves.length
  Fallible.bailIf (n < 2 ∨ ¬ n.isPowerOfTwo ∨ n > 2 ^ maxHeight)
    s!"an MSS tree has 2^h leaves with h in 1..={maxHeight}"
  .ok (topOf leaves)

/-- The siblings on the way from a node `steps` levels up. -/
def authSiblings (tree : List Bytes32) : (steps node : Nat) → List Bytes32
  | 0, _ => []
  | steps + 1, node =>
    (if node % 2 = 0 then tree.getD (node + 1) 0 else tree.getD (node - 1) 0) ::
      authSiblings tree steps (node / 2)

namespace MssKeypair

def authPath (k : MssKeypair) (leaf : Nat) : List Bytes32 :=
  authSiblings k.tree k.height (2 ^ k.height + leaf)

/-- Signs with the next leaf, which is used up. -/
def sign (k : MssKeypair) (message : Bytes32) : MssKeypair × Result MssSignature :=
  let leaves := 2 ^ k.height
  if k.nextLeaf ≥ leaves then
    (k, .error s!"MSS tree exhausted: all {leaves} leaves used")
  else
    let seed := deriveWotsSeed k.masterSeed k.nextLeaf
    ({ k with nextLeaf := k.nextLeaf + 1 },
      .ok ⟨k.nextLeaf, wotsKeygen seed, wotsSign seed message, k.authPath k.nextLeaf⟩)

end MssKeypair

end Midwimble
