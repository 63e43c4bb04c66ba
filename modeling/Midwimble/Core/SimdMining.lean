import Mathlib.Data.Fin.VecNotation
import Mathlib.Logic.Function.Basic
import Midwimble.Core.ProofOfWork

namespace Midwimble
set_option autoImplicit true

abbrev Word := BitVec 32

def blakeIv : Fin 8 → Word :=
  ![0x6A09E667, 0xBB67AE85, 0x3C6EF372, 0xA54FF53A, 0x510E527F, 0x9B05688C, 0x1F83D9AB, 0x5BE0CD19]

/-- `CHUNK_START | CHUNK_END | ROOT`. -/
def hashFlags : Word := 1 ||| 2 ||| 8

/-- BLAKE3 message word permutation schedule, one row per round. -/
def msgSchedule : List (Fin 16 → Fin 16) :=
  [![0, 1, 2, 3, 4, 5, 6, 7, 8, 9, 10, 11, 12, 13, 14, 15],
    ![2, 6, 3, 10, 7, 0, 4, 13, 1, 11, 12, 5, 9, 14, 15, 8],
    ![3, 4, 10, 12, 13, 2, 7, 14, 6, 5, 9, 0, 11, 15, 8, 1],
    ![10, 7, 12, 9, 14, 3, 13, 15, 4, 0, 11, 2, 5, 8, 1, 6],
    ![12, 13, 9, 11, 15, 10, 14, 8, 7, 2, 5, 3, 0, 1, 6, 4],
    ![9, 14, 11, 5, 8, 12, 15, 1, 13, 3, 0, 10, 2, 6, 4, 7],
    ![11, 15, 5, 0, 1, 9, 8, 6, 14, 10, 2, 12, 3, 4, 7, 13]]

def bytesToWords (b : Bytes32) (i : Fin 8) : Word :=
  BitVec.ofNat 32 (((b.toBytes.drop (4 * i)).take 4).foldr (fun x n => n * 256 + x.toNat) 0)

/-- The bytes of eight words, as `extract_hash` lays them out. -/
def wordsToBytes (w : Fin 8 → Word) : Bytes32 :=
  wordOf ((List.finRange 8).flatMap fun i => Bytes.le 4 (w i).toNat)

/-- The operations of a vector unit on `W`, a word or several in lanes. -/
structure WordOps (W : Type) where
  add : W → W → W
  xor : W → W → W
  vrot16 : W → W
  vrot12 : W → W
  vrot8 : W → W
  vrot7 : W → W
  splat : Word → W

namespace WordOps

variable (o : WordOps W)

/-- `v[a] = v[a] + v[b] + m`. -/
def mixIn (v : Fin 16 → W) (a b : Fin 16) (m : W) : Fin 16 → W :=
  Function.update v a (o.add (o.add (v a) (v b)) m)

/-- `v[d] = rot(v[d] ^ v[a])`. -/
def xorRot (rot : W → W) (v : Fin 16 → W) (d a : Fin 16) : Fin 16 → W :=
  Function.update v d (rot (o.xor (v d) (v a)))

/-- `v[c] = v[c] + v[d]`. -/
def accumulate (v : Fin 16 → W) (c d : Fin 16) : Fin 16 → W :=
  Function.update v c (o.add (v c) (v d))

def g (v : Fin 16 → W) (a b c d : Fin 16) (mx my : W) : Fin 16 → W :=
  let v := o.mixIn v a b mx
  let v := o.xorRot o.vrot16 v d a
  let v := o.accumulate v c d
  let v := o.xorRot o.vrot12 v b c
  let v := o.mixIn v a b my
  let v := o.xorRot o.vrot8 v d a
  let v := o.accumulate v c d
  o.xorRot o.vrot7 v b c

/-- One round: the columns, then the diagonals. -/
def round (m : Fin 16 → W) (v : Fin 16 → W) (s : Fin 16 → Fin 16) : Fin 16 → W :=
  let v := o.g v 0 4 8 12 (m (s 0)) (m (s 1))
  let v := o.g v 1 5 9 13 (m (s 2)) (m (s 3))
  let v := o.g v 2 6 10 14 (m (s 4)) (m (s 5))
  let v := o.g v 3 7 11 15 (m (s 6)) (m (s 7))
  let v := o.g v 0 5 10 15 (m (s 8)) (m (s 9))
  let v := o.g v 1 6 11 12 (m (s 10)) (m (s 11))
  let v := o.g v 2 7 8 13 (m (s 12)) (m (s 13))
  o.g v 3 4 9 14 (m (s 14)) (m (s 15))

/-- The state before the rounds: the chaining value, then the constants. -/
def initial (cv : Fin 8 → W) (blockLen : Word) (i : Fin 16) : W :=
  if h : i.val < 8 then cv ⟨i, h⟩
  else o.splat (![blakeIv 0, blakeIv 1, blakeIv 2, blakeIv 3, 0, 0, blockLen, hashFlags]
    ⟨i.val - 8, by omega⟩)

def compress (cv : Fin 8 → W) (msg : Fin 16 → W) (blockLen : Word) (i : Fin 8) : W :=
  let v := msgSchedule.foldl (o.round msg) (o.initial cv blockLen)
  o.xor (v ⟨i, by omega⟩) (v ⟨i + 8, by omega⟩)

/-- A 32-byte message block: eight words, then zeros. -/
def message (hw : Fin 8 → W) (i : Fin 16) : W :=
  if h : i.val < 8 then hw ⟨i, h⟩ else o.splat 0

def hashBlock (hw : Fin 8 → W) : Fin 8 → W :=
  o.compress (fun i => o.splat (blakeIv i)) (o.message hw) 32

def iterate : (n : Nat) → (Fin 8 → W) → Fin 8 → W
  | 0, hw => hw
  | n + 1, hw => iterate n (o.hashBlock hw)

end WordOps

/-- The words of `blake3`'s own compression. -/
def scalarOps : WordOps Word where
  add := (· + ·)
  xor := (· ^^^ ·)
  vrot16 x := x.rotateRight 16
  vrot12 x := x.rotateRight 12
  vrot8 x := x.rotateRight 8
  vrot7 x := x.rotateRight 7
  splat x := x

/-- The bytes of a word put in the order a byte shuffle names, the highest first. -/
def shuffleBytes (b3 b2 b1 b0 : Nat) (x : Word) : Word :=
  x.extractLsb' (8 * b3) 8 ++ x.extractLsb' (8 * b2) 8 ++ x.extractLsb' (8 * b1) 8 ++
    x.extractLsb' (8 * b0) 8

/-- AVX2: 256-bit registers of eight words. -/
def avx2Ops : WordOps (Fin 8 → Word) where
  add x y l := x l + y l
  xor x y l := x l ^^^ y l
  vrot16 x l := shuffleBytes 1 0 3 2 (x l)
  vrot12 x l := x l >>> 12 ||| x l <<< 20
  vrot8 x l := shuffleBytes 0 3 2 1 (x l)
  vrot7 x l := x l >>> 7 ||| x l <<< 25
  splat x _ := x

/-- NEON: 128-bit registers of four words. -/
def neonOps : WordOps (Fin 4 → Word) where
  add x y l := x l + y l
  xor x y l := x l ^^^ y l
  vrot16 x l := shuffleBytes 1 0 3 2 (x l)
  vrot12 x l := x l >>> 12 ||| x l <<< 20
  vrot8 x l := x l >>> 8 ||| x l <<< 24
  vrot7 x l := x l >>> 7 ||| x l <<< 25
  splat x _ := x

inductive SimdLevel
  | scalar
  | wasm128_4
  | neon4
  | neon8
  | avx2_8

def SimdLevel.lanes : SimdLevel → Nat
  | .scalar | .wasm128_4 | .neon4 => 4
  | .neon8 | .avx2_8 => 8

/-- The hash chain on `n` different seeds at once. -/
def iterateSeeds (o : WordOps (Fin n → Word)) (iterations : Nat) (seeds : Fin n → Bytes32)
    (l : Fin n) : Bytes32 :=
  let hw := o.iterate iterations fun i l => bytesToWords (seeds l) i
  wordsToBytes fun i => hw i l

/-- rayon's `find_map_any`: some value that `f` finds, whichever thread is first. -/
structure FindMapAny where
  find : {α : Type} → (α → Option Nat) → List α → Option Nat
  none_iff : ∀ {α : Type} {f : α → Option Nat} {l : List α}, find f l = none ↔ ∀ a ∈ l, f a = none
  found : ∀ {α : Type} {f : α → Option Nat} {l : List α} {i : Nat}, find f l = some i →
    ∃ a ∈ l, f a = some i

/-- The search that stops at the first place, as on one thread. -/
def FindMapAny.first : FindMapAny where
  find f l := l.findSome? f
  none_iff := List.findSome?_eq_none_iff
  found := List.exists_of_findSome?_eq_some

/-- Some elements in groups of `size`, the last perhaps partial. -/
def chunksOf (size : Nat) : (fuel : Nat) → List α → List (List α)
  | 0, _ => []
  | fuel + 1, l => if l.isEmpty then [] else l.take size :: chunksOf size fuel (l.drop size)

variable [Primitives]

def powSeed (miningHash : Bytes32) (nonce : Nat) : Bytes32 :=
  hash (miningHash.toBytes ++ Bytes.le 8 nonce)

def iterateScalar (seed : Bytes32) : Bytes32 := hashTimes extensionIterations seed

/-- Whole groups of `n` seeds through the lanes, and the rest one by one. -/
def batchLanes (o : WordOps (Fin n → Word)) : (fuel : Nat) → List Bytes32 → List Bytes32
  | 0, rest => rest.map iterateScalar
  | fuel + 1, rest =>
    if rest.length ≥ n then
      List.ofFn (iterateSeeds o extensionIterations fun l => rest.getD l 0) ++
        batchLanes o fuel (rest.drop n)
    else rest.map iterateScalar

def verifyPowBatch (level : SimdLevel) (seeds : List Bytes32) : List Bytes32 :=
  match level with
  | .avx2_8 => batchLanes avx2Ops seeds.length seeds
  | .neon4 | .neon8 => batchLanes neonOps seeds.length seeds
  | .scalar | .wasm128_4 => seeds.map iterateScalar

/-- The first job of a group of BLAKE3-chain jobs whose final hash is not the computed one. -/
def badLane (level : SimdLevel) (chunk : List PowJob) (idx : List Nat) : Option Nat :=
  let jobs := idx.filterMap fun i => chunk[i]?
  let seeds := jobs.map fun j => powSeed j.miningHash j.nonce
  (((verifyPowBatch level seeds).zip idx).find? fun (f, i) =>
    chunk[i]?.any fun j => f ≠ j.finalHash).map Prod.snd

def badWalk (chunk : List PowJob) (i : Nat) : Option Nat :=
  if chunk[i]?.any fun j => !j.holds then some i else none

/-- A bad job of a piece: BLAKE3-chain jobs in lanes, then Midstate Walk jobs. -/
def badIn (level : SimdLevel) (any : FindMapAny) (chunk : List PowJob) : Option Nat :=
  let (chain, walk) := (List.range chunk.length).partition fun i =>
    chunk[i]?.any fun j => j.algo = .blake3Chain
  (any.find (badLane level chunk) (chunksOf level.lanes chain.length chain)).or
    (any.find (badWalk chunk) walk)

/-- The pieces from the `p`th on. Each is put to `proceed` with its place in the order. -/
def checkPiecesBy (level : SimdLevel) (any : Nat → FindMapAny) (piece : Nat)
    (proceed : Nat → Nat → Bool) : (fuel p : Nat) → List PowJob → Except PowCheck Unit
  | 0, _, _ => .ok ()
  | fuel + 1, p, rest =>
    if rest.isEmpty then .ok ()
    else
      let chunk := rest.take piece
      if !proceed (p + 1) chunk.length then .error .abandoned
      else match badIn level (any p) chunk with
        | some i => .error (.bad (1 + p * piece + i))
        | none => checkPiecesBy level any piece proceed fuel (p + 1) (rest.drop piece)

/-- `check_pow_jobs_with` on a machine with these lanes and threads, whose threads find what
`any` says of each piece. -/
def checkPowJobsBy (level : SimdLevel) (threads : Nat) (any : Nat → FindMapAny)
    (proceed : Nat → Nat → Bool) (jobs : List PowJob) : Except PowCheck Unit :=
  match jobs with
  | [] => .ok ()
  | first :: rest =>
    if !proceed 0 1 then .error .abandoned
    else if !first.holds then .error (.bad 0)
    else
      let piece := max (max level.lanes 1 * threads * 4) 128
      checkPiecesBy level any piece proceed rest.length 0 rest

end Midwimble
