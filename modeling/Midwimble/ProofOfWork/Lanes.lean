import Mathlib.Tactic.FinCases
import Mathlib.Tactic.IntervalCases
import Midwimble.Core.SimdMining
import Midwimble.Identity.Preimages

namespace Midwimble
set_option autoImplicit true

/-- A map that takes one vector unit's operations to another's. -/
structure WordOps.Hom (o : WordOps V) (o' : WordOps W) (f : V → W) : Prop where
  add : ∀ x y, f (o.add x y) = o'.add (f x) (f y)
  xor : ∀ x y, f (o.xor x y) = o'.xor (f x) (f y)
  vrot16 : ∀ x, f (o.vrot16 x) = o'.vrot16 (f x)
  vrot12 : ∀ x, f (o.vrot12 x) = o'.vrot12 (f x)
  vrot8 : ∀ x, f (o.vrot8 x) = o'.vrot8 (f x)
  vrot7 : ∀ x, f (o.vrot7 x) = o'.vrot7 (f x)
  splat : ∀ x, f (o.splat x) = o'.splat x

namespace WordOps.Hom

variable {o : WordOps V} {o' : WordOps W} {f : V → W}

theorem mixIn (h : Hom o o' f) (v : Fin 16 → V) (a b : Fin 16) (m : V) :
    f ∘ o.mixIn v a b m = o'.mixIn (f ∘ v) a b (f m) := by
  simp [WordOps.mixIn, Function.comp_update, h.add]

theorem xorRot (h : Hom o o' f) {rot : V → V} {rot' : W → W} (hr : ∀ x, f (rot x) = rot' (f x))
    (v : Fin 16 → V) (d a : Fin 16) :
    f ∘ o.xorRot rot v d a = o'.xorRot rot' (f ∘ v) d a := by
  simp [WordOps.xorRot, Function.comp_update, hr, h.xor]

theorem accumulate (h : Hom o o' f) (v : Fin 16 → V) (c d : Fin 16) :
    f ∘ o.accumulate v c d = o'.accumulate (f ∘ v) c d := by
  simp [WordOps.accumulate, Function.comp_update, h.add]

theorem g (h : Hom o o' f) (v : Fin 16 → V) (a b c d : Fin 16) (mx my : V) :
    f ∘ o.g v a b c d mx my = o'.g (f ∘ v) a b c d (f mx) (f my) := by
  simp only [WordOps.g, h.xorRot h.vrot7, h.accumulate, h.xorRot h.vrot8, h.mixIn,
    h.xorRot h.vrot12, h.xorRot h.vrot16]

theorem round (h : Hom o o' f) (m v : Fin 16 → V) (s : Fin 16 → Fin 16) :
    f ∘ o.round m v s = o'.round (f ∘ m) (f ∘ v) s := by
  simp only [WordOps.round, h.g, Function.comp_apply]

theorem initial (h : Hom o o' f) (cv : Fin 8 → V) (blockLen : Word) :
    f ∘ o.initial cv blockLen = o'.initial (f ∘ cv) blockLen := by
  funext i
  simp only [Function.comp_apply, WordOps.initial]
  split
  · rfl
  · exact h.splat _

theorem rounds (h : Hom o o' f) (m v : Fin 16 → V) (schedule : List (Fin 16 → Fin 16)) :
    f ∘ schedule.foldl (o.round m) v = schedule.foldl (o'.round (f ∘ m)) (f ∘ v) := by
  induction schedule generalizing v with
  | nil => rfl
  | cons s schedule ih => rw [List.foldl_cons, ih, h.round, List.foldl_cons]

theorem compress (h : Hom o o' f) (cv : Fin 8 → V) (msg : Fin 16 → V) (blockLen : Word) :
    f ∘ o.compress cv msg blockLen = o'.compress (f ∘ cv) (f ∘ msg) blockLen := by
  funext i
  have hrounds := h.rounds msg (o.initial cv blockLen) msgSchedule
  rw [h.initial] at hrounds
  simp only [Function.comp_apply, WordOps.compress, h.xor, ← hrounds]

theorem message (h : Hom o o' f) (hw : Fin 8 → V) :
    f ∘ o.message hw = o'.message (f ∘ hw) := by
  funext i
  simp only [Function.comp_apply, WordOps.message]
  split
  · rfl
  · exact h.splat 0

theorem hashBlock (h : Hom o o' f) (hw : Fin 8 → V) :
    f ∘ o.hashBlock hw = o'.hashBlock (f ∘ hw) := by
  have hcv : f ∘ (fun i => o.splat (blakeIv i)) = fun i => o'.splat (blakeIv i) :=
    funext fun i => h.splat _
  rw [WordOps.hashBlock, h.compress, h.message, hcv, WordOps.hashBlock]

theorem iterate (h : Hom o o' f) (n : Nat) (hw : Fin 8 → V) :
    f ∘ o.iterate n hw = o'.iterate n (f ∘ hw) := by
  induction n generalizing hw with
  | zero => rfl
  | succ n ih => rw [WordOps.iterate, ih, h.hashBlock, WordOps.iterate]

end WordOps.Hom

theorem rotateRight_eq (x : Word) (r : Nat) (hr : r < 32) :
    x >>> r ||| x <<< (32 - r) = x.rotateRight r := by
  rw [BitVec.rotateRight_def, Nat.mod_eq_of_lt hr]

theorem shuffleBytes_rot16 (x : Word) : shuffleBytes 1 0 3 2 x = x.rotateRight 16 := by
  apply BitVec.eq_of_getLsbD_eq
  intro i hi
  rw [BitVec.getLsbD_rotateRight]
  simp only [shuffleBytes, BitVec.getLsbD_append, BitVec.getLsbD_extractLsb']
  interval_cases i <;> simp

theorem shuffleBytes_rot8 (x : Word) : shuffleBytes 0 3 2 1 x = x.rotateRight 8 := by
  apply BitVec.eq_of_getLsbD_eq
  intro i hi
  rw [BitVec.getLsbD_rotateRight]
  simp only [shuffleBytes, BitVec.getLsbD_append, BitVec.getLsbD_extractLsb']
  interval_cases i <;> simp

theorem avx2_lane (l : Fin 8) : WordOps.Hom avx2Ops scalarOps fun x => x l where
  add _ _ := rfl
  xor _ _ := rfl
  vrot16 x := shuffleBytes_rot16 (x l)
  vrot12 x := rotateRight_eq (x l) 12 (by decide)
  vrot8 x := shuffleBytes_rot8 (x l)
  vrot7 x := rotateRight_eq (x l) 7 (by decide)
  splat _ := rfl

theorem neon_lane (l : Fin 4) : WordOps.Hom neonOps scalarOps fun x => x l where
  add _ _ := rfl
  xor _ _ := rfl
  vrot16 x := shuffleBytes_rot16 (x l)
  vrot12 x := rotateRight_eq (x l) 12 (by decide)
  vrot8 x := rotateRight_eq (x l) 8 (by decide)
  vrot7 x := rotateRight_eq (x l) 7 (by decide)
  splat _ := rfl

theorem le_foldr (bs : Bytes) :
    Bytes.le bs.length (bs.foldr (fun b n => n * 256 + b.toNat) 0) = bs := by
  induction bs with
  | nil => rfl
  | cons b bs ih =>
    have hb := b.toNat_lt
    have hhigh : (bs.foldr (fun b n => n * 256 + b.toNat) 0 * 256 + b.toNat) / 256 =
        bs.foldr (fun b n => n * 256 + b.toNat) 0 := by omega
    have hlow : (bs.foldr (fun b n => n * 256 + b.toNat) 0 * 256 + b.toNat) % 256 = b.toNat := by
      omega
    rw [List.length_cons, List.foldr_cons, Bytes.le, hhigh, hlow, ih, UInt8.ofNat_toNat]

theorem foldr_lt (bs : Bytes) :
    bs.foldr (fun b n => n * 256 + b.toNat) 0 < 256 ^ bs.length := by
  induction bs with
  | nil => simp
  | cons b bs ih =>
    have hb := b.toNat_lt
    rw [List.length_cons, List.foldr_cons, Nat.pow_succ]
    omega

theorem toBytes_wordOf {bs : Bytes} (h : bs.length = 32) : (wordOf bs).toBytes = bs := by
  have hlen : bs.reverse.length = 32 := by rw [List.length_reverse, h]
  have hlt := foldr_lt bs.reverse
  have hle := le_foldr bs.reverse
  rw [hlen, List.foldr_reverse] at hlt hle
  rw [show (256 : Nat) ^ 32 = 2 ^ 256 from rfl] at hlt
  rw [wordOf, List.take_of_length_le (Nat.le_of_eq h), Bytes32.toBytes, BitVec.toNat_ofNat,
    Nat.mod_eq_of_lt hlt, hle, List.reverse_reverse]

theorem bytesToWords_wordsToBytes (w : Fin 8 → Word) : bytesToWords (wordsToBytes w) = w := by
  have hlen : ((List.finRange 8).flatMap fun i => Bytes.le 4 (w i).toNat).length = 32 := rfl
  funext i
  unfold bytesToWords wordsToBytes
  rw [toBytes_wordOf hlen]
  have hpart : ((((List.finRange 8).flatMap fun i => Bytes.le 4 (w i).toNat).drop (4 * i)).take
      4) = Bytes.le 4 (w i).toNat := by
    fin_cases i <;> rfl
  have hword : (w i).toNat % 256 ^ 4 = (w i).toNat := Nat.mod_eq_of_lt (w i).isLt
  rw [hpart, Bytes.foldr_le, hword, BitVec.ofNat_toNat, BitVec.setWidth_eq]

variable [Primitives]

/-- BLAKE3 of thirty-two bytes is one compression of one block: its specification for an input
that is a single chunk of a single block. -/
def BlakeOneBlock : Prop :=
  ∀ x : Bytes32, blake3 x.toBytes = wordsToBytes (scalarOps.hashBlock (bytesToWords x))

theorem iterate_words (hb : BlakeOneBlock) (n : Nat) (w : Fin 8 → Word) :
    wordsToBytes (scalarOps.iterate n w) = hashTimes n (wordsToBytes w) := by
  induction n generalizing w with
  | zero => rfl
  | succ n ih =>
    have hstep : hash (wordsToBytes w).toBytes = wordsToBytes (scalarOps.hashBlock w) := by
      have h := hb (wordsToBytes w)
      rwa [bytesToWords_wordsToBytes] at h
    rw [WordOps.iterate, ih, hashTimes, hstep]

theorem iterate_seed (hb : BlakeOneBlock) (n : Nat) (seed : Bytes32) :
    wordsToBytes (scalarOps.iterate (n + 1) (bytesToWords seed)) = hashTimes (n + 1) seed := by
  have hstep : hash seed.toBytes = wordsToBytes (scalarOps.hashBlock (bytesToWords seed)) :=
    hb seed
  rw [WordOps.iterate, iterate_words hb, hashTimes, hstep]

theorem iterateSeeds_eq (hb : BlakeOneBlock) {o : WordOps (Fin n → Word)} (l : Fin n)
    (ho : WordOps.Hom o scalarOps fun x => x l) (iterations : Nat) (seeds : Fin n → Bytes32) :
    iterateSeeds o (iterations + 1) seeds l = hashTimes (iterations + 1) (seeds l) := by
  have hlane := ho.iterate (iterations + 1) fun i l => bytesToWords (seeds l) i
  have hseed : (fun x : Fin n → Word => x l) ∘ (fun i l => bytesToWords (seeds l) i) =
      bytesToWords (seeds l) := rfl
  rw [hseed] at hlane
  rw [← iterate_seed hb, ← hlane]
  rfl

theorem batchLanes_eq (hb : BlakeOneBlock) {o : WordOps (Fin n → Word)} (hn : 0 < n)
    (ho : ∀ l : Fin n, WordOps.Hom o scalarOps fun x => x l) (seeds : List Bytes32)
    (hfuel : seeds.length ≤ fuel) : batchLanes o fuel seeds = seeds.map iterateScalar := by
  induction fuel generalizing seeds with
  | zero => rfl
  | succ fuel ih =>
    rw [batchLanes]
    split
    next hmany =>
      have hgroup : List.ofFn (iterateSeeds o extensionIterations fun l => seeds.getD l 0) =
          (seeds.take n).map iterateScalar := by
        apply List.ext_getElem
        · simp [hmany]
        · intro i hi hi'
          have hin : i < n := by simpa using hi
          have hget : seeds.getD i 0 = seeds[i] := by
            rw [List.getD_eq_getElem?_getD, List.getElem?_eq_getElem, Option.getD_some]
          rw [List.getElem_ofFn, List.getElem_map, List.getElem_take, iterateScalar, ← hget]
          exact iterateSeeds_eq hb ⟨i, hin⟩ (ho _) (extensionIterations - 1) _
      rw [hgroup, ih _ (by rw [List.length_drop]; omega), ← List.map_append,
        List.take_append_drop]
    · rfl

theorem verifyPowBatch_eq (hb : BlakeOneBlock) (level : SimdLevel) (seeds : List Bytes32) :
    verifyPowBatch level seeds = seeds.map iterateScalar := by
  cases level with
  | scalar => rfl
  | wasm128_4 => rfl
  | neon4 => exact batchLanes_eq hb (by decide) neon_lane seeds (Nat.le_refl _)
  | neon8 => exact batchLanes_eq hb (by decide) neon_lane seeds (Nat.le_refl _)
  | avx2_8 => exact batchLanes_eq hb (by decide) avx2_lane seeds (Nat.le_refl _)

end Midwimble
