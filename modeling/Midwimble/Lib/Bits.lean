import Mathlib.Data.List.Basic
import Mathlib.Tactic.Ring

namespace Bits
set_option autoImplicit true

/-- The bits of a byte, the highest first. -/
def ofByte (b : UInt8) : List Bool := (List.range 8).map fun i => b.toNat.testBit (7 - i)

/-- The bits of a string of bytes. -/
def ofBytes (bs : List UInt8) : List Bool := bs.flatMap ofByte

@[simp] theorem length_ofByte (b : UInt8) : (ofByte b).length = 8 := by simp [ofByte]

@[simp] theorem ofBytes_nil : ofBytes [] = [] := rfl

theorem ofBytes_append (bs cs : List UInt8) : ofBytes (bs ++ cs) = ofBytes bs ++ ofBytes cs :=
  List.flatMap_append

theorem length_ofBytes (bs : List UInt8) : (ofBytes bs).length = 8 * bs.length := by
  induction bs with
  | nil => rfl
  | cons b bs ih =>
    rw [ofBytes, List.flatMap_cons, List.length_append, length_ofByte, List.length_cons]
    rw [ofBytes] at ih
    omega

theorem drop_ofBytes (k : Nat) (bs : List UInt8) :
    (ofBytes bs).drop (8 * k) = ofBytes (bs.drop k) := by
  induction k generalizing bs with
  | zero => rfl
  | succ k ih =>
    cases bs with
    | nil => simp
    | cons b bs =>
      have hlen : 8 * (k + 1) = (ofByte b).length + 8 * k := by
        rw [length_ofByte]
        omega
      rw [ofBytes, List.flatMap_cons, hlen, List.drop_append, List.drop_succ_cons]
      have hdrop : (ofByte b).drop ((ofByte b).length + 8 * k) = [] := by simp
      rw [hdrop, List.nil_append, Nat.add_sub_cancel_left]
      exact ih bs

theorem ofByte_drop {b : UInt8} (hi : i < 8) :
    (ofByte b).drop i = b.toNat.testBit (7 - i) :: (ofByte b).drop (i + 1) := by
  have hlen : i < (ofByte b).length := by rwa [length_ofByte]
  rw [List.drop_eq_getElem_cons hlen]
  congr 1
  simp [ofByte]

/-- A number's lowest bits, the highest of them first. -/
def low (count value : Nat) : List Bool := (List.range count).reverse.map value.testBit

theorem low_succ (count value : Nat) :
    low (count + 1) value = value.testBit count :: low count value := by
  simp [low, List.range_succ]

@[simp] theorem length_low (count value : Nat) : (low count value).length = count := by
  simp [low]

/-- The number a list of bits spells after `start`. -/
def value (start : Nat) (bits : List Bool) : Nat :=
  bits.foldl (fun v b => 2 * v + b.toNat) start

theorem value_low (start count n : Nat) :
    value start (low count n) = start * 2 ^ count + n % 2 ^ count := by
  induction count generalizing start with
  | zero => simp [low, value, Nat.mod_one]
  | succ count ih =>
    have hbit : n % 2 ^ (count + 1) = n % 2 ^ count + 2 ^ count * (n.testBit count).toNat := by
      rw [Nat.mod_pow_succ, Nat.toNat_testBit]
    have hcons : value start (n.testBit count :: low count n) =
        value (2 * start + (n.testBit count).toNat) (low count n) := rfl
    rw [low_succ, hcons, ih, hbit, Nat.pow_succ]
    ring

end Bits
