import Mathlib.Data.List.Basic
import Mathlib.Tactic.Ring
import Mathlib.Algebra.Order.Ring.Nat
import Mathlib.Tactic.Linarith

/-- Byte strings and the fixed-width and length-prefixed encodings hashed preimages use. -/
abbrev Bytes := List UInt8

namespace Bytes
set_option autoImplicit true

/-- The `width` low bytes of `n`, least significant first. -/
def le : (width n : Nat) → Bytes
  | 0, _ => []
  | width + 1, n => UInt8.ofNat (n % 256) :: le width (n / 256)

/-- The bytes of an ASCII literal. -/
def ascii (s : String) : Bytes := s.toList.map fun c => UInt8.ofNat c.toNat

/-- A byte string preceded by its length, as a 64-bit little-endian integer. -/
def prefixed (bs : Bytes) : Bytes := le 8 bs.length ++ bs

/-- Every part, each with its length before it. -/
def prefixedAll (parts : List Bytes) : Bytes := parts.flatMap prefixed

@[simp] theorem length_le : (le width n).length = width := by
  induction width generalizing n with
  | zero => rfl
  | succ width ih => simp [le, ih]

theorem le_inj (hm : m < 256 ^ width) (hn : n < 256 ^ width) (h : le width m = le width n) :
    m = n := by
  induction width generalizing m n with
  | zero => simp at hm hn; omega
  | succ width ih =>
    simp only [le, List.cons.injEq] at h
    have hq : m / 256 = n / 256 := by
      apply ih _ _ h.2
      · rw [Nat.div_lt_iff_lt_mul (by omega)]; rw [Nat.pow_succ] at hm; exact hm
      · rw [Nat.div_lt_iff_lt_mul (by omega)]; rw [Nat.pow_succ] at hn; exact hn
    have hr : m % 256 = n % 256 := by
      have he := congrArg UInt8.toNat h.1
      simp only [UInt8.toNat_ofNat'] at he
      omega
    rw [← Nat.div_add_mod m 256, ← Nat.div_add_mod n 256, hq, hr]

theorem foldr_le : (le width n).foldr (fun b m => m * 256 + b.toNat) 0 = n % 256 ^ width := by
  induction width generalizing n with
  | zero => simp [le, Nat.mod_one]
  | succ width ih =>
    have hp : 256 ^ (width + 1) = 256 * 256 ^ width := Nat.pow_succ'
    have hb : (UInt8.ofNat (n % 256)).toNat = n % 256 := by
      rw [UInt8.toNat_ofNat']
      omega
    rw [le, List.foldr_cons, ih, hb, hp, Nat.mod_mul]
    omega

theorem prefixed_append_inj (ha : a.length < 2 ^ 64) (hb : b.length < 2 ^ 64)
    (h : prefixed a ++ r = prefixed b ++ s) : a = b ∧ r = s := by
  simp only [prefixed, List.append_assoc] at h
  obtain ⟨hl, hs⟩ := List.append_inj h (by simp)
  have hab : a.length = b.length := le_inj (by norm_num; exact ha) (by norm_num; exact hb) hl
  exact List.append_inj hs hab

theorem prefixed_ne_nil (a : Bytes) : prefixed a ≠ [] := by
  intro h
  have hl := congrArg List.length h
  simp [prefixed] at hl

theorem prefixedAll_inj {ps qs : List Bytes} (hp : ∀ p ∈ ps, p.length < 2 ^ 64)
    (hq : ∀ q ∈ qs, q.length < 2 ^ 64) (h : prefixedAll ps = prefixedAll qs) : ps = qs := by
  induction ps generalizing qs with
  | nil =>
    cases qs with
    | nil => rfl
    | cons q qs =>
      rw [prefixedAll, prefixedAll, List.flatMap_nil, List.flatMap_cons] at h
      exact absurd (List.append_eq_nil_iff.mp h.symm).1 (prefixed_ne_nil q)
  | cons p ps ih =>
    cases qs with
    | nil =>
      rw [prefixedAll, prefixedAll, List.flatMap_nil, List.flatMap_cons] at h
      exact absurd (List.append_eq_nil_iff.mp h).1 (prefixed_ne_nil p)
    | cons q qs =>
      rw [prefixedAll, prefixedAll, List.flatMap_cons, List.flatMap_cons] at h
      obtain ⟨hpq, hr⟩ := prefixed_append_inj (hp p List.mem_cons_self)
        (hq q List.mem_cons_self) h
      rw [hpq, ih (fun x hx => hp x (List.mem_cons_of_mem _ hx))
        (fun x hx => hq x (List.mem_cons_of_mem _ hx)) hr]

end Bytes
