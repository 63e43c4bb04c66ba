import Midwimble.Core.Template
import Midwimble.Lib.Apportionment
import Midwimble.Pool.Payout

namespace Midwimble
open Apportionment Fallible
set_option autoImplicit true

/-- The loop of `split_by_weight` on machine integers: floors, remainders and what the floors
pay; `none` where a product or a sum overflows. -/
def splitFloors (total sum : Nat) (paid : Nat) :
    List (κ × Nat) → Option (List (κ × Nat) × List Nat × Nat)
  | [] => some ([], [], paid)
  | (address, weight) :: rest => do
    let numerator ← fitU128 (total * weight)
    let whole := numerator / sum % 2 ^ 64
    let paid ← checkedAdd64 paid whole
    let (out, remainders, paid) ← splitFloors total sum paid rest
    some ((address, whole) :: out, numerator % sum :: remainders, paid)

/-- `split_by_weight` on machine integers: `none` where an operation overflows or underflows. -/
def splitByWeightChecked (total : Nat) (weights : List (κ × Nat)) :
    Option (Result (List (κ × Nat))) := do
  let sum ← sumU128 (weights.map Prod.snd)
  if sum = 0 then some (.error "payout weights sum to zero")
  else do
    let (out, remainders, paid) ← splitFloors total sum 0 weights
    let left ← subU128 total paid
    let order := (List.range weights.length).insertionSort fun a b =>
      remainders.getD b 0 < remainders.getD a 0 ∨
        (remainders.getD b 0 = remainders.getD a 0 ∧ a ≤ b)
    let lucky := order.take left
    let out ← out.zipIdx.mapM fun p =>
      if p.2 ∈ lucky then (checkedAdd64 p.1.2 1).map fun value => (p.1.1, value) else some p.1
    some (.ok (out.filter fun p => p.2 > 0))

section

variable {κ : Type} {weights : List (κ × Nat)}

/-- The places `split_by_weight` gives a unit more. -/
def luckyOf (total : Nat) (weights : List (κ × Nat)) : List Nat :=
  largest (leftover total (weights.map Prod.snd)) (remainders total (weights.map Prod.snd))

theorem remaindersOf_eq : weights.map (fun p => total * p.2 % (weights.map Prod.snd).sum) =
    remainders total (weights.map Prod.snd) := by
  rw [remainders, List.map_map]
  rfl

theorem paidOf_eq (total : Nat) (weights : List (κ × Nat)) :
    ((weights.map fun p => (p.1, total * p.2 / (weights.map Prod.snd).sum)).map Prod.snd).sum =
      ((weights.map Prod.snd).map (total * · / (weights.map Prod.snd).sum)).sum := by
  rw [List.map_map, List.map_map]
  rfl

theorem orderOf_eq : (List.range weights.length).insertionSort
    (Before (remainders total (weights.map Prod.snd))) =
      ranked (remainders total (weights.map Prod.snd)) := by
  rw [ranked, remainders, List.length_map, List.length_map]

theorem getElem?_sharesOf {i : Nat} :
    (shares total (weights.map Prod.snd))[i]? = weights[i]?.map fun p =>
      total * p.2 / (weights.map Prod.snd).sum + if i ∈ luckyOf total weights then 1 else 0 := by
  rw [getElem?_shares, List.getElem?_map, Option.map_map]
  rfl

theorem bumped_eq :
    ((weights.map fun p => (p.1, total * p.2 / (weights.map Prod.snd).sum)).zipIdx.map fun p =>
      if p.2 ∈ luckyOf total weights then (p.1.1, p.1.2 + 1) else p.1) =
        (weights.map Prod.fst).zip (shares total (weights.map Prod.snd)) := by
  apply List.ext_getElem?
  intro i
  rw [List.getElem?_map, List.getElem?_zipIdx, List.getElem?_map, List.zip,
    List.getElem?_zipWith', List.getElem?_map, getElem?_sharesOf, Nat.zero_add]
  cases weights[i]? with
  | none => rfl
  | some p =>
    by_cases hi : i ∈ luckyOf total weights <;> simp [hi]

theorem splitByWeight_eq (h : 0 < (weights.map Prod.snd).sum) :
    splitByWeight total weights = .ok (((weights.map Prod.fst).zip
      (shares total (weights.map Prod.snd))).filter fun p => p.2 > 0) := by
  have hsum : ¬ (weights.map Prod.snd).sum = 0 := by omega
  rw [splitByWeight, bailIf, if_neg (by simpa using hsum), bind_ok, ← bumped_eq]
  simp only [remaindersOf_eq, paidOf_eq, luckyOf, largest, ← orderOf_eq]
  rfl

theorem splitFloors_eq (sum paid : Nat) (weights : List (κ × Nat)) (htotal : total < 2 ^ 64)
    (hweights : ∀ p ∈ weights, p.2 < 2 ^ 64)
    (hpaid : paid + (weights.map fun p => total * p.2 / sum).sum ≤ total) :
    splitFloors total sum paid weights =
      some (weights.map (fun p => (p.1, total * p.2 / sum)),
        weights.map (fun p => total * p.2 % sum),
        paid + (weights.map fun p => total * p.2 / sum).sum) := by
  induction weights generalizing paid with
  | nil => rfl
  | cons p weights ih =>
    obtain ⟨address, weight⟩ := p
    rw [List.map_cons, List.sum_cons] at hpaid
    dsimp only at hpaid
    have hweight : weight < 2 ^ 64 := hweights (address, weight) List.mem_cons_self
    have hproduct := Nat.mul_lt_mul'' htotal hweight
    rw [← Nat.pow_add] at hproduct
    have hwhole : total * weight / sum % 2 ^ 64 = total * weight / sum :=
      Nat.mod_eq_of_lt (by omega)
    have hadd : checkedAdd64 paid (total * weight / sum) = some (paid + total * weight / sum) :=
      if_pos (by unfold u64Max; omega)
    rw [splitFloors, fitU128, if_pos hproduct]
    simp only [Option.bind_eq_bind, Option.bind_some, hwhole, hadd]
    rw [ih _ (fun q hq => hweights q (List.mem_cons_of_mem _ hq)) (by omega)]
    simp only [Option.bind_some, List.map_cons, List.sum_cons, Nat.add_assoc]

theorem sum_floors_le (h : 0 < (weights.map Prod.snd).sum) :
    (weights.map fun p => total * p.2 / (weights.map Prod.snd).sum).sum ≤ total := by
  have hle := sum_whole_le total h
  rw [List.map_map] at hle
  exact hle

theorem bump_le (h : 0 < (weights.map Prod.snd).sum) {p : (κ × Nat) × Nat}
    (hp : p ∈ (weights.map fun p => (p.1, total * p.2 / (weights.map Prod.snd).sum)).zipIdx)
    (hlucky : p.2 ∈ luckyOf total weights) : p.1.2 + 1 ≤ total := by
  have hmem := List.mem_map_of_mem (f := fun p : (κ × Nat) × Nat =>
    if p.2 ∈ luckyOf total weights then (p.1.1, p.1.2 + 1) else p.1) hp
  rw [bumped_eq, if_pos hlucky] at hmem
  have hle := List.single_le_sum (fun x _ => Nat.zero_le x) _ (List.of_mem_zip hmem).2
  rw [sum_shares h] at hle
  exact hle

theorem sum_filter_pos {l : List (κ × Nat)} :
    ((l.filter fun p => p.2 > 0).map Prod.snd).sum = (l.map Prod.snd).sum := by
  induction l with
  | nil => rfl
  | cons p l ih =>
    rw [List.map_cons, List.sum_cons, ← ih, List.filter_cons]
    by_cases hp : p.2 > 0
    · rw [if_pos (decide_eq_true hp), List.map_cons, List.sum_cons]
    · rw [if_neg (by simpa using hp)]
      omega

theorem add_div_ceil {n d : Nat} (hd : 0 < d) (hrem : 0 < n % d) :
    (n + (d - 1)) / d = n / d + 1 := by
  have hmod := Nat.div_add_mod n d
  have hlt := Nat.mod_lt n hd
  have hsplit : n + (d - 1) = n % d - 1 + d * (n / d + 1) := by
    rw [Nat.mul_succ]
    omega
  rw [hsplit, Nat.add_mul_div_left _ _ hd, Nat.div_eq_of_lt (by omega), Nat.zero_add]

theorem mapM_eq_some {α β : Type} {f : α → Option β} {g : α → β} {l : List α}
    (h : ∀ x ∈ l, f x = some (g x)) : l.mapM f = some (l.map g) := by
  induction l with
  | nil => rfl
  | cons x l ih =>
    rw [List.mapM_cons, h x List.mem_cons_self,
      ih fun y hy => h y (List.mem_cons_of_mem _ hy)]
    rfl

/-- No operation of `split_by_weight` overflows on a list of 64-bit weights. -/
theorem splitByWeightChecked_eq (h : 0 < (weights.map Prod.snd).sum) (htotal : total < 2 ^ 64)
    (hweights : ∀ p ∈ weights, p.2 < 2 ^ 64) (hlength : weights.length < 2 ^ 64) :
    splitByWeightChecked total weights = some (splitByWeight total weights) := by
  have hsum : (weights.map Prod.snd).sum < 2 ^ 128 := by
    have hle := List.sum_le_card_nsmul (weights.map Prod.snd) (2 ^ 64) fun w hw => by
      obtain ⟨p, hp, rfl⟩ := List.mem_map.mp hw
      exact (hweights p hp).le
    rw [List.length_map, smul_eq_mul] at hle
    have hlt := Nat.mul_lt_mul_of_pos_right hlength (show 0 < 2 ^ 64 by decide)
    omega
  have hfloors : (weights.map fun p => total * p.2 / (weights.map Prod.snd).sum).sum ≤ total :=
    sum_floors_le h
  have hloop := splitFloors_eq (weights.map Prod.snd).sum 0 weights
    htotal hweights (by rw [Nat.zero_add]; exact hfloors)
  have hbump := mapM_eq_some (f := fun p : (κ × Nat) × Nat =>
      if p.2 ∈ luckyOf total weights then
        (checkedAdd64 p.1.2 1).map fun value => (p.1.1, value) else some p.1)
    (g := fun p => if p.2 ∈ luckyOf total weights then (p.1.1, p.1.2 + 1) else p.1)
    (l := (weights.map fun p => (p.1, total * p.2 / (weights.map Prod.snd).sum)).zipIdx)
    (fun p hp => by
      by_cases hlucky : p.2 ∈ luckyOf total weights
      · have hle := bump_le h hp hlucky
        rw [if_pos hlucky, if_pos hlucky, checkedAdd64, if_pos (by unfold u64Max; omega)]
        rfl
      · rw [if_neg hlucky, if_neg hlucky])
  rw [splitByWeightChecked, sumU128_eq hsum]
  simp only [Option.bind_eq_bind, Option.bind_some]
  rw [if_neg (by omega), hloop]
  have hpaid := paidOf_eq total weights
  rw [List.map_map] at hpaid
  have hleft : total - (weights.map fun p => total * p.2 / (weights.map Prod.snd).sum).sum =
      leftover total (weights.map Prod.snd) := congrArg (total - ·) hpaid
  simp only [Option.bind_some, Nat.zero_add, subU128, if_pos hfloors, remaindersOf_eq, hleft]
  have hlucky : List.take (leftover total (weights.map Prod.snd))
      ((List.range weights.length).insertionSort fun a b =>
        (remainders total (weights.map Prod.snd)).getD b 0 <
            (remainders total (weights.map Prod.snd)).getD a 0 ∨
          (remainders total (weights.map Prod.snd)).getD b 0 =
              (remainders total (weights.map Prod.snd)).getD a 0 ∧ a ≤ b) =
        luckyOf total weights := by
    rw [luckyOf, largest, ← orderOf_eq]
    rfl
  rw [hlucky, hbump, bumped_eq, splitByWeight_eq h]
  rfl

/-- `split_by_weight` is exact largest-remainder apportionment, whatever the weights. -/
theorem split_by_weight_exact {κ : Type} (total : Nat) (weights : List (κ × Nat))
    (hpos : 0 < (weights.map Prod.snd).sum) (htotal : total < 2 ^ 64)
    (hweights : ∀ p ∈ weights, p.2 < 2 ^ 64) (hlength : weights.length < 2 ^ 64) :
    ∃ (amounts : List Nat) (split : List (κ × Nat)),
      splitByWeightChecked total weights = some (.ok split) ∧
      splitByWeight total weights = .ok split ∧
      (split.map Prod.snd).sum = total ∧
      amounts.length = weights.length ∧
      split = ((weights.map Prod.fst).zip amounts).filter (fun p => 0 < p.2) ∧
      (∀ (i : Nat) (p : κ × Nat) (a : Nat), weights[i]? = some p → amounts[i]? = some a →
        (a = total * p.2 / (weights.map Prod.snd).sum ∨
          a = (total * p.2 + ((weights.map Prod.snd).sum - 1)) / (weights.map Prod.snd).sum) ∧
        (p.2 = 0 → a = 0)) ∧
      (∀ (i j : Nat) (p q : κ × Nat) (a b : Nat), weights[i]? = some p → weights[j]? = some q →
        amounts[i]? = some a → amounts[j]? = some b → p.2 < q.2 → a ≤ b) ∧
      -- the units over go to the largest remainders, on ties in input order
      ∀ (i j : Nat) (p q : κ × Nat), weights[i]? = some p → weights[j]? = some q →
        amounts[i]? = some (total * p.2 / (weights.map Prod.snd).sum) →
        amounts[j]? = some (total * q.2 / (weights.map Prod.snd).sum + 1) →
        total * p.2 % (weights.map Prod.snd).sum < total * q.2 % (weights.map Prod.snd).sum ∨
          total * p.2 % (weights.map Prod.snd).sum = total * q.2 % (weights.map Prod.snd).sum ∧
            j < i := by
  have hchecked := splitByWeightChecked_eq hpos htotal hweights hlength
  rw [splitByWeight_eq hpos] at hchecked
  have hlen : (shares total (weights.map Prod.snd)).length = weights.length := by
    rw [length_shares, List.length_map]
  have hweight : ∀ (i : Nat) (p : κ × Nat), weights[i]? = some p →
      (weights.map Prod.snd)[i]? = some p.2 := by
    intro i p hp
    rw [List.getElem?_map, hp]
    rfl
  refine ⟨shares total (weights.map Prod.snd), _, hchecked, splitByWeight_eq hpos, ?_, hlen, rfl,
    ?_, ?_, ?_⟩
  · rw [sum_filter_pos, List.map_snd_zip (by rw [hlen, List.length_map]), sum_shares hpos]
  · intro i p a hp ha
    rcases share_eq hpos (hweight i p hp) ha with he | ⟨hrem, he⟩
    · constructor
      · exact .inl he
      · intro h0
        rw [he, h0, Nat.mul_zero, Nat.zero_div]
    · constructor
      · right
        rw [he, add_div_ceil hpos hrem]
      · intro h0
        rw [h0, Nat.mul_zero, Nat.zero_mod] at hrem
        exact absurd hrem (Nat.lt_irrefl 0)
  · intro i j p q a b hp hq ha hb hlt
    exact share_mono hpos (hweight i p hp) (hweight j q hq) ha hb hlt
  · intro i j p q hp hq ha hb
    exact share_rank (hweight i p hp) (hweight j q hq) ha hb

theorem split_by_weight_exact_thirds :
    ∃ split : List (Char × Nat),
      splitByWeightChecked 10 [('a', 1), ('b', 1), ('c', 1)] = some (.ok split) ∧
      splitByWeight 10 [('a', 1), ('b', 1), ('c', 1)] = .ok split ∧
      (split.map Prod.snd).sum = 10 := by
  obtain ⟨_, split, hchecked, hsplit, hsum, -⟩ := split_by_weight_exact 10
    [('a', 1), ('b', 1), ('c', 1)] (by decide) (by decide) (by decide) (by decide)
  exact ⟨split, hchecked, hsplit, hsum⟩

end

end Midwimble
