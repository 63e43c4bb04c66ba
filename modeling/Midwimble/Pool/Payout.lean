import Mathlib.Algebra.BigOperators.Ring.Finset
import Midwimble.Core.Payout
import Midwimble.Lib.Sampling

namespace Midwimble
open Sampling
set_option autoImplicit true

/-- What a list of payments gives to some of the owners. -/
def amountOf (mine : OwnerId → Bool) (payments : List (OwnerId × Nat)) : Nat :=
  ((payments.filter fun p => mine p.1).map Prod.snd).sum

/-- The total weight of a list of owners. -/
def weightOf (owners : List (OwnerId × Nat)) : Nat := (owners.map Prod.snd).sum

/-- The owners paid what they are entitled to. -/
def entitledOwners (owners : List (OwnerId × Nat)) : List (OwnerId × Nat) :=
  owners.filter fun o => weightOf owners ≤ o.2 * maxPaidMiners

/-- The owners that slots are drawn for. -/
def smallOwners (owners : List (OwnerId × Nat)) : List (OwnerId × Nat) :=
  owners.filter fun o => ¬ weightOf owners ≤ o.2 * maxPaidMiners ∧ 0 < o.2

/-- The slots of each of the smaller owners. -/
def slotsGiven (slots smallWeight offset : Nat) :
    (before : Nat) → List (OwnerId × Nat) → List (OwnerId × Nat)
  | _, [] => []
  | before, (key, w) :: small =>
    (key, (slotsOf slots smallWeight offset before w).getD 0) ::
      slotsGiven slots smallWeight offset (before + w) small

/-- The slots left to draw. -/
def slotsLeft (owners : List (OwnerId × Nat)) : Nat :=
  maxPaidMiners - (entitledOwners owners).length

/-- The slots an offset draws. -/
def drawnSlots (owners : List (OwnerId × Nat)) (offset : Nat) : List (OwnerId × Nat) :=
  slotsGiven (slotsLeft owners) (weightOf (smallOwners owners))
    (offset % weightOf (smallOwners owners)) 0 (smallOwners owners)

section Amounts

variable {mine : OwnerId → Bool} {l l' : List (OwnerId × Nat)} {key : OwnerId} {w : Nat}

theorem weightOf_cons : weightOf ((key, w) :: l) = w + weightOf l := by
  rw [weightOf, List.map_cons, List.sum_cons]
  rfl

theorem weightOf_append : weightOf (l ++ l') = weightOf l + weightOf l' := by
  rw [weightOf, List.map_append, List.sum_append]
  rfl

@[simp] theorem amountOf_nil : amountOf mine [] = 0 := rfl

theorem amountOf_cons :
    amountOf mine ((key, w) :: l) = (if mine key then w else 0) + amountOf mine l := by
  rw [amountOf, List.filter_cons]
  split
  · rfl
  · rw [Nat.zero_add]
    rfl

theorem amountOf_append : amountOf mine (l ++ l') = amountOf mine l + amountOf mine l' := by
  rw [amountOf, List.filter_append, List.map_append, List.sum_append]
  rfl

theorem amountOf_perm (h : l.Perm l') : amountOf mine l = amountOf mine l' :=
  ((h.filter _).map _).sum_nat

theorem amountOf_all : amountOf (fun _ => true) l = weightOf l := by
  rw [amountOf, List.filter_true]
  rfl

theorem amountOf_eq_zero (h : ∀ p ∈ l, mine p.1 = false) : amountOf mine l = 0 := by
  rw [amountOf, List.filter_eq_nil_iff.mpr fun p hp => by simp [h p hp]]
  rfl

theorem amountOf_single (hl : (l.map Prod.fst).Nodup) (h : (key, w) ∈ l) :
    amountOf (fun id => id = key) l = w := by
  induction l with
  | nil => cases h
  | cons p l ih =>
    obtain ⟨id, n⟩ := p
    obtain ⟨hnot, hl⟩ := List.nodup_cons.mp hl
    rw [amountOf_cons]
    rcases List.mem_cons.mp h with heq | h
    · obtain ⟨rfl, rfl⟩ := Prod.mk.inj heq
      have hrest : amountOf (fun id => id = key) l = 0 := by
        apply amountOf_eq_zero
        intro p hp
        exact decide_eq_false fun hid => hnot (List.mem_map.mpr ⟨p, hp, hid⟩)
      simp [hrest]
    · have hne : id ≠ key := by
        rintro rfl
        exact hnot (List.mem_map.mpr ⟨_, h, rfl⟩)
      rw [ih hl h]
      simp [hne]

theorem amountOf_filter_pos : amountOf mine (l.filter fun p => 0 < p.2) = amountOf mine l := by
  induction l with
  | nil => rfl
  | cons p l ih =>
    obtain ⟨id, n⟩ := p
    rw [amountOf_cons, List.filter_cons]
    split
    · rw [amountOf_cons, ih]
    · rw [ih]
      have h0 : n = 0 := by simp_all
      simp [h0]

theorem amountOf_mul (v : Nat) :
    amountOf mine (l.map fun p => (p.1, p.2 * v)) = amountOf mine l * v := by
  induction l with
  | nil => simp
  | cons p l ih =>
    obtain ⟨id, n⟩ := p
    rw [List.map_cons, amountOf_cons, amountOf_cons, ih, Nat.add_mul]
    split
    · rfl
    · rw [Nat.zero_mul]

theorem length_filter_mul_le (v : Nat) :
    ((l.map fun p => (p.1, p.2 * v)).filter fun p => 0 < p.2).length ≤ weightOf l := by
  induction l with
  | nil => exact Nat.le_refl _
  | cons p l ih =>
    obtain ⟨id, n⟩ := p
    rw [List.map_cons, List.filter_cons, weightOf_cons]
    split
    case isTrue hpos =>
      have hpos : 0 < n * v := of_decide_eq_true hpos
      have hn : 0 < n := Nat.pos_of_mul_pos_right hpos
      rw [List.length_cons]
      omega
    case isFalse => omega

end Amounts

section Slots

variable {slots smallWeight offset before slotValue : Nat} {small : List (OwnerId × Nat)}
  {mine : OwnerId → Bool} {key : OwnerId} {w : Nat}

theorem divCeil_eq {a b : Nat} (hb : 0 < b) : divCeil a b = (a + (b - 1)) / b := by
  have hab := Nat.div_add_mod a b
  have hlt := Nat.mod_lt a hb
  rw [divCeil]
  split
  case isTrue hrem =>
    have hform : a + (b - 1) = a % b - 1 + b * (a / b + 1) := by
      rw [Nat.mul_succ]
      omega
    have hzero : (a % b - 1) / b = 0 := Nat.div_eq_of_lt (by omega)
    rw [hform, Nat.add_mul_div_left _ _ hb, hzero, Nat.zero_add]
  case isFalse hrem =>
    have hform : a + (b - 1) = b - 1 + b * (a / b) := by omega
    have hzero : (b - 1) / b = 0 := Nat.div_eq_of_lt (by omega)
    rw [hform, Nat.add_mul_div_left _ _ hb, hzero, Nat.zero_add]

theorem firstSlotAt_eq {x : Nat} (ho : offset < smallWeight) (hx : x ≤ slots * smallWeight) :
    firstSlotAt slots smallWeight offset x = pointsBefore smallWeight offset x := by
  have hp : 0 < smallWeight := by omega
  rw [firstSlotAt]
  split
  case isTrue hle => exact (pointsBefore_of_le hle ho).symm
  case isFalse hgt =>
    have hall : pointsBefore smallWeight offset x ≤ slots := by
      have h := pointsBefore_mono smallWeight offset hx
      rwa [pointsBefore_mul hp] at h
    rw [pointsBefore_of_lt (Nat.lt_of_not_le hgt) ho] at hall ⊢
    rw [divCeil_eq hp, Nat.min_eq_left hall]

theorem slotsOf_eq (ho : offset < smallWeight) (hw : before + w ≤ smallWeight)
    (hslots : slots ≤ maxPaidMiners) (hsmall : smallWeight < 2 ^ 64) :
    slotsOf slots smallWeight offset before w =
      some (pointsIn smallWeight offset (slots * before) (slots * (before + w))) := by
  have hstart : slots * before ≤ slots * (before + w) := Nat.mul_le_mul_left _ (by omega)
  have hstop : slots * (before + w) ≤ slots * smallWeight := Nat.mul_le_mul_left _ hw
  have hline : slots * smallWeight ≤ 31 * 2 ^ 64 := Nat.mul_le_mul hslots (by omega)
  have hmono := pointsBefore_mono smallWeight offset hstart
  rw [slotsOf, fitU128, if_pos (by omega), fitU128, if_pos (by omega)]
  dsimp only [Option.bind_eq_bind, Option.bind_some]
  rw [firstSlotAt_eq ho hstop, firstSlotAt_eq ho (by omega), subU128, if_pos hmono]
  rfl

theorem slotsGiven_cons (ho : offset < smallWeight) (hw : before + w ≤ smallWeight)
    (hslots : slots ≤ maxPaidMiners) (hsmall : smallWeight < 2 ^ 64) :
    slotsGiven slots smallWeight offset before ((key, w) :: small) =
      (key, pointsIn smallWeight offset (slots * before) (slots * (before + w))) ::
        slotsGiven slots smallWeight offset (before + w) small := by
  rw [slotsGiven, slotsOf_eq ho hw hslots hsmall]
  rfl

theorem map_fst_slotsGiven :
    (slotsGiven slots smallWeight offset before small).map Prod.fst = small.map Prod.fst := by
  induction small generalizing before with
  | nil => rfl
  | cons p small ih =>
    obtain ⟨id, n⟩ := p
    rw [slotsGiven, List.map_cons, List.map_cons, ih]

theorem weightOf_slotsGiven (ho : offset < smallWeight)
    (hw : before + weightOf small ≤ smallWeight) (hslots : slots ≤ maxPaidMiners)
    (hsmall : smallWeight < 2 ^ 64) :
    weightOf (slotsGiven slots smallWeight offset before small) =
      pointsIn smallWeight offset (slots * before) (slots * (before + weightOf small)) := by
  induction small generalizing before with
  | nil =>
    rw [pointsIn]
    exact (Nat.sub_self _).symm
  | cons p small ih =>
    obtain ⟨id, n⟩ := p
    rw [weightOf_cons] at hw ⊢
    rw [slotsGiven_cons ho (by omega) hslots hsmall, weightOf_cons, ih (by omega),
      ← Nat.add_assoc]
    apply pointsIn_add
    · exact Nat.mul_le_mul_left _ (by omega)
    · exact Nat.mul_le_mul_left _ (by omega)

theorem sum_slotsGiven (hp : 0 < smallWeight) (hw : before + weightOf small ≤ smallWeight)
    (hslots : slots ≤ maxPaidMiners) (hsmall : smallWeight < 2 ^ 64) :
    ∑ offset ∈ Finset.range smallWeight,
      amountOf mine (slotsGiven slots smallWeight offset before small) =
        slots * amountOf mine small := by
  induction small generalizing before with
  | nil => exact Finset.sum_const_zero
  | cons p small ih =>
    obtain ⟨id, n⟩ := p
    rw [weightOf_cons] at hw
    have hstep : ∀ offset ∈ Finset.range smallWeight,
        amountOf mine (slotsGiven slots smallWeight offset before ((id, n) :: small)) =
          (if mine id then
            pointsIn smallWeight offset (slots * before) (slots * (before + n)) else 0) +
          amountOf mine (slotsGiven slots smallWeight offset (before + n) small) := by
      intro offset ho
      rw [slotsGiven_cons (Finset.mem_range.mp ho) (by omega) hslots hsmall, amountOf_cons]
    rw [Finset.sum_congr rfl hstep, Finset.sum_add_distrib, ih (by omega), amountOf_cons]
    split
    · rw [sum_pointsIn hp (Nat.mul_le_mul_left _ (by omega)), ← Nat.mul_sub,
        Nat.add_sub_cancel_left, ← Nat.mul_add]
    · rw [Finset.sum_const_zero, Nat.zero_add, Nat.zero_add]

theorem amountOf_slotsGiven (ho : offset < smallWeight)
    (hw : before + weightOf small ≤ smallWeight) (hslots : slots ≤ maxPaidMiners)
    (hsmall : smallWeight < 2 ^ 64) (hdistinct : (small.map Prod.fst).Nodup)
    (h : (key, w) ∈ small) :
    amountOf (fun id => id = key) (slotsGiven slots smallWeight offset before small) =
        slots * w / smallWeight ∨
      amountOf (fun id => id = key) (slotsGiven slots smallWeight offset before small) =
        divCeil (slots * w) smallWeight := by
  obtain ⟨given, hgiven, hshare⟩ : ∃ given,
      (key, given) ∈ slotsGiven slots smallWeight offset before small ∧
        (given = slots * w / smallWeight ∨ given = divCeil (slots * w) smallWeight) := by
    induction small generalizing before with
    | nil => cases h
    | cons p small ih =>
      obtain ⟨id, n⟩ := p
      rw [weightOf_cons] at hw
      rw [slotsGiven_cons ho (by omega) hslots hsmall]
      rcases List.mem_cons.mp h with heq | h
      · obtain ⟨rfl, rfl⟩ := Prod.mk.inj heq
        refine ⟨_, List.mem_cons_self, ?_⟩
        rw [divCeil_eq (by omega), Nat.mul_add]
        exact pointsIn_eq (by omega) _ _
      · have hrest : before + n + weightOf small ≤ smallWeight := by omega
        obtain ⟨given, hgiven, hshare⟩ := ih hrest (List.nodup_cons.mp hdistinct).2 h
        exact ⟨given, List.mem_cons_of_mem _ hgiven, hshare⟩
  have hkeys : ((slotsGiven slots smallWeight offset before small).map Prod.fst).Nodup := by
    rwa [map_fst_slotsGiven]
  rw [amountOf_single hkeys hgiven]
  exact hshare

theorem paySlots_eq (ho : offset < smallWeight) (hw : before + weightOf small ≤ smallWeight)
    (hslots : slots ≤ maxPaidMiners) (hsmall : smallWeight < 2 ^ 64)
    (hvalue : slotValue ≤ 2 ^ 50) :
    paySlots slots smallWeight offset slotValue before small =
      some (((slotsGiven slots smallWeight offset before small).map
        fun g => (g.1, g.2 * slotValue)).filter fun p => 0 < p.2) := by
  induction small generalizing before with
  | nil => rfl
  | cons p small ih =>
    obtain ⟨id, n⟩ := p
    rw [weightOf_cons] at hw
    have hgiven : pointsIn smallWeight offset (slots * before) (slots * (before + n)) ≤ slots := by
      have hstop : slots * (before + n) ≤ slots * smallWeight := Nat.mul_le_mul_left _ (by omega)
      have hall := pointsBefore_mono smallWeight offset hstop
      rw [pointsBefore_mul (by omega)] at hall
      exact Nat.le_trans (Nat.sub_le _ _) hall
    have hamount : pointsIn smallWeight offset (slots * before) (slots * (before + n)) *
        slotValue ≤ 31 * 2 ^ 50 := Nat.mul_le_mul (Nat.le_trans hgiven hslots) hvalue
    rw [paySlots, fitU128, if_pos (by omega), slotsOf_eq ho (by omega) hslots hsmall,
      slotsGiven_cons ho (by omega) hslots hsmall]
    dsimp only [Option.bind_eq_bind, Option.bind_some]
    rw [fitU128, if_pos (by omega), Option.bind_some, ih (by omega), Option.bind_some,
      List.map_cons, List.filter_cons]
    simp only [gt_iff_lt, decide_eq_true_eq]

end Slots

section Entitled

variable {total weight offset : Nat} {owners l : List (OwnerId × Nat)}

/-- What an owner with a share of at least one in `maxPaidMiners` is paid. -/
def entitlement (total weight : Nat) (owner : OwnerId × Nat) : OwnerId × Nat :=
  (owner.1, total * owner.2 / weight)

theorem sumU128_eq {ws : List Nat} (h : ws.sum < 2 ^ 128) : sumU128 ws = some ws.sum := by
  have hfrom : ∀ start, start + ws.sum < 2 ^ 128 →
      ws.foldlM (fun sum w => fitU128 (sum + w)) start = some (start + ws.sum) := by
    clear h
    induction ws with
    | nil => exact fun start _ => rfl
    | cons w ws ih =>
      intro start h
      rw [List.sum_cons] at h ⊢
      rw [List.foldlM_cons, fitU128, if_pos (by omega), Option.bind_eq_bind, Option.bind_some,
        ih _ (by omega), Nat.add_assoc]
  rw [sumU128, hfrom 0 (by omega), Nat.zero_add]

theorem weightOf_entitlement_mul_le :
    weightOf (l.map (entitlement total weight)) * weight ≤ total * weightOf l := by
  induction l with
  | nil => simp [weightOf]
  | cons o l ih =>
    obtain ⟨id, n⟩ := o
    rw [List.map_cons, entitlement, weightOf_cons, weightOf_cons, Nat.add_mul, Nat.mul_add]
    exact Nat.add_le_add (Nat.div_mul_le_self _ _) ih

theorem weightOf_entitlement_le (hpos : 0 < weight) (hl : weightOf l ≤ weight) :
    weightOf (l.map (entitlement total weight)) ≤ total := by
  apply Nat.le_of_mul_le_mul_right _ hpos
  exact Nat.le_trans weightOf_entitlement_mul_le (Nat.mul_le_mul_left _ hl)

theorem weightOf_split (weight : Nat) (l : List (OwnerId × Nat)) :
    weightOf (l.filter fun o => weight ≤ o.2 * maxPaidMiners) +
      weightOf (l.filter fun o => ¬ weight ≤ o.2 * maxPaidMiners ∧ 0 < o.2) = weightOf l := by
  induction l with
  | nil => rfl
  | cons o l ih =>
    obtain ⟨id, n⟩ := o
    rw [List.filter_cons, List.filter_cons, weightOf_cons]
    by_cases hlarge : weight ≤ n * maxPaidMiners
    · simp only [hlarge, decide_true, not_true_eq_false, false_and, decide_false, if_true,
        Bool.false_eq_true, if_false, weightOf_cons]
      omega
    · by_cases hpos : 0 < n
      · simp only [hlarge, hpos, decide_true, not_false_eq_true, and_self, decide_false, if_true,
          Bool.false_eq_true, if_false, weightOf_cons]
        omega
      · simp only [hlarge, hpos, and_false, decide_false, Bool.false_eq_true, if_false]
        omega

theorem length_mul_le (h : ∀ o ∈ l, weight ≤ o.2 * maxPaidMiners) :
    l.length * weight ≤ weightOf l * maxPaidMiners := by
  induction l with
  | nil => simp
  | cons o l ih =>
    obtain ⟨id, n⟩ := o
    obtain ⟨ho, hl⟩ := List.forall_mem_cons.mp h
    rw [List.length_cons, weightOf_cons, Nat.succ_mul, Nat.add_mul, Nat.add_comm]
    exact Nat.add_le_add ho (ih hl)

theorem length_entitled_mul_le :
    (entitledOwners owners).length * weightOf owners ≤
      weightOf (entitledOwners owners) * maxPaidMiners := by
  apply length_mul_le
  intro o ho
  exact of_decide_eq_true (List.mem_filter.mp ho).2

theorem length_entitled_le (hpos : 0 < weightOf owners) :
    (entitledOwners owners).length ≤ maxPaidMiners := by
  have hsplit := weightOf_split (weightOf owners) owners
  have hle : weightOf (entitledOwners owners) ≤ weightOf owners := by
    rw [entitledOwners]
    omega
  apply Nat.le_of_mul_le_mul_right _ hpos
  calc (entitledOwners owners).length * weightOf owners
      ≤ weightOf (entitledOwners owners) * maxPaidMiners := length_entitled_mul_le
    _ ≤ weightOf owners * maxPaidMiners := Nat.mul_le_mul_right _ hle
    _ = maxPaidMiners * weightOf owners := Nat.mul_comm _ _

theorem weightOf_small_pos (h : smallOwners owners ≠ []) : 0 < weightOf (smallOwners owners) := by
  obtain ⟨o, ho⟩ := List.exists_mem_of_ne_nil _ h
  have hpos := (of_decide_eq_true (List.mem_filter.mp ho).2).2
  exact Nat.lt_of_lt_of_le hpos (List.single_le_sum (fun _ _ => Nat.zero_le _) _
    (List.mem_map_of_mem ho))

theorem slotsLeft_le : slotsLeft owners ≤ maxPaidMiners := Nat.sub_le _ _

theorem slotsLeft_pos (h : smallOwners owners ≠ []) : 0 < slotsLeft owners := by
  have hsplit := weightOf_split (weightOf owners) owners
  have hsmall := weightOf_small_pos h
  have hless : weightOf (entitledOwners owners) < weightOf owners := by
    rw [smallOwners] at hsmall
    rw [entitledOwners]
    omega
  have hlt : (entitledOwners owners).length * weightOf owners <
      maxPaidMiners * weightOf owners := by
    calc (entitledOwners owners).length * weightOf owners
        ≤ weightOf (entitledOwners owners) * maxPaidMiners := length_entitled_mul_le
      _ < weightOf owners * maxPaidMiners := Nat.mul_lt_mul_of_pos_right hless (by decide)
      _ = maxPaidMiners * weightOf owners := Nat.mul_comm _ _
  exact Nat.sub_pos_of_lt (Nat.lt_of_mul_lt_mul_right hlt)

theorem entitled_add {acc : Entitled} {id : OwnerId} {n : Nat} (htotal : total ≤ 2 ^ 50)
    (hn : n < 2 ^ 64) (hfits : weight ≤ n * maxPaidMiners →
      acc.exact + total * n / weight < 2 ^ 128) :
    Entitled.add total weight acc (id, n) =
      some (if weight ≤ n * maxPaidMiners then
          ⟨acc.paid ++ [entitlement total weight (id, n)], acc.small,
            acc.exact + total * n / weight⟩
        else if 0 < n then ⟨acc.paid, acc.small ++ [(id, n)], acc.exact⟩ else acc) := by
  have hscaled : n * maxPaidMiners ≤ 2 ^ 64 * 31 :=
    Nat.mul_le_mul (Nat.le_of_lt hn) (Nat.le_refl 31)
  have hproduct : total * n ≤ 2 ^ 50 * 2 ^ 64 := Nat.mul_le_mul htotal (Nat.le_of_lt hn)
  rw [Entitled.add]
  dsimp only
  rw [fitU128, if_pos (by omega), Option.bind_eq_bind, Option.bind_some]
  by_cases hlarge : weight ≤ n * maxPaidMiners
  · rw [if_pos hlarge, if_pos hlarge, fitU128, if_pos (by omega), Option.bind_some, fitU128,
      if_pos (hfits hlarge), Option.bind_some]
    rfl
  · rw [if_neg hlarge, if_neg hlarge]
    split <;> rfl

theorem foldlM_entitled (htotal : total ≤ 2 ^ 50) (hl : ∀ o ∈ l, o.2 < 2 ^ 64)
    (acc : Entitled)
    (hfits : acc.exact + weightOf ((l.filter fun o => weight ≤ o.2 * maxPaidMiners).map
      (entitlement total weight)) < 2 ^ 128) :
    l.foldlM (Entitled.add total weight) acc =
      some ⟨acc.paid ++ (l.filter fun o => weight ≤ o.2 * maxPaidMiners).map
          (entitlement total weight),
        acc.small ++ l.filter fun o => ¬ weight ≤ o.2 * maxPaidMiners ∧ 0 < o.2,
        acc.exact + weightOf ((l.filter fun o => weight ≤ o.2 * maxPaidMiners).map
          (entitlement total weight))⟩ := by
  induction l generalizing acc with
  | nil => simp [weightOf]
  | cons o l ih =>
    obtain ⟨id, n⟩ := o
    obtain ⟨hn, hl⟩ := List.forall_mem_cons.mp hl
    rw [List.foldlM_cons, List.filter_cons, List.filter_cons]
    rw [List.filter_cons] at hfits
    by_cases hlarge : weight ≤ n * maxPaidMiners
    · simp only [hlarge, decide_true, not_true_eq_false, false_and, decide_false, if_true,
        Bool.false_eq_true, if_false, List.map_cons, entitlement, weightOf_cons] at hfits ⊢
      have hfirst : acc.exact + total * n / weight < 2 ^ 128 := by omega
      rw [entitled_add htotal hn (fun _ => hfirst), if_pos hlarge, Option.bind_eq_bind,
        Option.bind_some, ih hl _ (by dsimp only; omega)]
      simp only [List.append_assoc, List.singleton_append, Nat.add_assoc, entitlement]
    · simp only [hlarge, decide_false, Bool.false_eq_true, if_false] at hfits
      rw [entitled_add htotal hn (fun h => absurd h hlarge), if_neg hlarge, Option.bind_eq_bind,
        Option.bind_some]
      by_cases hpos : 0 < n
      · rw [if_pos hpos, ih hl ⟨acc.paid, acc.small ++ [(id, n)], acc.exact⟩ hfits]
        simp [hlarge, hpos]
      · rw [if_neg hpos, ih hl acc hfits]
        simp [hlarge, hpos]

end Entitled

section Allocate

variable {total offset : Nat} {owners : List (OwnerId × Nat)}

/-- What the entitled owners are paid. -/
def entitledPaid (total : Nat) (owners : List (OwnerId × Nat)) : List (OwnerId × Nat) :=
  (entitledOwners owners).map (entitlement total (weightOf owners))

/-- What is left for the smaller owners, and what a slot of it is worth. -/
def restOf (total : Nat) (owners : List (OwnerId × Nat)) : Nat :=
  total - weightOf (entitledPaid total owners)

def slotValueOf (total : Nat) (owners : List (OwnerId × Nat)) : Nat :=
  restOf total owners / slotsLeft owners

/-- What the smaller owners are paid. -/
def sampledPaid (total : Nat) (owners : List (OwnerId × Nat)) (offset : Nat) :
    List (OwnerId × Nat) :=
  ((drawnSlots owners offset).map fun g => (g.1, g.2 * slotValueOf total owners)).filter
    fun p => 0 < p.2

theorem weightOf_entitledPaid_le (total : Nat) (hpos : 0 < weightOf owners) :
    weightOf (entitledPaid total owners) ≤ total := by
  have hsplit := weightOf_split (weightOf owners) owners
  apply weightOf_entitlement_le hpos
  rw [entitledOwners]
  omega

/-- Nothing overflows or underflows. -/
theorem allocate_eq (htotal : total ≤ 2 ^ 50) (hweight : weightOf owners < 2 ^ 64)
    (hpos : 0 < weightOf owners) :
    allocate total owners offset =
      some (if smallOwners owners = [] then (entitledPaid total owners, restOf total owners)
        else ((entitledPaid total owners ++ sampledPaid total owners offset).mergeSort
            fun a b => a.1 ≤ b.1,
          restOf total owners - slotsLeft owners * slotValueOf total owners)) := by
  have hle := weightOf_entitledPaid_le total hpos
  have hsplit := weightOf_split (weightOf owners) owners
  have hsmall : weightOf (smallOwners owners) < 2 ^ 64 := by
    rw [smallOwners]
    omega
  have hshared : slotsLeft owners * slotValueOf total owners ≤ restOf total owners :=
    Nat.mul_div_le _ _
  have hrest : restOf total owners ≤ total := Nat.sub_le _ _
  have hbound : ∀ o ∈ owners, o.2 < 2 ^ 64 := fun o ho =>
    Nat.lt_of_le_of_lt (List.single_le_sum (fun _ _ => Nat.zero_le _) _ (List.mem_map_of_mem ho))
      hweight
  have hfits : 0 + weightOf (entitledPaid total owners) < 2 ^ 128 := by omega
  have hfold : owners.foldlM (Entitled.add total (weightOf owners)) ⟨[], [], 0⟩ =
      some ⟨entitledPaid total owners, smallOwners owners,
        weightOf (entitledPaid total owners)⟩ := by
    rw [foldlM_entitled htotal hbound ⟨[], [], 0⟩ hfits, List.nil_append, List.nil_append,
      Nat.zero_add]
    rfl
  have hlength : (entitledPaid total owners).length = (entitledOwners owners).length :=
    List.length_map _
  have hcount := length_entitled_le hpos
  rw [allocate, sumU128_eq (by rw [← weightOf]; omega), Option.bind_eq_bind, Option.bind_some,
    ← weightOf, if_neg (by omega), hfold, Option.bind_eq_bind, Option.bind_some]
  dsimp only
  rw [subU128, if_pos hle, Option.bind_some, ← restOf]
  by_cases hnone : smallOwners owners = []
  · rw [hnone, List.isEmpty_nil, if_pos rfl, if_pos rfl]
  · have hslots := slotsLeft_pos hnone
    have hline := weightOf_small_pos hnone
    have hempty : ¬ (smallOwners owners).isEmpty = true := by simpa using hnone
    have hvalue : slotValueOf total owners ≤ 2 ^ 50 :=
      Nat.le_trans (Nat.div_le_self _ _) (by omega)
    rw [if_neg hempty, if_neg hnone, hlength, subU128, if_pos hcount, ← slotsLeft,
      Option.bind_some, sumU128_eq (by rw [← weightOf]; omega), Option.bind_some, ← weightOf,
      if_neg (by omega), ← slotValueOf,
      paySlots_eq (Nat.mod_lt _ hline) (Nat.zero_add _).le slotsLeft_le hsmall hvalue,
      Option.bind_eq_bind, Option.bind_some, fitU128, if_pos (by omega), Option.bind_some,
      subU128, if_pos hshared, Option.bind_some]
    rfl

theorem weightOf_drawnSlots (offset : Nat) (hweight : weightOf owners < 2 ^ 64)
    (h : smallOwners owners ≠ []) :
    weightOf (drawnSlots owners offset) = slotsLeft owners := by
  have hline := weightOf_small_pos h
  have hsmall : weightOf (smallOwners owners) < 2 ^ 64 := by
    have hsplit := weightOf_split (weightOf owners) owners
    rw [smallOwners]
    omega
  rw [drawnSlots,
    weightOf_slotsGiven (Nat.mod_lt _ hline) (Nat.zero_add _).le slotsLeft_le hsmall, pointsIn,
    Nat.zero_add, pointsBefore_mul hline, Nat.mul_zero, pointsBefore_zero hline, Nat.sub_zero]

theorem weightOf_sampledPaid :
    weightOf (sampledPaid total owners offset) =
      weightOf (drawnSlots owners offset) * slotValueOf total owners := by
  rw [← amountOf_all, sampledPaid, amountOf_filter_pos, amountOf_mul, amountOf_all]

theorem drawnSlots_nil (h : smallOwners owners = []) : drawnSlots owners offset = [] := by
  rw [drawnSlots, h]
  rfl

theorem allocate_pays (offset : Nat) (htotal : total ≤ 2 ^ 50) (hweight : weightOf owners < 2 ^ 64)
    (hpos : 0 < weightOf owners) :
    ∃ paid dust, allocate total owners offset = some (paid, dust) ∧
      paid.Perm (entitledPaid total owners ++ sampledPaid total owners offset) ∧
      weightOf (sampledPaid total owners offset) + dust = restOf total owners := by
  rw [allocate_eq htotal hweight hpos]
  by_cases hnone : smallOwners owners = []
  · rw [if_pos hnone]
    have hnothing : sampledPaid total owners offset = [] := by
      rw [sampledPaid, drawnSlots_nil hnone]
      rfl
    refine ⟨_, _, rfl, ?_, ?_⟩
    · rw [hnothing, List.append_nil]
    · rw [hnothing]
      exact Nat.zero_add _
  · rw [if_neg hnone]
    refine ⟨_, _, rfl, List.mergeSort_perm _ _, ?_⟩
    rw [weightOf_sampledPaid, weightOf_drawnSlots offset hweight hnone]
    exact Nat.add_sub_cancel' (Nat.mul_div_le _ _)

theorem map_fst_entitledPaid :
    (entitledPaid total owners).map Prod.fst = (entitledOwners owners).map Prod.fst := by
  rw [entitledPaid, List.map_map]
  rfl

theorem amountOf_sampledPaid {mine : OwnerId → Bool} :
    amountOf mine (sampledPaid total owners offset) =
      amountOf mine (drawnSlots owners offset) * slotValueOf total owners := by
  rw [sampledPaid, amountOf_filter_pos, amountOf_mul]

theorem not_mem_entitled {key : OwnerId} {w : Nat} (hdistinct : (owners.map Prod.fst).Nodup)
    (hmem : (key, w) ∈ owners) (hless : ¬ weightOf owners ≤ w * maxPaidMiners) :
    key ∉ (entitledOwners owners).map Prod.fst := by
  intro he
  obtain ⟨⟨k, w'⟩, hmem', heq⟩ := List.mem_map.mp he
  obtain rfl : k = key := heq
  obtain ⟨hin, hlarge⟩ := List.mem_filter.mp hmem'
  have hsame : w' = w := by rw [← amountOf_single hdistinct hin, amountOf_single hdistinct hmem]
  rw [hsame] at hlarge
  exact hless (of_decide_eq_true hlarge)

theorem of_mem_small {key : OwnerId} {w : Nat} (h : (key, w) ∈ smallOwners owners) :
    (key, w) ∈ owners ∧ ¬ weightOf owners ≤ w * maxPaidMiners :=
  ⟨(List.mem_filter.mp h).1, (of_decide_eq_true (List.mem_filter.mp h).2).1⟩

theorem map_fst_drawnSlots :
    (drawnSlots owners offset).map Prod.fst = (smallOwners owners).map Prod.fst :=
  map_fst_slotsGiven

theorem amountOf_drawnSlots_eq_zero {key : OwnerId}
    (h : key ∉ (smallOwners owners).map Prod.fst) :
    amountOf (fun id => id = key) (drawnSlots owners offset) = 0 := by
  apply amountOf_eq_zero
  intro p hp
  have hkey := List.mem_map_of_mem (f := Prod.fst) hp
  rw [map_fst_drawnSlots] at hkey
  apply decide_eq_false
  rintro rfl
  exact h hkey

theorem amountOf_drawnSlots_of_entitled {key : OwnerId} (hdistinct : (owners.map Prod.fst).Nodup)
    (he : key ∈ (entitledOwners owners).map Prod.fst) :
    amountOf (fun id => id = key) (drawnSlots owners offset) = 0 := by
  apply amountOf_drawnSlots_eq_zero
  intro hs
  obtain ⟨⟨k, w⟩, hmem, rfl⟩ := List.mem_map.mp hs
  obtain ⟨hin, hless⟩ := of_mem_small hmem
  exact not_mem_entitled hdistinct hin hless he

theorem amountOf_drawnSlots {key : OwnerId} {w : Nat} (hdistinct : (owners.map Prod.fst).Nodup)
    (hweight : weightOf owners < 2 ^ 64) (hmem : (key, w) ∈ owners)
    (hless : ¬ weightOf owners ≤ w * maxPaidMiners) :
    amountOf (fun id => id = key) (drawnSlots owners offset) =
        slotsLeft owners * w / weightOf (smallOwners owners) ∨
      amountOf (fun id => id = key) (drawnSlots owners offset) =
        divCeil (slotsLeft owners * w) (weightOf (smallOwners owners)) := by
  rcases Nat.eq_zero_or_pos w with rfl | hpos
  · left
    rw [Nat.mul_zero, Nat.zero_div]
    apply amountOf_drawnSlots_eq_zero
    intro hs
    obtain ⟨⟨k, w⟩, hsmall, heq⟩ := List.mem_map.mp hs
    obtain rfl : k = key := heq
    have hsame : w = 0 := by
      rw [← amountOf_single hdistinct (of_mem_small hsmall).1, amountOf_single hdistinct hmem]
    exact absurd (of_decide_eq_true (List.mem_filter.mp hsmall).2).2 (by omega)
  · have hsmall : (key, w) ∈ smallOwners owners :=
      List.mem_filter.mpr ⟨hmem, decide_eq_true ⟨hless, hpos⟩⟩
    have hline := weightOf_small_pos (List.ne_nil_of_mem hsmall)
    have hfits : weightOf (smallOwners owners) < 2 ^ 64 := by
      have hsplit := weightOf_split (weightOf owners) owners
      rw [smallOwners]
      omega
    exact amountOf_slotsGiven (Nat.mod_lt _ hline) (Nat.zero_add _).le slotsLeft_le hfits
      ((List.filter_sublist.map _).nodup hdistinct) hsmall

end Allocate

/-- What an allocation pays the owners of `mine`. -/
def allocatedTo (total : Nat) (owners : List (OwnerId × Nat)) (offset : Nat)
    (mine : OwnerId → Bool) : Nat :=
  match allocate total owners offset with
  | some (paid, _) => amountOf mine paid
  | none => 0

/-- What an offset pays: nothing overflows, all is paid out or dust, to at most `maxPaidMiners`
owners, the entitled ones their part and the others their drawn slots. -/
theorem allocate_paid {total : Nat} {owners : List (OwnerId × Nat)} (htotal : total ≤ 2 ^ 50)
    (hweight : weightOf owners < 2 ^ 64) (offset : Nat) :
    ∃ paid dust, allocate total owners offset = some (paid, dust) ∧
      weightOf paid + dust = total ∧ paid.length ≤ maxPaidMiners ∧
      (smallOwners owners ≠ [] → 0 < slotsLeft owners ∧ dust < slotsLeft owners ∧
        slotsLeft owners * slotValueOf total owners + dust = restOf total owners) ∧
      ∀ mine : OwnerId → Bool, amountOf mine paid = amountOf mine (entitledPaid total owners) +
        amountOf mine (drawnSlots owners offset) * slotValueOf total owners := by
  rcases Nat.eq_zero_or_pos (weightOf owners) with hzero | hpos
  · have hnone : allocate total owners offset = some ([], total) := by
      rw [allocate, sumU128_eq (by rw [← weightOf]; omega), ← weightOf, hzero]
      rfl
    have hsmall : smallOwners owners = [] := by
      by_contra hsome
      have hline := weightOf_small_pos hsome
      have hsplit := weightOf_split (weightOf owners) owners
      rw [smallOwners] at hline
      omega
    refine ⟨[], total, hnone, Nat.zero_add _, Nat.zero_le _, fun hsome => absurd hsmall hsome, ?_⟩
    intro mine
    rw [drawnSlots_nil hsmall, entitledPaid, hzero]
    refine (Nat.add_eq_zero_iff.mpr ⟨?_, Nat.zero_mul _⟩).symm
    have hamounts : amountOf mine (((entitledOwners owners).map (entitlement total 0)).filter
        fun p => 0 < p.2) = amountOf mine ((entitledOwners owners).map (entitlement total 0)) :=
      amountOf_filter_pos
    rw [← hamounts, List.filter_eq_nil_iff.mpr]
    · rfl
    · intro p hp
      obtain ⟨o, -, rfl⟩ := List.mem_map.mp hp
      simp [entitlement]
  · obtain ⟨paid, dust, hpaid, hperm, hdust⟩ :=
      allocate_pays offset htotal hweight hpos
    have hle := weightOf_entitledPaid_le total hpos
    have hrest : restOf total owners = total - weightOf (entitledPaid total owners) := rfl
    have hsum : weightOf paid =
        weightOf (entitledPaid total owners) + weightOf (sampledPaid total owners offset) := by
      rw [← amountOf_all, amountOf_perm hperm, amountOf_all, weightOf_append]
    have hcount : paid.length ≤ maxPaidMiners := by
      rw [hperm.length_eq, List.length_append, entitledPaid, List.length_map]
      have hcount := length_entitled_le hpos
      by_cases hnone : smallOwners owners = []
      · rw [sampledPaid, drawnSlots_nil hnone]
        exact hcount
      · have hslots := weightOf_drawnSlots offset hweight hnone
        have hdrawn : (sampledPaid total owners offset).length ≤ slotsLeft owners := by
          rw [← hslots]
          exact length_filter_mul_le _
        rw [slotsLeft] at hdrawn
        omega
    refine ⟨paid, dust, hpaid, by omega, hcount, ?_, ?_⟩
    · intro hsome
      have hslots := slotsLeft_pos hsome
      rw [weightOf_sampledPaid, weightOf_drawnSlots offset hweight hsome] at hdust
      have hless := Nat.mod_lt (restOf total owners) hslots
      have hparts : slotsLeft owners * slotValueOf total owners +
          restOf total owners % slotsLeft owners = restOf total owners := Nat.div_add_mod _ _
      exact ⟨hslots, by omega, hdust⟩
    · intro mine
      rw [amountOf_perm hperm, amountOf_append, amountOf_sampledPaid]

theorem amountOf_entitledPaid {total : Nat} {owners : List (OwnerId × Nat)} {key : OwnerId}
    {w : Nat} (hdistinct : (owners.map Prod.fst).Nodup) (hmem : (key, w) ∈ owners)
    (hlarge : weightOf owners ≤ w * maxPaidMiners) :
    amountOf (fun id => id = key) (entitledPaid total owners) = total * w / weightOf owners := by
  have hentitled : (key, w) ∈ entitledOwners owners :=
    List.mem_filter.mpr ⟨hmem, decide_eq_true hlarge⟩
  have hkeys : ((entitledPaid total owners).map Prod.fst).Nodup := by
    rw [map_fst_entitledPaid]
    exact (List.filter_sublist.map _).nodup hdistinct
  exact amountOf_single hkeys (List.mem_map_of_mem (f := entitlement total _) hentitled)

theorem amountOf_entitledPaid_of_small {total : Nat} {owners : List (OwnerId × Nat)}
    {key : OwnerId} {w : Nat} (hdistinct : (owners.map Prod.fst).Nodup)
    (hmem : (key, w) ∈ owners) (hless : ¬ weightOf owners ≤ w * maxPaidMiners) :
    amountOf (fun id => id = key) (entitledPaid total owners) = 0 := by
  apply amountOf_eq_zero
  intro p hp
  have hkey := List.mem_map_of_mem (f := Prod.fst) hp
  rw [map_fst_entitledPaid] at hkey
  apply decide_eq_false
  rintro rfl
  exact not_mem_entitled hdistinct hmem hless hkey

theorem sum_drawnSlots {owners : List (OwnerId × Nat)} (hweight : weightOf owners < 2 ^ 64)
    (mine : OwnerId → Bool) :
    ∑ offset ∈ Finset.range (weightOf (smallOwners owners)),
      amountOf mine (drawnSlots owners offset) =
        slotsLeft owners * amountOf mine (smallOwners owners) := by
  have hsmall : weightOf (smallOwners owners) < 2 ^ 64 := by
    have hsplit := weightOf_split (weightOf owners) owners
    rw [smallOwners]
    omega
  rcases Nat.eq_zero_or_pos (weightOf (smallOwners owners)) with hzero | hline
  · have hnone : smallOwners owners = [] := by
      by_contra hsome
      exact absurd (weightOf_small_pos hsome) (by omega)
    rw [hzero, hnone]
    rfl
  · rw [← sum_slotsGiven hline (Nat.zero_add _).le slotsLeft_le hsmall]
    apply Finset.sum_congr rfl
    intro offset ho
    rw [drawnSlots, Nat.mod_eq_of_lt (Finset.mem_range.mp ho)]

theorem sum_allocatedTo {total : Nat} {owners : List (OwnerId × Nat)} (htotal : total ≤ 2 ^ 50)
    (hweight : weightOf owners < 2 ^ 64) (mine : OwnerId → Bool) :
    ∑ offset ∈ Finset.range (weightOf (smallOwners owners)),
      allocatedTo total owners offset mine =
        weightOf (smallOwners owners) * amountOf mine (entitledPaid total owners) +
          slotsLeft owners * amountOf mine (smallOwners owners) * slotValueOf total owners := by
  have hoffset : ∀ offset, allocatedTo total owners offset mine =
      amountOf mine (entitledPaid total owners) +
        amountOf mine (drawnSlots owners offset) * slotValueOf total owners := by
    intro offset
    obtain ⟨paid, dust, hpaid, -, -, -, hamounts⟩ := allocate_paid htotal hweight offset
    rw [allocatedTo, hpaid]
    exact hamounts mine
  simp only [hoffset]
  rw [Finset.sum_add_distrib, Finset.sum_const, Finset.card_range, smul_eq_mul, ← Finset.sum_mul,
    sum_drawnSlots hweight]

/-- Payout weights add up to their scale. -/
theorem payoutWeights_sum {owners : List (OwnerId × Nat)} (hweight : weightOf owners < 2 ^ 64)
    {feePpm : Nat} (operator : OwnerId) (seed : Bytes32) (hfee : feePpm < feeScale) :
    ∃ weights, payoutWeights feePpm operator owners seed = .ok weights ∧
      weightOf weights = payoutScale := by
  have hcut : payoutScale * feePpm / feeScale ≤ payoutScale := by
    apply Nat.div_le_of_le_mul
    rw [Nat.mul_comm]
    exact Nat.mul_le_mul_right _ (Nat.le_of_lt hfee)
  have hscale : payoutScale = 2 ^ 50 := rfl
  generalize hfeeAmount : payoutScale * feePpm / feeScale = fee at hcut
  obtain ⟨paid, dust, hpaid, hsum, -⟩ := allocate_paid (Nat.sub_le payoutScale fee) hweight
    (seed.toNat % u128Max)
  have hsame : paid.map (fun m => (m.1, m.2 % 2 ^ 64)) = paid := by
    rw [List.map_congr_left (g := id), List.map_id]
    rintro ⟨id, n⟩ hmem
    have hn : n ≤ weightOf paid :=
      List.single_le_sum (fun _ _ => Nat.zero_le _) _ (List.mem_map_of_mem (f := Prod.snd) hmem)
    exact Prod.ext rfl (Nat.mod_eq_of_lt (by omega))
  have hweights : payoutWeights feePpm operator owners seed =
      .ok ((if fee + dust > 0 then [(operator, (fee + dust) % 2 ^ 64)] else []) ++ paid) := by
    rw [payoutWeights, Fallible.bailIf_neg (by omega), Fallible.bind_ok]
    dsimp only
    rw [hfeeAmount, hpaid, Fallible.orBail_some, Fallible.bind_ok, hsame]
  refine ⟨_, hweights, ?_⟩
  rw [weightOf_append]
  split
  · rw [weightOf_cons, Nat.mod_eq_of_lt (by omega)]
    show fee + dust + 0 + weightOf paid = payoutScale
    omega
  · show 0 + weightOf paid = payoutScale
    omega

/-- Payouts by systematic sampling: nothing overflows, all is paid out or dust, at most
`maxPaidMiners` owners are paid, the large ones exactly and the others in slots of equal value, as
many as their weight's share rounded one way or the other, and over all offsets exactly in
proportion to their weight. -/
theorem allocate_exact (total : Nat) (owners : List (OwnerId × Nat)) (htotal : total ≤ 2 ^ 50)
    (hdistinct : (owners.map Prod.fst).Nodup) (hweight : weightOf owners < 2 ^ 64) :
    (∀ offset : Nat, ∃ paid dust, allocate total owners offset = some (paid, dust) ∧
      weightOf paid + dust = total ∧ paid.length ≤ maxPaidMiners ∧
      (∀ (key : OwnerId) (w : Nat), (key, w) ∈ owners → weightOf owners ≤ w * maxPaidMiners →
        amountOf (fun id => id = key) paid = total * w / weightOf owners) ∧
      (∀ (key : OwnerId) (w : Nat), (key, w) ∈ owners → ¬ weightOf owners ≤ w * maxPaidMiners →
        amountOf (fun id => id = key) paid =
            amountOf (fun id => id = key) (drawnSlots owners offset) *
              (restOf total owners / slotsLeft owners) ∧
          (amountOf (fun id => id = key) paid =
              slotsLeft owners * w / weightOf (smallOwners owners) *
                (restOf total owners / slotsLeft owners) ∨
            amountOf (fun id => id = key) paid =
              divCeil (slotsLeft owners * w) (weightOf (smallOwners owners)) *
                (restOf total owners / slotsLeft owners))) ∧
      (smallOwners owners ≠ [] → 0 < slotsLeft owners ∧ dust < slotsLeft owners ∧
        slotsLeft owners * (restOf total owners / slotsLeft owners) + dust =
          restOf total owners)) ∧
    (∀ offset : Nat, smallOwners owners ≠ [] →
      weightOf (drawnSlots owners offset) = slotsLeft owners) ∧
    (∀ (offset : Nat) (key : OwnerId) (w : Nat), (key, w) ∈ owners →
      ¬ weightOf owners ≤ w * maxPaidMiners → amountOf (fun id => id = key) (drawnSlots owners offset) =
          slotsLeft owners * w / weightOf (smallOwners owners) ∨
        amountOf (fun id => id = key) (drawnSlots owners offset) =
          divCeil (slotsLeft owners * w) (weightOf (smallOwners owners))) ∧
    (∀ mine : OwnerId → Bool,
      ∑ offset ∈ Finset.range (weightOf (smallOwners owners)),
        amountOf mine (drawnSlots owners offset) =
          slotsLeft owners * amountOf mine (smallOwners owners)) ∧
    (∀ mine : OwnerId → Bool,
      ∑ offset ∈ Finset.range (weightOf (smallOwners owners)),
        allocatedTo total owners offset mine =
          weightOf (smallOwners owners) * amountOf mine (entitledPaid total owners) +
            slotsLeft owners * amountOf mine (smallOwners owners) *
              (restOf total owners / slotsLeft owners)) ∧
    ∀ (feePpm : Nat) (operator : OwnerId) (seed : Bytes32), feePpm < feeScale →
      ∃ weights, payoutWeights feePpm operator owners seed = .ok weights ∧
        weightOf weights = payoutScale := by
  refine ⟨?_, fun offset h => weightOf_drawnSlots offset hweight h,
    fun offset key w hmem hless => amountOf_drawnSlots hdistinct hweight hmem hless,
    sum_drawnSlots hweight, sum_allocatedTo htotal hweight,
    fun feePpm operator seed hfee => payoutWeights_sum hweight operator seed hfee⟩
  intro offset
  obtain ⟨paid, dust, hpaid, hsum, hcount, hdust, hamounts⟩ := allocate_paid htotal hweight offset
  refine ⟨paid, dust, hpaid, hsum, hcount, ?_, ?_, hdust⟩
  · intro key w hmem hlarge
    have hentitled : (key, w) ∈ entitledOwners owners :=
      List.mem_filter.mpr ⟨hmem, decide_eq_true hlarge⟩
    rw [hamounts, amountOf_entitledPaid hdistinct hmem hlarge,
      amountOf_drawnSlots_of_entitled hdistinct (List.mem_map_of_mem hentitled), Nat.zero_mul,
      Nat.add_zero]
  · intro key w hmem hless
    have hslots : amountOf (fun id => id = key) (drawnSlots owners offset) =
          slotsLeft owners * w / weightOf (smallOwners owners) ∨
        amountOf (fun id => id = key) (drawnSlots owners offset) =
          divCeil (slotsLeft owners * w) (weightOf (smallOwners owners)) :=
      amountOf_drawnSlots hdistinct hweight hmem hless
    have hpaid : amountOf (fun id => id = key) paid =
        amountOf (fun id => id = key) (drawnSlots owners offset) * slotValueOf total owners := by
      rw [hamounts, amountOf_entitledPaid_of_small hdistinct hmem hless, Nat.zero_add]
    refine ⟨hpaid, ?_⟩
    rw [hpaid]
    exact hslots.imp (congrArg (· * _)) (congrArg (· * _))

theorem allocate_exact_three :
    (∃ paid dust, allocate 1000000 [(1, 1), (2, 400), (3, 3)] 0 = some (paid, dust) ∧
      weightOf paid + dust = 1000000 ∧ amountOf (fun id => id = 2) paid = 990099 ∧
      (amountOf (fun id => id = 1) paid = 7 * 330 ∨ amountOf (fun id => id = 1) paid = 8 * 330) ∧
      dust < 30 ∧ 30 * 330 + dust = 9901) ∧
    ∑ offset ∈ Finset.range 4, allocatedTo 1000000 [(1, 1), (2, 400), (3, 3)] offset
      (fun id => id = 1) = 30 * 330 := by
  obtain ⟨hpaid, -, -, -, htotal, -⟩ := allocate_exact 1000000 [(1, 1), (2, 400), (3, 3)]
    (by decide) (by decide) (by decide)
  obtain ⟨paid, dust, hallocate, hsum, -, hlarge, hsmall, hdust⟩ := hpaid 0
  exact ⟨⟨paid, dust, hallocate, hsum, hlarge 2 400 (by decide) (by decide),
    (hsmall 1 1 (by decide) (by decide)).2, (hdust (by decide)).2⟩, htotal fun id => id = 1⟩

end Midwimble
