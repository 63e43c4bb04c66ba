import Midwimble.Chain.Bonds
import Midwimble.Lib.Rank
import Midwimble.Lib.Window

namespace Midwimble
open SlidingWindow
set_option autoImplicit true

/-- Timestamps accepted one after another, each against all before it. -/
inductive Stamped : List Nat → Prop where
  | nil : Stamped []
  | block : Stamped ts → validateTimestamp t ts now = .ok () → Stamped (ts ++ [t])

/-- The timestamps the median is over, in ascending order. -/
def recentSorted (ts : List Nat) : List Nat :=
  (ts.reverse.take medianTimePastWindow).insertionSort (· ≤ ·)

theorem medianTimeFloor_of_le (h : medianTimePastWindow ≤ ts.length) :
    medianTimeFloor ts = (recentSorted ts)[medianTimePastWindow / 2]? := by
  rw [medianTimeFloor, if_pos h, recentSorted]

theorem medianTimeFloor_of_lt (h : ts.length < medianTimePastWindow) :
    medianTimeFloor ts = ts.getLast? := by
  rw [medianTimeFloor, if_neg (Nat.not_le.mpr h)]

theorem recentSorted_perm (ts : List Nat) :
    (recentSorted ts).Perm (lastN medianTimePastWindow ts) := by
  rw [recentSorted, List.take_reverse]
  exact (List.perm_insertionSort _ _).trans (List.reverse_perm _)

theorem recentSorted_pairwise (ts : List Nat) : (recentSorted ts).Pairwise (· ≤ ·) :=
  List.pairwise_insertionSort _ _

theorem medianTimeFloor_mem (h : medianTimeFloor ts = some m) : m ∈ ts := by
  by_cases hlen : medianTimePastWindow ≤ ts.length
  · rw [medianTimeFloor_of_le hlen] at h
    exact lastN_suffix.mem ((recentSorted_perm ts).mem_iff.mp (List.mem_of_getElem? h))
  · rw [medianTimeFloor_of_lt (Nat.lt_of_not_le hlen)] at h
    exact List.mem_of_getLast? h

theorem exists_median (h : medianTimePastWindow ≤ ts.length) :
    ∃ m, medianTimeFloor ts = some m ∧ (lastN medianTimePastWindow ts).countP (· < m) ≤ 5 ∧
      ∀ b, (lastN medianTimePastWindow ts).countP (· < b) ≤ 5 → b ≤ m := by
  have hlen : (recentSorted ts).length = medianTimePastWindow := by
    rw [(recentSorted_perm ts).length_eq, length_lastN]
    omega
  have hget : (recentSorted ts)[medianTimePastWindow / 2]? =
      some ((recentSorted ts).get ⟨5, by rw [hlen]; decide⟩) :=
    List.getElem?_eq_getElem (by rw [hlen]; decide)
  refine ⟨_, (medianTimeFloor_of_le h).trans hget, ?_, fun b hb => ?_⟩
  · rw [← (recentSorted_perm ts).countP_eq]
    exact Rank.countP_lt_le (recentSorted_pairwise ts) hget
  · rw [← (recentSorted_perm ts).countP_eq] at hb
    exact Rank.le_of_countP_lt (recentSorted_pairwise ts) hget hb

theorem median_le_append (hlen : medianTimePastWindow ≤ ts.length)
    (hm : medianTimeFloor ts = some m) (ht : m < t) :
    ∃ m', medianTimeFloor (ts ++ [t]) = some m' ∧ m ≤ m' := by
  obtain ⟨n, hn, hle, -⟩ := exists_median hlen
  obtain rfl : n = m := Option.some.inj (hn.symm.trans hm)
  obtain ⟨m', hm'', -, hge⟩ := @exists_median (ts ++ [t]) (by
    rw [List.length_append]
    omega)
  refine ⟨m', hm'', hge _ ?_⟩
  -- The window drops its oldest stamp and takes in one that is not below the median.
  rw [← lastN_lastN_append]
  calc (lastN medianTimePastWindow (lastN medianTimePastWindow ts ++ [t])).countP (· < n)
      ≤ (lastN medianTimePastWindow ts ++ [t]).countP (· < n) := lastN_suffix.sublist.countP_le
    _ = (lastN medianTimePastWindow ts).countP (· < n) := by
        rw [List.countP_append, List.countP_singleton, if_neg (by simp; omega), Nat.add_zero]
    _ ≤ 5 := hle

theorem minNextTimestamp_some (h : medianTimeFloor ts = some m) :
    minNextTimestamp ts = m + 1 := by
  rw [minNextTimestamp, h]

theorem minNextTimestamp_step (hv : validateTimestamp t ts now = .ok ())
    (hne : ts.length + 1 ≠ medianTimePastWindow) :
    minNextTimestamp ts ≤ minNextTimestamp (ts ++ [t]) := by
  obtain ⟨-, hf⟩ := validateTimestamp_eq_ok.mp hv
  rcases Nat.lt_or_ge ts.length medianTimePastWindow with hlt | hge
  · have hlt' : (ts ++ [t]).length < medianTimePastWindow := by
      rw [List.length_append, List.length_singleton]
      omega
    have hnext : medianTimeFloor (ts ++ [t]) = some t := by
      rw [medianTimeFloor_of_lt hlt', List.getLast?_concat]
    rw [minNextTimestamp_some hnext]
    exact (minNextTimestamp_le hv).trans (Nat.le_succ t)
  · obtain ⟨m, hm, -, -⟩ := exists_median hge
    obtain ⟨m', hm', hle⟩ := median_le_append hge hm (hf m hm)
    rw [minNextTimestamp_some hm, minNextTimestamp_some hm']
    omega

theorem Stamped.of_append (h : Stamped (ts ++ [t])) :
    Stamped ts ∧ ∃ now, validateTimestamp t ts now = .ok () := by
  generalize hl : ts ++ [t] = l at h
  cases h with
  | nil => simp at hl
  | block hs hv =>
    obtain ⟨rfl, ht⟩ := List.append_inj' hl rfl
    obtain rfl := List.singleton_inj.mp ht
    exact ⟨hs, _, hv⟩

theorem Stamped.minNextTimestamp_mono (h : Stamped (ts ++ more))
    (hside : medianTimePastWindow ≤ ts.length ∨ (ts ++ more).length < medianTimePastWindow) :
    minNextTimestamp ts ≤ minNextTimestamp (ts ++ more) := by
  induction more using List.reverseRecOn with
  | nil => rw [List.append_nil]
  | append_singleton more t ih =>
    rw [← List.append_assoc] at h hside ⊢
    obtain ⟨hs, now, hv⟩ := h.of_append
    have hlen : (ts ++ more ++ [t]).length = (ts ++ more).length + 1 := List.length_append
    have hle : ts.length ≤ (ts ++ more).length := by simp
    refine (ih hs (hside.imp id fun h => by omega)).trans (minNextTimestamp_step hv ?_)
    omega

theorem Stamped.ascends (h : Stamped ts) (hlt : ts.length < medianTimePastWindow) :
    ts.Pairwise (· < ·) := by
  induction h with
  | nil => exact .nil
  | @block ts t now hs hv ih =>
    rw [List.length_append, List.length_singleton] at hlt
    have ih := ih (by omega)
    obtain ⟨-, hf⟩ := validateTimestamp_eq_ok.mp hv
    rw [medianTimeFloor_of_lt (by omega)] at hf
    rw [List.pairwise_append]
    refine ⟨ih, List.pairwise_singleton _ _, fun x hx y hy => ?_⟩
    obtain rfl := List.mem_singleton.mp hy
    obtain ⟨front, last, rfl⟩ := List.eq_nil_or_concat' ts |>.resolve_left (List.ne_nil_of_mem hx)
    have hlast : last < y := hf last List.getLast?_concat
    rcases List.mem_append.mp hx with hx | hx
    · exact ((List.pairwise_append.mp ih).2.2 x hx last (by simp)).trans hlast
    · rwa [List.mem_singleton.mp hx]

theorem Stamped.minNextTimestamp_falls (h : Stamped (ts ++ [t]))
    (hlen : ts.length + 1 = medianTimePastWindow) :
    minNextTimestamp (ts ++ [t]) < minNextTimestamp ts := by
  obtain ⟨hs, -⟩ := h.of_append
  have hup := hs.ascends (by omega)
  obtain ⟨front, last, rfl⟩ := List.eq_nil_or_concat' ts |>.resolve_left (by
    rintro rfl
    exact absurd hlen (by decide))
  have hlen' : front.length = 9 := by
    simp only [List.length_append, List.length_singleton] at hlen
    exact Nat.add_right_cancel (m := 2) hlen
  have hold : medianTimeFloor (front ++ [last]) = some last := by
    rw [medianTimeFloor_of_lt (by omega), List.getLast?_concat]
  obtain ⟨m, hm, hcount, -⟩ := @exists_median (front ++ [last] ++ [t]) (by
    rw [List.length_append, List.length_singleton]
    omega)
  rw [minNextTimestamp_some hold, minNextTimestamp_some hm]
  by_contra hge
  have hbelow : ∀ x ∈ front, x < m := fun x hx =>
    lt_of_lt_of_le ((List.pairwise_append.mp hup).2.2 x hx last (by simp)) (by omega)
  rw [lastN_of_length_le (by rw [List.length_append, List.length_singleton]; omega),
    List.append_assoc, List.countP_append,
    List.countP_eq_length.mpr (by simpa using hbelow)] at hcount
  omega

theorem estMidstateHeight_mono (h : t ≤ t') : estMidstateHeight t ≤ estMidstateHeight t' := by
  unfold estMidstateHeight
  gcongr

theorem BondRules.eligible_antitone (r : BondRules) (hb : r.earlyMinBond ≤ r.minBond)
    (hl : r.earlyMinLock ≤ r.minLock) (hle : t ≤ t') (h : r.eligible value bondedUntil t') :
    r.eligible value bondedUntil t := by
  have hest := estMidstateHeight_mono hle
  have hbond : r.minBondAt t ≤ r.minBondAt t' := by
    simp only [minBondAt, inEarlyPhase, decide_eq_true_eq]
    split <;> split <;> omega
  have hlock : r.minLockAt t ≤ r.minLockAt t' := by
    simp only [minLockAt, inEarlyPhase, decide_eq_true_eq]
    split <;> split <;> omega
  obtain ⟨hvalue, huntil⟩ := of_decide_eq_true h
  have hsum : satAdd64 (estMidstateHeight t) (r.minLockAt t) ≤
      satAdd64 (estMidstateHeight t') (r.minLockAt t') := by
    unfold satAdd64
    exact min_le_min_right _ (Nat.add_le_add hest hlock)
  exact decide_eq_true ⟨hbond.trans hvalue, hsum.trans huntil⟩

theorem eligible_antitone (hle : t ≤ t') (h : eligible value bondedUntil t') :
    eligible value bondedUntil t :=
  bondRules.eligible_antitone (by decide) (by decide) hle h

/-- Time only takes eligibility away, whatever minimums the early phase ends with. -/
theorem eligibility_only_runs_down (r : BondRules) (hr : r.earlyPhaseAsksLess)
    {t t' : Nat} (hle : t ≤ t') (h : r.eligible value bondedUntil t') :
    r.eligible value bondedUntil t := by
  have hless := of_decide_eq_true hr
  exact r.eligible_antitone hless.1 hless.2 hle h

theorem eligibility_only_runs_down_early :
    (BondRules.mk 10 7 midstateGenesisTimestamp 4 3).eligible 12 20000
      (midstateGenesisTimestamp - 1) :=
  eligibility_only_runs_down _ (by decide) (Nat.sub_le midstateGenesisTimestamp 1) (by decide)

variable [Primitives]

/-- Every bond pruned before one block stays ineligible at any stamp a later one may carry. -/
def ForgottenForGood (earlier later : List Nat) : Prop :=
  ∀ (bonds : BondSet) (id : Bytes32) (e : BondEntry),
    (id, e) ∈ (bonds.pruneExpired (minNextTimestamp earlier)).1 →
      ∀ t now, validateTimestamp t later now = .ok () → e.eligibleAt t = false

theorem forgottenForGood_of_le (h : minNextTimestamp earlier ≤ minNextTimestamp later) :
    ForgottenForGood earlier later := by
  intro bonds id e hm t now hv
  have hold := (BondSet.mem_removeWhere.mp hm).2
  rw [Bool.not_eq_true'] at hold
  have ht := minNextTimestamp_le hv
  rw [← Bool.not_eq_true] at hold ⊢
  exact fun he => hold (eligible_antitone (by omega) he)

/-- The earliest next timestamp never falls on a chain short of eleven blocks, and falls with the
eleventh. -/
theorem pruned_never_eligible (h : Stamped ts) :
    ((∀ earlier later, earlier <+: later → later <+: ts →
        minNextTimestamp earlier ≤ minNextTimestamp later) ↔
      ts.length < medianTimePastWindow) ∧
    ∀ earlier later, earlier <+: later → later <+: ts →
      (medianTimePastWindow ≤ earlier.length ∨ later.length < medianTimePastWindow) →
        minNextTimestamp earlier ≤ minNextTimestamp later ∧ ForgottenForGood earlier later := by
  have hbefore : ∀ {ts} {later}, Stamped ts → later <+: ts → Stamped later := by
    rintro ts later hs ⟨more, rfl⟩
    induction more using List.reverseRecOn with
    | nil => rwa [List.append_nil] at hs
    | append_singleton more t ih =>
      rw [← List.append_assoc] at hs
      exact ih hs.of_append.1
  have hmono : ∀ earlier later, earlier <+: later → later <+: ts →
      (medianTimePastWindow ≤ earlier.length ∨ later.length < medianTimePastWindow) →
        minNextTimestamp earlier ≤ minNextTimestamp later := by
    rintro earlier _ ⟨more, rfl⟩ hl hside
    exact (hbefore h hl).minNextTimestamp_mono hside
  refine ⟨⟨fun hall => ?_, fun hlt earlier later he hl => ?_⟩, fun earlier later he hl hside =>
    ⟨hmono earlier later he hl hside, forgottenForGood_of_le (hmono earlier later he hl hside)⟩⟩
  · by_contra hge
    have hten : (ts.take 10).length = 10 := by
      rw [List.length_take]
      have : medianTimePastWindow = 11 := rfl
      omega
    obtain ⟨t, ht⟩ : ∃ t, ts.take 11 = ts.take 10 ++ [t] := by
      have hlt : 10 < ts.length := Nat.lt_of_succ_le (Nat.not_lt.mp hge)
      exact ⟨ts[10], (List.take_succ_eq_append_getElem hlt)⟩
    have hs := hbefore h (List.take_prefix 11 ts)
    rw [ht] at hs
    have hfall := hs.minNextTimestamp_falls (by rw [hten]; rfl)
    have hrise := hall (ts.take 10) (ts.take 10 ++ [t]) (List.prefix_append _ _)
      (ht ▸ List.take_prefix 11 ts)
    omega
  · exact hmono earlier later he hl (.inr (hl.length_le.trans_lt hlt))

/-- Eleven stamps a minute apart from genesis. -/
def minuteStamps : List Nat := (List.range 11).map fun i => genesisTimestamp + 60 * i

omit [Primitives] in
theorem stamped_minutes : Stamped minuteStamps := by
  have h : ∀ n ≤ 11, Stamped ((List.range n).map fun i => genesisTimestamp + 60 * i) := by
    intro n hn
    induction n with
    | zero => exact .nil
    | succ n ih =>
      rw [List.range_succ, List.map_append]
      have hall : ∀ k < 11, validateTimestamp (genesisTimestamp + 60 * k)
          ((List.range k).map fun i => genesisTimestamp + 60 * i) (genesisTimestamp + 3600) =
            .ok () := by decide +kernel
      exact (ih (by omega)).block (hall n (by omega))
  exact h 11 (Nat.le_refl _)

omit [Primitives] in
theorem pruned_never_eligible_minutes :
    letI := Primitives.words
    ¬ ∀ earlier later, earlier <+: later → later <+: minuteStamps →
      minNextTimestamp earlier ≤ minNextTimestamp later :=
  letI := Primitives.words
  fun h => absurd ((pruned_never_eligible stamped_minutes).1.mp h) (by decide)

/-- A bond whose lock runs out five minutes into the chain. -/
def shortBond : BondEntry where
  miningKey := 1
  value := launchMinMiningBond
  bondedUntil := estMidstateHeight (genesisTimestamp + 359) + launchEarlyMinRemainingBondLock
  provenHeight := midstateBlockHeight + 1
  provenHash := 1

omit [Primitives] in
/-- A bond forgotten before the eleventh block could sign the twelfth. -/
theorem pruned_may_sign_again :
    letI := Primitives.words
    ¬ ∀ ts earlier later, Stamped ts → earlier <+: later → later <+: ts →
      minNextTimestamp earlier ≤ minNextTimestamp later ∧ ForgottenForGood earlier later := by
  let := Primitives.words
  intro hall
  obtain ⟨-, hgone⟩ := hall minuteStamps (minuteStamps.take 10) minuteStamps stamped_minutes
    (List.take_prefix _ _) (List.prefix_rfl)
  have hpruned : ((1 : Bytes32), shortBond) ∈ ((BondSet.empty.insert 1 shortBond).2.pruneExpired
      (minNextTimestamp (minuteStamps.take 10))).1 := by decide +kernel
  have hstill := hgone _ _ _ hpruned (genesisTimestamp + 301) (genesisTimestamp + 3600)
    (by decide +kernel)
  exact absurd hstill (by decide +kernel)

end Midwimble
