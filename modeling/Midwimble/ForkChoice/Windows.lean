import Midwimble.Core.ForkChoice
import Midwimble.Lib.Window

namespace Midwimble
open SlidingWindow
set_option autoImplicit true

/-- The window shows the end of this history of signers, oldest first. -/
structure SignerWindow.Shows (w : SignerWindow) (history : List (Option Bytes32)) : Prop where
  recent : w.recent = lastN capWindow history
  tally : Tally w.counts w.recent

theorem uncount_tally {l : List (Option Bytes32)} (h : Tally counts (old :: l)) :
    Tally (uncount counts old) l := by
  cases old with
  | none => exact h.drop_none
  | some a =>
    simp only [uncount, h.get_head]
    by_cases hc : l.count (some a) = 0
    · rw [if_neg (by omega)]
      exact h.drop_last hc
    · rw [if_pos (by omega), Nat.add_sub_cancel]
      exact h.drop_many hc

theorem count_tally {l : List (Option Bytes32)} (h : Tally counts l)
    (signer : Option Bytes32) :
    Tally (count counts signer) (l ++ [signer]) := by
  cases signer with
  | none => exact h.skip
  | some a => exact h.add

theorem evict_spec {l : List (Option Bytes32)} (h : Tally counts l) :
    (evict l counts).1 = lastN capWindow l ∧ Tally (evict l counts).2 (lastN capWindow l) := by
  induction l generalizing counts with
  | nil => exact ⟨rfl, h⟩
  | cons old rest ih =>
    rw [evict]
    by_cases hl : (old :: rest).length > capWindow
    · rw [if_pos hl, lastN_cons_of_lt hl]
      exact ih (uncount_tally h)
    · rw [if_neg hl, lastN_of_length_le (by omega)]
      exact ⟨rfl, h⟩

theorem SignerWindow.shows_empty : SignerWindow.empty.Shows [] := ⟨rfl, tally_empty⟩

theorem SignerWindow.Shows.push {w : SignerWindow} (h : w.Shows history)
    (signer : Option Bytes32) :
    (w.push signer).Shows (history ++ [signer]) := by
  obtain ⟨hr, ht⟩ := evict_spec (count_tally h.tally signer)
  have hw : lastN capWindow (w.recent ++ [signer]) = lastN capWindow (history ++ [signer]) := by
    rw [h.recent]
    exact lastN_lastN_append
  refine ⟨hr.trans hw, ?_⟩
  rw [← hr] at ht
  exact ht

theorem SignerWindow.Shows.unique {w w' : SignerWindow} (h : w.Shows history)
    (h' : w'.Shows history) : w = w' := by
  have hr : w.recent = w'.recent := h.recent.trans h'.recent.symm
  have ht : w.counts = w'.counts := h.tally.unique (hr ▸ h'.tally)
  cases w
  cases w'
  simp only [SignerWindow.mk.injEq]
  exact ⟨hr, ht⟩

@[simp] theorem creditInWindow_window :
    (creditInWindow w bonds height signer work timestamp).2 = w.push signer := rfl

theorem sliver_pos (work : Nat) : 0 < sliver work := by
  unfold sliver
  omega

theorem sliver_le (h : 0 < work) : sliver work ≤ work := by
  simp only [sliver, overCapWorkDivisor]
  omega

theorem sliver_lt_of_le (h : work ≤ bound) (hb : 1 < bound) : sliver work < bound := by
  unfold sliver overCapWorkDivisor
  omega

theorem sliver_lt (h : 1 < work) : sliver work < work := by
  simp only [sliver, overCapWorkDivisor]
  omega

theorem creditInWindow_credited (w : SignerWindow) (bonds : BondSet) (height : Nat)
    (signer : Option Bytes32) (work timestamp : Nat) :
    (creditInWindow w bonds height signer work timestamp).1 = work ∨
      (creditInWindow w bonds height signer work timestamp).1 = sliver work := by
  unfold creditInWindow
  cases signer with
  | none => by_cases h : height ≥ bondedMiningFrom <;> simp [h]
  | some id =>
    by_cases h : (w.push (some id)).counts[id]?.getD 0 > signerCap bonds timestamp <;> simp [h]

theorem creditInWindow_possible :
    creditPossible work signer.isSome height
      (creditInWindow w bonds height signer work timestamp).1 := by
  cases signer with
  | none =>
    by_cases h : height ≥ bondedMiningFrom <;> simp [creditPossible, creditInWindow, h]
  | some id =>
    simpa [creditPossible] using creditInWindow_credited w bonds height (some id) work timestamp

theorem creditInWindow_pos (h : 0 < work) :
    0 < (creditInWindow w bonds height signer work timestamp).1 := by
  rcases creditInWindow_credited w bonds height signer work timestamp with he | he
  · rw [he]
    exact h
  · rw [he]
    exact sliver_pos work

theorem creditInWindow_le (h : 0 < work) :
    (creditInWindow w bonds height signer work timestamp).1 ≤ work := by
  rcases creditInWindow_credited w bonds height signer work timestamp with he | he
  · exact he.le
  · rw [he]
    exact sliver_le h

theorem capWork_le : (capWork floor height work).1 ≤ work := by
  simp only [capWork]
  split
  · exact Nat.min_le_left _ _
  · exact Nat.le_refl _

theorem capWork_pos (hf : ∀ p ∈ floor, 0 < p.2) (h : 0 < work) :
    0 < (capWork floor height work).1 := by
  simp only [capWork]
  split
  · rename_i low hlow
    have hmem := (List.dropWhile_sublist _).mem (List.mem_of_mem_head? hlow)
    have hpos := hf _ hmem
    simp only [satAdd128, u128Max, workCapHeadroom, Nat.lt_min]
    omega
  · exact h

/-- The work floor of a chain: the low points of its last blocks' work. -/
def Floors (floor : List (Nat × Nat)) (history : List (Nat × Nat)) : Prop :=
  floor = lowPoints Prod.snd (lastN workCapWindow history)

/-- The heights of a history count up from `start`. -/
def HeightsFrom (start : Nat) (history : List (Nat × Nat)) : Prop :=
  history.map Prod.fst = List.range' start history.length

theorem heightsFrom_append :
    HeightsFrom start (history ++ later) ↔
      HeightsFrom start history ∧ HeightsFrom (start + history.length) later := by
  unfold HeightsFrom
  rw [List.map_append, List.length_append, ← List.range'_append_1]
  constructor
  · intro h
    exact List.append_inj h (by rw [List.length_map, List.length_range'])
  · rintro ⟨h, h'⟩
    rw [h, h']

theorem HeightsFrom.append (h : HeightsFrom start history) (work : Nat) :
    HeightsFrom start (history ++ [(start + history.length, work)]) :=
  heightsFrom_append.mpr ⟨h, rfl⟩

theorem HeightsFrom.take (h : HeightsFrom start history) :
    HeightsFrom start (history.take k) := by
  rw [← List.take_append_drop k history, heightsFrom_append] at h
  exact h.1

theorem HeightsFrom.drop (h : HeightsFrom start history) (hk : k ≤ history.length) :
    HeightsFrom (start + k) (history.drop k) := by
  rw [← List.take_append_drop k history, heightsFrom_append, List.length_take,
    Nat.min_eq_left hk] at h
  exact h.2

theorem HeightsFrom.mem_bounds (h : HeightsFrom start history) (hp : p ∈ history) :
    start ≤ p.1 ∧ p.1 < start + history.length := by
  have hm : p.1 ∈ history.map Prod.fst := List.mem_map_of_mem hp
  rw [h, List.mem_range'_1] at hm
  exact hm

theorem floors_empty : Floors [] [] := rfl

theorem keepWindowOf_lowPoints (h : HeightsFrom start history) :
    keepWindowOf (lowPoints Prod.snd history) (start + history.length) =
      lowPoints Prod.snd (lastN workCapWindow history) := by
  have hsplit : history.take (history.length - workCapWindow) ++ lastN workCapWindow history =
      history := List.take_append_drop _ _
  have hold : ∀ p ∈ history.take (history.length - workCapWindow),
      p.1 < start + history.length - workCapWindow := by
    intro p hp
    have hb := h.take.mem_bounds hp
    rw [List.length_take] at hb
    omega
  have hkept : ∀ p ∈ lastN workCapWindow history,
      start + history.length - workCapWindow ≤ p.1 := by
    intro p hp
    have hb := (h.drop (Nat.sub_le _ workCapWindow)).mem_bounds hp
    omega
  have hd : keepWindowOf (lowPoints Prod.snd
      (history.take (history.length - workCapWindow) ++ lastN workCapWindow history))
      (start + history.length) = lowPoints Prod.snd (lastN workCapWindow history) :=
    dropWhile_lowPoints hold hkept
  rw [hsplit] at hd
  exact hd

theorem heightsFrom_range' (start : Nat) (works : List Nat) :
    HeightsFrom start ((List.range' start works.length).zip works) := by
  rw [HeightsFrom, List.map_fst_zip (by rw [List.length_range']), List.length_zip,
    List.length_range', min_self]

theorem keepWindowOf_floors (h : Floors floor history) (hh : HeightsFrom start history)
    (hn : height = start + history.length) : keepWindowOf floor height = floor := by
  have hcut := hh.drop (Nat.sub_le history.length workCapWindow)
  have hlen : start + (history.length - workCapWindow) +
      (lastN workCapWindow history).length = height := by
    rw [length_lastN]
    omega
  have he := keepWindowOf_lowPoints hcut
  rw [← lastN, hlen, lastN_lastN (Nat.le_refl _), ← h] at he
  exact he

theorem capWork_floors (h : Floors floor history) (hh : HeightsFrom start history)
    (hn : height = start + history.length) :
    Floors (capWork floor height work).2 (history ++ [(height, work)]) := by
  have hcut := hh.drop (Nat.sub_le history.length workCapWindow)
  have hlen : start + (history.length - workCapWindow) +
      (lastN workCapWindow history).length = height := by
    rw [length_lastN]
    omega
  have hkeep := keepWindowOf_floors h hh hn
  have hnext := hcut.append work
  rw [← lastN, hlen] at hnext
  have he := keepWindowOf_lowPoints hnext
  rw [List.length_append, List.length_singleton, ← Nat.add_assoc, hlen,
    lastN_lastN_append, lowPoints_append, ← h] at he
  simp only [capWork, hkeep]
  exact he

theorem rebuildWorkFloor_floors (h : HeightsFrom start history) :
    Floors (rebuildWorkFloor history) history := by
  induction history using List.reverseRecOn with
  | nil => exact floors_empty
  | append_singleton history p ih =>
    obtain ⟨hfront, hlast⟩ := heightsFrom_append.mp h
    have hp : p = (start + history.length, p.2) :=
      Prod.ext (List.singleton_inj.mp hlast) rfl
    rw [rebuildWorkFloor, List.foldl_append, List.foldl_cons, List.foldl_nil, ← rebuildWorkFloor,
      hp]
    exact capWork_floors (ih hfront) hfront rfl

/-- What a block of this work is credited after blocks of works `before`: at most the lowest of
the last `workCapWindow` of them and a quarter of it. -/
def creditAfter (before : List Nat) (work : Nat) : Nat :=
  (lastN workCapWindow before).min?.elim work fun m => min work (m + m / 4)

theorem Floors.head (h : Floors floor history) :
    floor.head?.map Prod.snd = (lastN workCapWindow (history.map Prod.snd)).min? := by
  rw [h, ← map_lastN]
  cases hl : lowPoints Prod.snd (lastN workCapWindow history) with
  | nil =>
    rw [lowPoints_eq_nil.mp hl]
    rfl
  | cons y ys =>
    have hy : y ∈ lastN workCapWindow history :=
      lowPoints_sublist.mem (hl ▸ List.mem_cons_self)
    symm
    apply List.min?_eq_some_iff.mpr
    constructor
    · exact List.mem_map_of_mem hy
    · intro b hb
      obtain ⟨z, hz, rfl⟩ := List.mem_map.mp hb
      exact head_lowPoints_le hl z hz

theorem capWork_of_low {low : Option Nat} (hkeep : keepWindowOf floor height = floor)
    (hlow : floor.head?.map Prod.snd = low) (hw : work ≤ u128Max) :
    (capWork floor height work).1 = low.elim work fun m => min work (m + m / 4) := by
  rw [← hlow, capWork, hkeep]
  cases floor.head? with
  | none => rfl
  | some p =>
    simp only [Option.map_some, Option.elim_some, satAdd128, workCapHeadroom]
    omega

theorem capWork_credit (h : Floors floor history) (hh : HeightsFrom start history)
    (hn : height = start + history.length) (hw : work ≤ u128Max) :
    (capWork floor height work).1 = creditAfter (history.map Prod.snd) work :=
  capWork_of_low (keepWindowOf_floors h hh hn) h.head hw

theorem capWorks_cons :
    capWorks floor height (work :: works) =
      let (credited, next) := capWork floor height work
      let rest := capWorks next (height + 1) works
      (credited :: rest.1, rest.2) := rfl

theorem mapIdx_take_cons {f : List Nat → Nat → Nat} {before works : List Nat} :
    ((work :: works).mapIdx fun i w => f (before ++ (work :: works).take i) w) =
      f before work :: works.mapIdx fun i w => f (before ++ [work] ++ works.take i) w := by
  simp [List.mapIdx_cons]

theorem capWorks_spec (works : List Nat) (h : Floors floor history)
    (hh : HeightsFrom start history) (hn : height = start + history.length)
    (hw : ∀ w ∈ works, w ≤ u128Max) :
    (capWorks floor height works).1 = (works.mapIdx fun i w =>
        creditAfter (history.map Prod.snd ++ works.take i) w) ∧
      Floors (capWorks floor height works).2
        (history ++ (List.range' height works.length).zip works) := by
  induction works generalizing floor history height with
  | nil =>
    rw [List.length_nil, List.range'_zero, List.zip_nil_left, List.append_nil]
    exact ⟨rfl, h⟩
  | cons work works ih =>
    have hnext : height + 1 = start + (history ++ [(height, work)]).length := by
      rw [List.length_append, List.length_singleton]
      omega
    have hheights : HeightsFrom start (history ++ [(height, work)]) := hn ▸ hh.append work
    obtain ⟨hc, hf⟩ := ih (capWork_floors h hh hn) hheights hnext
      fun w hm => hw w (List.mem_cons_of_mem _ hm)
    have hcredit := capWork_credit h hh hn (hw work List.mem_cons_self)
    constructor
    · rw [mapIdx_take_cons, capWorks_cons]
      simp only [hcredit, hc, List.map_append, List.map_cons, List.map_nil]
    · rw [List.append_assoc, List.singleton_append] at hf
      rw [List.length_cons, List.range'_succ, List.zip_cons_cons, capWorks_cons]
      exact hf

/-- The work cap's deque gives every block the sliding-window minimum, and is a function of the
last works alone. -/
theorem work_cap_is_sliding_minimum (start : Nat) (works : List Nat)
    (hw : ∀ w ∈ works, w ≤ u128Max) :
    (capWorks [] start works).1 = (works.mapIdx fun h w => creditAfter (works.take h) w) ∧
      (capWorks [] start works).2 = rebuildWorkFloor
        (lastN workCapWindow ((List.range' start works.length).zip works)) := by
  have hempty : HeightsFrom start [] := rfl
  obtain ⟨hcredits, hfloor⟩ :=
    capWorks_spec works floors_empty hempty (Nat.add_zero start).symm hw
  rw [List.nil_append] at hfloor
  simp only [List.map_nil, List.nil_append] at hcredits
  have hlast := rebuildWorkFloor_floors
    ((heightsFrom_range' start works).drop (Nat.sub_le _ workCapWindow))
  rw [← lastN, Floors, lastN_lastN (Nat.le_refl _)] at hlast
  exact ⟨hcredits, hfloor.trans hlast.symm⟩

theorem work_cap_is_sliding_minimum_three :
    (capWorks [] 5 [8, 3, 9]).1 = ([8, 3, 9].mapIdx fun h w => creditAfter ([8, 3, 9].take h) w) ∧
      (capWorks [] 5 [8, 3, 9]).2 = rebuildWorkFloor
        (lastN workCapWindow ((List.range' 5 [8, 3, 9].length).zip [8, 3, 9])) :=
  work_cap_is_sliding_minimum 5 [8, 3, 9] (by decide)

end Midwimble
