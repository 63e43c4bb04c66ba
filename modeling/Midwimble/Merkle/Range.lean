import Midwimble.Chain.Mmr
import Midwimble.Core.MmrProof
import Midwimble.Lib.Mountain

namespace Midwimble
open Mountain
set_option autoImplicit true

theorem posHeightDown_le (h pos : Nat) : posHeightDown h pos ≤ h := by
  induction h generalizing pos with
  | zero => exact Nat.le_refl 0
  | succ h ih =>
    rw [posHeightDown_succ]
    split
    · exact Nat.le_refl _
    · exact Nat.le_succ_of_le (ih _)

theorem posHeightDown_width (h pos : Nat) : posHeightDown (h + 1) pos =
    if pos = 2 * width h then h + 1
    else posHeightDown h (if pos ≥ width h then pos - width h else pos) := by
  have htop : 2 ^ (h + 2) - 2 = 2 * width h := by
    rw [width, Nat.pow_succ, Nat.mul_comm, Nat.mul_sub]
  rw [posHeightDown_succ, htop, width]

theorem posHeightDown_stable (hpos : pos < width h) (hle : h ≤ k) :
    posHeightDown k pos = posHeightDown h pos := by
  induction k, hle using Nat.le_induction with
  | base => rfl
  | succ k hle ih =>
    have hk := hpos.trans_le (width_le hle)
    rw [posHeightDown_width, if_neg (by omega), if_neg (by omega), ih]

theorem posHeight_eq (hpos : pos < width h) (hword : pos < 2 ^ 64) :
    posHeight pos = posHeightDown h pos := by
  have hup : pos < 2 ^ (posHeightUp 64 0 pos + 1) - 1 := posHeightUp_spec (by omega)
  rw [posHeight]
  rcases Nat.le_total h (posHeightUp 64 0 pos) with hle | hle
  · exact posHeightDown_stable hpos hle
  · exact (posHeightDown_stable hup hle).symm

theorem posHeight_top (hk : k < 63) : posHeight (width k - 1) = k := by
  have hpos := width_pos k
  have hword := width_lt hk
  rw [posHeight_eq (h := k) (by omega) (by omega)]
  cases k with
  | zero => rfl
  | succ k =>
    have hs := width_succ k
    rw [posHeightDown_width, if_pos (by omega)]

theorem posHeight_right (hr : r < width k) (hword : width k + r < 2 ^ 64) :
    posHeight (width k + r) = posHeight r := by
  have hs := width_succ k
  rw [posHeight_eq (h := k + 1) (by omega) hword, posHeight_eq hr (by omega),
    posHeightDown_width, if_neg (by omega), if_pos (Nat.le_add_right _ _),
    Nat.add_sub_cancel_left]

theorem posHeight_lt (hr : r + 1 < width h) (hword : r < 2 ^ 64) : posHeight r < h := by
  cases h with
  | zero =>
    rw [width] at hr
    omega
  | succ h =>
    have hs := width_succ h
    rw [posHeight_eq (h := h + 1) (by omega) hword, posHeightDown_width, if_neg (by omega)]
    exact Nat.lt_succ_of_le (posHeightDown_le _ _)

/-- Past a node, as many positions as a lower tree has nodes hold no node of its height. -/
theorem posHeight_fresh (hP : P < width k) (hword : width k ≤ 2 ^ 63) (hh : h < posHeight P)
    (hj : j < width h) : posHeight (P + j) ≠ h := by
  induction k generalizing P with
  | zero =>
    have h0 : P = 0 := by
      rw [width] at hP
      omega
    subst h0
    exact absurd hh (Nat.not_lt_zero h)
  | succ k ih =>
    have hs := width_succ k
    have hwk := width_pos k
    have hk : k + 1 < 63 := by
      by_contra hge
      have := width_le (Nat.le_of_not_lt hge)
      have h63 : width 63 = 2 ^ 64 - 1 := rfl
      omega
    have htop := posHeight_top hk
    have hle : posHeight P ≤ k + 1 := by
      rw [posHeight_eq hP (by omega)]
      exact posHeightDown_le _ _
    have hwide : width h ≤ width k := width_le (by omega)
    rcases Nat.lt_or_ge P (width k) with hleft | hright
    · exact ih hleft (by omega) hh
    · obtain ⟨q, rfl⟩ := Nat.exists_eq_add_of_le hright
      rcases Nat.lt_or_ge (width k + q + j) (width (k + 1)) with hin | hout
      · rcases Nat.lt_or_ge (q + j) (width k) with hlt | hge
        · -- both in the right half
          rw [Nat.add_assoc, posHeight_right hlt (by omega)]
          rw [posHeight_right (by omega) (by omega)] at hh
          exact ih (by omega) (by omega) hh
        · have he : width k + q + j = width (k + 1) - 1 := by omega
          rw [he, htop]
          omega
      · -- past the tree
        obtain ⟨r, hr⟩ := Nat.exists_eq_add_of_le hout
        rw [hr, posHeight_right (by omega) (by omega)]
        exact (posHeight_lt (by omega) (by omega)).ne

/-- Past a row of trees that fall in height, the heights start over. -/
theorem posHeight_span (hf : Rising (h :: hs)) (hq : q < width h)
    (hword : span (h :: hs) ≤ 2 ^ 64) : posHeight (span hs + q) = posHeight q := by
  have key (ks : List Nat) (hk : ks.Pairwise (· > ·)) (hb : ∀ k ∈ ks, h < k)
      (hw : span ks + width h ≤ 2 ^ 64) : posHeight (span ks + q) = posHeight q := by
    induction ks with
    | nil => rw [span_nil, Nat.zero_add]
    | cons k ks ih =>
      obtain ⟨hlt, hk'⟩ := List.pairwise_cons.mp hk
      rw [span_cons] at hw
      have hroom : span (ks ++ [h]) < width k := by
        apply span_lt
        · rw [List.pairwise_append]
          refine ⟨hk', List.pairwise_singleton _ _, fun a ha b hb' => ?_⟩
          rw [List.mem_singleton.mp hb']
          exact hb a (List.mem_cons_of_mem k ha)
        · intro a ha
          rcases List.mem_append.mp ha with ha | ha
          · exact hlt a ha
          · rw [List.mem_singleton.mp ha]
            exact hb k List.mem_cons_self
      simp only [span_append, span_cons, span_nil, Nat.add_zero] at hroom
      rw [span_cons, Nat.add_assoc, posHeight_right (by omega) (by omega)]
      exact ih hk' (fun a ha => hb a (List.mem_cons_of_mem k ha)) (by omega)
  obtain ⟨hlt, hf'⟩ := List.pairwise_cons.mp hf
  rw [span_cons] at hword
  rw [← span_reverse]
  apply key
  · exact List.pairwise_reverse.mpr hf'
  · intro k hk
    exact hlt k (List.mem_reverse.mp hk)
  · rw [span_reverse]
    omega

section Peaks

theorem peakHeight_eq (hlo : width k ≤ remaining) (hhi : remaining < width (k + 1))
    (hh : h ≤ k + 1) (hfuel : k + 1 ≤ h + fuel) : peakHeight fuel h remaining = k + 1 := by
  induction fuel generalizing h with
  | zero =>
    rw [peakHeight]
    omega
  | succ fuel ih =>
    rw [peakHeight, ← width]
    rcases Nat.lt_or_eq_of_le hh with hlt | rfl
    · have := width_le (Nat.le_of_lt_succ hlt)
      rw [if_pos (by omega)]
      exact ih hlt (by omega)
    · rw [if_neg (by omega)]

/-- Where the roots of a row of trees stand, the first tree first. -/
def ends (offset : Nat) : List Nat → List Nat
  | [] => []
  | k :: ks => (offset + width k - 1) :: ends (offset + width k) ks

theorem ends_append (ks : List Nat) (h offset : Nat) :
    ends offset (ks ++ [h]) = ends offset ks ++ [offset + span ks + width h - 1] := by
  induction ks generalizing offset with
  | nil => rfl
  | cons k ks ih =>
    rw [List.cons_append, ends, ih, ends, List.cons_append, span_cons, Nat.add_assoc offset]

theorem ends_eq_crown (hs : List Nat) : ends 0 hs.reverse = (crown hs).reverse := by
  induction hs with
  | nil => rfl
  | cons h hs ih =>
    rw [List.reverse_cons, ends_append, ih, crown, List.reverse_cons, span_reverse, Nat.zero_add,
      span_cons, Nat.add_comm]

theorem peaksLoop_eq (hf : ks.Pairwise (· > ·)) (hword : span ks < 2 ^ 64)
    (hfuel : ks.length ≤ fuel) : peaksLoop fuel offset (span ks) = ends offset ks := by
  induction ks generalizing fuel offset with
  | nil =>
    cases fuel with
    | zero => rfl
    | succ fuel => rw [span_nil, peaksLoop, if_pos rfl, ends]
  | cons k ks ih =>
    cases fuel with
    | zero => exact absurd hfuel (Nat.not_succ_le_zero _)
    | succ fuel =>
      obtain ⟨hlt, hf'⟩ := List.pairwise_cons.mp hf
      have hwk := width_pos k
      have hs := width_succ k
      have hrest := span_lt hf' hlt
      rw [span_cons] at hword
      have hk : k < 64 := by
        by_contra hge
        have := width_le (Nat.le_of_not_lt hge)
        have h64 : width 64 = 2 ^ 65 - 1 := rfl
        omega
      have hh : peakHeight 64 1 (width k + span ks) = k + 1 :=
        peakHeight_eq (by omega) (by omega) (by omega) (by omega)
      rw [span_cons, peaksLoop, hh, ← width, if_neg (by omega), if_neg (by omega), ends,
        Nat.add_sub_cancel_left, ih hf' (by omega) (Nat.le_of_succ_le_succ hfuel)]

theorem length_le_span (hs : List Nat) : hs.length ≤ span hs := by
  induction hs with
  | nil => exact Nat.le_refl 0
  | cons h hs ih =>
    have := width_pos h
    rw [List.length_cons, span_cons]
    omega

theorem peaks_span (hf : Rising hs) (hword : span hs < 2 ^ 64) :
    peaks (span hs) = (crown hs).reverse := by
  rw [← span_reverse, peaks, peaksLoop_eq (List.pairwise_reverse.mpr hf)
    (by rwa [span_reverse]) (length_le_span _), ends_eq_crown]

theorem count_lt (hf : ks.Pairwise (· > ·)) (hb : ∀ k ∈ ks, k < b) : Mountain.count ks < 2 ^ b := by
  induction ks generalizing b with
  | nil => exact Nat.two_pow_pos b
  | cons k ks ih =>
    obtain ⟨hlt, hf'⟩ := List.pairwise_cons.mp hf
    have h1 := ih hf' hlt
    have h2 : 2 ^ (k + 1) ≤ 2 ^ b :=
      Nat.pow_le_pow_right (by decide) (hb k List.mem_cons_self)
    rw [count_cons]
    rw [Nat.pow_succ] at h2
    omega

theorem mmrSize_count (hf : Rising hs) (hword : Mountain.count hs < 2 ^ 63) :
    mmrSize (Mountain.count hs) = span hs ∧ ones (Mountain.count hs) = hs.length := by
  have key (ks : List Nat) (hk : ks.Pairwise (· > ·)) (hw : Mountain.count ks < 2 ^ 63) :
      mmrSize (Mountain.count ks) = span ks ∧ ones (Mountain.count ks) = ks.length := by
    induction ks with
    | nil => exact ⟨rfl, rfl⟩
    | cons k ks ih =>
      obtain ⟨hlt, hk'⟩ := List.pairwise_cons.mp hk
      rw [count_cons] at hw ⊢
      obtain ⟨h1, h2⟩ := ih hk' ((Nat.le_add_left _ _).trans_lt hw)
      have hrest := count_lt hk' hlt
      have hkb : k < 63 := (Nat.pow_lt_pow_iff_right (by decide)).mp
        ((Nat.le_add_right _ _).trans_lt hw)
      have hsize := mmrSize_high hrest hkb
      have hpos := Nat.two_pow_pos (k + 1)
      refine ⟨?_, by rw [ones_high hrest, h2, List.length_cons]⟩
      rw [span_cons, ← h1, width]
      omega
  have h := key hs.reverse (List.pairwise_reverse.mpr hf) (by rwa [count_reverse])
  rwa [count_reverse, span_reverse, List.length_reverse] at h

end Peaks

theorem span_le_count (hs : List Nat) : span hs ≤ 2 * Mountain.count hs := by
  induction hs with
  | nil => exact Nat.le_refl 0
  | cons h hs ih =>
    rw [span_cons, count_cons, width, Nat.pow_succ]
    omega

theorem height_lt (hh : h ∈ hs) (hc : Mountain.count hs < 2 ^ b) : h < b := by
  have hle : 2 ^ h ≤ Mountain.count hs := List.le_sum_of_mem (List.mem_map_of_mem hh)
  exact (Nat.pow_lt_pow_iff_right (by decide)).mp (hle.trans_lt hc)

section Ranges

/-- A range whose tree tops are these. -/
structure Crested (f : Crest Bytes32) (m : MerkleMountainRange) : Prop where
  crowned : Crowned f m.nodes
  rising : Rising (f.map Prod.fst)
  leaves : Mountain.count (f.map Prod.fst) = m.leafCount

theorem crested_new : Crested [] .new := ⟨.nil, List.Pairwise.nil, rfl⟩

theorem Crested.peaks_nodes (c : Crested f m) (hn : m.leafCount < 2 ^ 63) :
    peaks m.nodes.length = (crown (f.map Prod.fst)).reverse := by
  have := span_le_count (f.map Prod.fst)
  rw [c.leaves] at this
  rw [c.crowned.length, peaks_span c.rising (by omega)]

theorem Crested.size (c : Crested f m) (hn : m.leafCount < 2 ^ 63) :
    m.nodes.length = mmrSize m.leafCount := by
  rw [c.crowned.length, ← c.leaves, (mmrSize_count c.rising (by rwa [c.leaves])).1]

theorem Crested.peakValues (c : Crested f m) (hn : m.leafCount < 2 ^ 63) :
    mmrPeakValues m = .ok (f.map Prod.snd).reverse := by
  have hvalues := c.crowned.map_crown [] 0
  rw [List.append_nil] at hvalues
  rw [mmrPeakValues, ← c.size hn, c.peaks_nodes hn, ← hvalues, ← List.map_reverse]
  have hin (p : Nat) (hp : p ∈ (crown (f.map Prod.fst)).reverse) : p < m.nodes.length := by
    rw [c.crowned.length]
    exact crown_lt (List.mem_reverse.mp hp)
  generalize (crown (f.map Prod.fst)).reverse = ps at hin ⊢
  induction ps with
  | nil => rfl
  | cons p ps ih =>
    have hp := hin p List.mem_cons_self
    rw [List.mapM_cons, ih fun q hq => hin q (List.mem_cons_of_mem p hq),
      List.getElem?_eq_getElem hp]
    rw [List.map_cons, List.getD_eq_getElem _ _ hp]
    rfl

variable [Primitives]

/-- `hash_node` under one hashing mode. -/
abbrev joinNodes (isV2 : Bool) : Bytes32 → Bytes32 → Bytes32 :=
  fun left right => hashNode left right isV2

theorem mergeUp_width (isV2 : Bool) (fuel h : Nat) (nodes : List Bytes32) :
    MerkleMountainRange.mergeUp isV2 (fuel + 1) h nodes =
      if nodes.length - 1 < width h then nodes
      else if posHeight (nodes.length - 1 - width h) ≠ h then nodes
      else MerkleMountainRange.mergeUp isV2 fuel (h + 1)
        (nodes ++ [hashNode (nodes.getD (nodes.length - 1 - width h) 0)
          (nodes.getD (nodes.length - 1) 0) isV2]) := rfl

/-- The cascade of `append` joins the trees that `carry` joins. -/
theorem mergeUp_eq (c : Crowned f nodes) (hf : Rising (f.map Prod.fst))
    (hc : Mountain.count (f.map Prod.fst) + 2 ^ h < 2 ^ 63) (hfuel : fuel + h = 64)
    (hw : inside.length + 1 = width h) :
    MerkleMountainRange.mergeUp isV2 fuel h (nodes ++ (inside ++ [v])) =
      nodes ++ (inside ++ [v]) ++ parents (joinNodes isV2) (h, v) f := by
  induction c generalizing fuel h inside v with
  | nil =>
    cases fuel with
    | zero => exact (List.append_nil _).symm
    | succ fuel =>
      rw [mergeUp_width, if_pos, parents, List.append_nil]
      simp only [List.nil_append, List.length_append, List.length_singleton]
      omega
  | @snoc f nodes h' below inside' hw' v' ih =>
    have hh : h < 63 := (Nat.pow_lt_pow_iff_right (by decide)).mp
      ((Nat.le_add_left _ _).trans_lt hc)
    simp only [List.map_cons, count_cons] at hc
    have hword : Mountain.count (h' :: f.map Prod.fst) < 2 ^ 63 := by
      rw [count_cons]
      exact (Nat.le_add_right _ _).trans_lt hc
    have hh' : h' < 63 := height_lt List.mem_cons_self hword
    have hspan := span_le_count (h' :: f.map Prod.fst)
    have hrow := span_cons h' (f.map Prod.fst)
    have hlen := below.length
    have hwp := width_pos h'
    obtain ⟨fuel, rfl⟩ : ∃ k, fuel = k + 1 := ⟨fuel - 1, by omega⟩
    -- the node before the new tree is the root of the last one
    have hleft : (nodes ++ (inside' ++ [v']) ++ (inside ++ [v])).length - 1 - width h =
        span (f.map Prod.fst) + (width h' - 1) := by
      simp only [List.length_append, List.length_singleton]
      omega
    have hroom : ¬ (nodes ++ (inside' ++ [v']) ++ (inside ++ [v])).length - 1 < width h := by
      simp only [List.length_append, List.length_singleton]
      omega
    have hheight : posHeight (span (f.map Prod.fst) + (width h' - 1)) = h' := by
      rw [posHeight_span (h := h') hf (by omega) (by omega), posHeight_top hh']
    rw [mergeUp_width, if_neg hroom, hleft, hheight, parents]
    by_cases he : h' = h
    · subst he
      have hl : (nodes ++ (inside' ++ [v']) ++ (inside ++ [v])).getD
          (span (f.map Prod.fst) + (width h' - 1)) 0 = v' := by
        rw [← hlen, List.append_assoc, List.getD_append_right _ _ _ _ (Nat.le_add_right _ _),
          Nat.add_sub_cancel_left, ← hw', Nat.add_sub_cancel, List.append_assoc,
          List.getD_append_right _ _ _ _ (Nat.le_refl _), Nat.sub_self]
        rfl
      have hr : (nodes ++ (inside' ++ [v']) ++ (inside ++ [v])).getD
          ((nodes ++ (inside' ++ [v']) ++ (inside ++ [v])).length - 1) 0 = v := by
        rw [← List.append_assoc, List.length_append, List.length_singleton, Nat.add_sub_cancel,
          List.getD_append_right _ _ _ _ (Nat.le_refl _), Nat.sub_self]
        rfl
      rw [if_neg (not_not.mpr rfl), if_pos rfl, hl, hr]
      have hjoin : (inside' ++ [v'] ++ (inside ++ [v])).length + 1 = width (h' + 1) := by
        simp only [List.length_append, List.length_singleton]
        rw [width_succ]
        omega
      have hnext := ih (h := h' + 1) (v := hashNode v' v isV2)
        (List.pairwise_cons.mp hf).2 (by rw [Nat.pow_succ]; omega)
        (show fuel + (h' + 1) = 64 by omega) hjoin
      simpa only [List.append_assoc, List.cons_append, List.nil_append] using hnext
    · rw [if_pos he, if_neg he, List.append_nil]

theorem nodes_append (c : Crested f m) (hn : m.leafCount + 1 < 2 ^ 63) :
    (m.append leaf isV2).nodes =
      m.nodes ++ [leaf] ++ parents (joinNodes isV2) (0, leaf) f := by
  have hcount : Mountain.count (f.map Prod.fst) + 2 ^ 0 < 2 ^ 63 := by
    rw [c.leaves]
    exact hn
  have hmerge : MerkleMountainRange.mergeUp isV2 64 0 (m.nodes ++ ([] ++ [leaf])) =
      m.nodes ++ ([] ++ [leaf]) ++ parents (joinNodes isV2) (0, leaf) f :=
    mergeUp_eq c.crowned c.rising hcount rfl rfl
  rwa [List.nil_append] at hmerge

theorem Crested.append (c : Crested f m) (hn : m.leafCount + 1 < 2 ^ 63) :
    Crested (carry (joinNodes isV2) (0, leaf) f) (m.append leaf isV2) := by
  refine ⟨?_, (rising_carry _ c.rising fun p _ => Nat.zero_le _).1, ?_⟩
  · rw [nodes_append c hn]
    exact c.crowned.carry _ [] rfl leaf
  · rw [count_carry, c.leaves, Nat.pow_zero, Nat.add_comm]
    rfl

theorem Crested.root (c : Crested f m) (hn : m.leafCount < 2 ^ 63) :
    m.root isV2 = (bag (joinNodes isV2) (f.map Prod.snd)).getD 0 := by
  have hvalues := c.crowned.map_crown [] 0
  rw [List.append_nil] at hvalues
  rw [MerkleMountainRange.root, c.peaks_nodes hn, List.reverse_reverse, ← hvalues]
  cases crown (f.map Prod.fst) with
  | nil => rfl
  | cons last rest => rw [List.map_cons, bag, Option.getD_some, List.foldl_map]

/-- A range with leaves appended in turn. -/
def MerkleMountainRange.appendAll (m : MerkleMountainRange) (isV2 : Bool)
    (leaves : List Bytes32) : MerkleMountainRange :=
  leaves.foldl (fun m leaf => m.append leaf isV2) m

theorem leafCount_appendAll (m : MerkleMountainRange) (isV2 : Bool) (leaves : List Bytes32) :
    (m.appendAll isV2 leaves).leafCount = m.leafCount + leaves.length := by
  induction leaves generalizing m with
  | nil => rfl
  | cons leaf rest ih =>
    rw [MerkleMountainRange.appendAll, List.foldl_cons, ← MerkleMountainRange.appendAll, ih,
      List.length_cons, Nat.add_comm rest.length, ← Nat.add_assoc]
    rfl

theorem appendAll_append (m : MerkleMountainRange) (isV2 : Bool) (leaves more : List Bytes32) :
    m.appendAll isV2 (leaves ++ more) = (m.appendAll isV2 leaves).appendAll isV2 more :=
  List.foldl_append

theorem prefix_appendAll (m : MerkleMountainRange) (isV2 : Bool) (leaves : List Bytes32) :
    m.nodes <+: (m.appendAll isV2 leaves).nodes := by
  induction leaves generalizing m with
  | nil => exact List.prefix_rfl
  | cons leaf rest ih => exact (m.prefix_append leaf isV2).trans (ih _)

/-- The crest after a run of appends. -/
def crestOf (isV2 : Bool) (f : Crest Bytes32) (leaves : List Bytes32) : Crest Bytes32 :=
  leaves.foldl (fun f leaf => carry (joinNodes isV2) (0, leaf) f) f

theorem Crested.appendAll (c : Crested f m) (hn : m.leafCount + more.length < 2 ^ 63) :
    Crested (crestOf isV2 f more) (m.appendAll isV2 more) := by
  induction more generalizing f m with
  | nil => exact c
  | cons leaf rest ih =>
    rw [List.length_cons] at hn
    apply ih (c.append (by omega))
    rw [show (m.append leaf isV2).leafCount = m.leafCount + 1 from rfl]
    omega

theorem Crested.truncated_appendAll (c : Crested f m) (hk : m.leafCount ≤ k)
    (hn : m.leafCount + more.length < 2 ^ 63) :
    (m.appendAll isV2 more).truncated k = m.appendAll isV2 (more.take (k - m.leafCount)) := by
  have hlen := leafCount_appendAll m isV2 (more.take (k - m.leafCount))
  have htotal := leafCount_appendAll m isV2 more
  rw [List.length_take] at hlen
  have hgrow : m.appendAll isV2 more =
      (m.appendAll isV2 (more.take (k - m.leafCount))).appendAll isV2
        (more.drop (k - m.leafCount)) := by
    rw [← appendAll_append, List.take_append_drop]
  have hshaped : (m.appendAll isV2 (more.take (k - m.leafCount))).Shaped := by
    have hc : Crested (crestOf isV2 f (more.take (k - m.leafCount)))
        (m.appendAll isV2 (more.take (k - m.leafCount))) :=
      c.appendAll (by rw [List.length_take]; omega)
    exact hc.size (by omega)
  have hprefix : (m.appendAll isV2 (more.take (k - m.leafCount))).nodes <+:
      (m.appendAll isV2 more).nodes := by
    rw [hgrow]
    exact prefix_appendAll _ _ _
  have hcut := hshaped.truncated hprefix (by rw [hlen, htotal]; omega)
  rw [← hcut, hlen, MerkleMountainRange.truncated, MerkleMountainRange.truncated, htotal]
  have hmin : min k (m.leafCount + more.length) =
      min (m.leafCount + min (k - m.leafCount) more.length) (m.leafCount + more.length) := by
    omega
  rw [hmin]

end Ranges

end Midwimble
