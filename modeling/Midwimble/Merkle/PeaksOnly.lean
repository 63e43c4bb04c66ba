import Midwimble.Merkle.Range

namespace Midwimble
open Mountain
set_option autoImplicit true

theorem crowned_sets (f : Crest Bytes32) (more : List Bytes32) :
    ∃ nodes, Crowned f nodes ∧
      ((crown (f.map Prod.fst)).zip (f.map Prod.snd)).foldr (fun p nodes => nodes.set p.1 p.2)
        (List.replicate (span (f.map Prod.fst)) 0 ++ more) = nodes ++ more := by
  induction f generalizing more with
  | nil => exact ⟨[], .nil, rfl⟩
  | cons p f ih =>
    obtain ⟨h, v⟩ := p
    have hw := width_pos h
    obtain ⟨nodes, hc, hsets⟩ := ih (List.replicate (width h) 0 ++ more)
    refine ⟨nodes ++ (List.replicate (width h - 1) 0 ++ [v]),
      hc.snoc _ (by rw [List.length_replicate]; omega) v, ?_⟩
    have hblank : List.replicate (width h) (0 : Bytes32) =
        List.replicate (width h - 1) 0 ++ [0] := by
      rw [← List.replicate_succ', Nat.sub_add_cancel hw]
    have hat : span (h :: f.map Prod.fst) - 1 = nodes.length + (width h - 1) := by
      rw [span_cons, hc.length]
      omega
    simp only [List.map_cons, crown, List.zip_cons_cons, List.foldr_cons]
    rw [hat, span_cons, Nat.add_comm (width h), List.replicate_add, List.append_assoc, hsets,
      List.set_append_right _ _ (Nat.le_add_right _ _),
      Nat.add_sub_cancel_left, hblank, List.append_assoc, List.set_append_right _ _ (by simp)]
    simp

theorem Crested.fromPeaks (c : Crested f m) (hn : m.leafCount < 2 ^ 63) :
    ∃ p, mmrFromPeaks m.leafCount (f.map Prod.snd).reverse = .ok p ∧ Crested f p ∧
      p.leafCount = m.leafCount := by
  obtain ⟨nodes, hc, hsets⟩ := crowned_sets f []
  have hlen : (peaks (mmrSize m.leafCount)).length = (f.map Prod.snd).reverse.length := by
    rw [← c.size hn, c.peaks_nodes hn]
    simp
  have hspan : mmrSize m.leafCount = span (f.map Prod.fst) := by
    rw [← c.size hn, c.crowned.length]
  have hzip : ((crown (f.map Prod.fst)).reverse.zip (f.map Prod.snd).reverse) =
      ((crown (f.map Prod.fst)).zip (f.map Prod.snd)).reverse := by
    exact (List.reverse_zipWith (by simp)).symm
  simp only [List.append_nil] at hsets
  refine ⟨⟨nodes, m.leafCount⟩, ?_, ⟨hc, c.rising, c.leaves⟩, rfl⟩
  rw [mmrFromPeaks, Fallible.bailIf_neg (not_not.mpr hlen), ← c.size hn, c.peaks_nodes hn, hzip,
    List.foldl_reverse, c.size hn, hspan, hsets]
  rfl

section PeaksOnly

variable [Primitives]

/-- A range kept by its peaks alone grows and is cut back with the roots and the peaks of
the whole one. -/
theorem peaks_only_range_agrees (isV2 rootV2 : Bool) (leaves more : List Bytes32)
    (hn : leaves.length + more.length < 2 ^ 63) :
    let m := MerkleMountainRange.new.appendAll isV2 leaves
    ∃ values p, mmrPeakValues m = .ok values ∧ mmrFromPeaks leaves.length values = .ok p ∧
      (∀ steps, steps <+: more →
        (p.appendAll isV2 steps).root rootV2 = (m.appendAll isV2 steps).root rootV2 ∧
        ∃ peaks, mmrPeakValues (p.appendAll isV2 steps) = .ok peaks ∧
          mmrPeakValues (m.appendAll isV2 steps) = .ok peaks) ∧
      ∀ k, leaves.length ≤ k →
        ((p.appendAll isV2 more).truncated k).root rootV2 =
          (MerkleMountainRange.new.appendAll isV2 ((leaves ++ more).take k)).root rootV2 := by
  intro m
  have hcount : m.leafCount = leaves.length := by
    rw [leafCount_appendAll]
    exact Nat.zero_add _
  have hm : Crested (crestOf isV2 [] leaves) m :=
    crested_new.appendAll (by rw [show MerkleMountainRange.new.leafCount = 0 from rfl]; omega)
  obtain ⟨p, hp, hpc, hpl⟩ := hm.fromPeaks (by omega)
  rw [hcount] at hp hpl
  -- both ranges have the crest of the same run of appends
  have hboth (steps : List Bytes32) (hs : steps.length ≤ more.length) :
      Crested (crestOf isV2 (crestOf isV2 [] leaves) steps) (p.appendAll isV2 steps) ∧
      Crested (crestOf isV2 (crestOf isV2 [] leaves) steps) (m.appendAll isV2 steps) :=
    ⟨hpc.appendAll (by omega), hm.appendAll (by omega)⟩
  have hroots (steps : List Bytes32) (hs : steps.length ≤ more.length) :
      (p.appendAll isV2 steps).root rootV2 = (m.appendAll isV2 steps).root rootV2 := by
    obtain ⟨h1, h2⟩ := hboth steps hs
    rw [h1.root (by rw [leafCount_appendAll]; omega), h2.root (by rw [leafCount_appendAll]; omega)]
  refine ⟨_, p, hm.peakValues (by omega), hp, fun steps hs => ?_, fun k hk => ?_⟩
  · have hle := hs.length_le
    obtain ⟨h1, h2⟩ := hboth steps hle
    exact ⟨hroots steps hle, _, h1.peakValues (by rw [leafCount_appendAll]; omega),
      h2.peakValues (by rw [leafCount_appendAll]; omega)⟩
  · rw [hpc.truncated_appendAll (by omega) (by omega), hpl,
      hroots _ (by rw [List.length_take]; omega), ← appendAll_append, List.take_append,
      List.take_of_length_le hk]

omit [Primitives] in
theorem peaks_only_range_agrees_three :
    letI := Primitives.words
    ∃ values p, mmrPeakValues (MerkleMountainRange.new.appendAll true [1, 2, 3]) = .ok values ∧
      mmrFromPeaks 3 values = .ok p ∧
      ((p.appendAll true [4, 5]).truncated 4).root true =
        (MerkleMountainRange.new.appendAll true [1, 2, 3, 4]).root true :=
  letI := Primitives.words
  have ⟨values, p, hv, hp, _, hcut⟩ :=
    peaks_only_range_agrees true true [1, 2, 3] [4, 5] (by decide)
  ⟨values, p, hv, hp, hcut 4 (by decide)⟩

end PeaksOnly

end Midwimble
