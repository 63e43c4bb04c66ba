import Midwimble.Chain.Solved

namespace Midwimble
open SlidingWindow
set_option autoImplicit true

/-- The height and work of each block of a chain. -/
def works (blocks : List Batch) : List (Nat × Nat) :=
  blocks.zipIdx.map fun p => (p.2, p.1.work)

theorem works_append :
    works (blocks ++ [batch]) = works blocks ++ [(blocks.length, batch.work)] := by
  simp [works, List.zipIdx_append]

@[simp] theorem length_works : (works blocks).length = blocks.length := by
  simp [works]

theorem works_heights : HeightsFrom 0 (works blocks) := by
  unfold HeightsFrom
  rw [length_works, ← List.zipIdx_map_snd 0 blocks, works, List.map_map]
  rfl

theorem mem_works (h : p ∈ works blocks) : ∃ b ∈ blocks, p.2 = b.work := by
  obtain ⟨⟨b, i⟩, hb, rfl⟩ := List.mem_map.mp h
  exact ⟨b, List.fst_mem_of_mem_zipIdx hb, rfl⟩

theorem checkLinkage_eq_ok :
    checkLinkage s batch = .ok () ↔ batch.prevMidstate = s.mwMidstate ∧
      batch.prevHeaderHash = s.headerHash ∧ batch.target = s.target := by
  simp [checkLinkage, Fallible.check_bind_eq_ok, Fallible.bailIf_eq_ok]

variable [Primitives]

/-- The windows of a state after these blocks. -/
structure Windowed (blocks : List Batch) (s : State) : Prop where
  height : s.height = blocks.length
  target : s.target ≠ 0
  targets : ∀ b ∈ blocks, b.target ≠ 0
  signers : s.signers.Shows (blocks.map Batch.signer)
  floors : Floors s.workFloor (works blocks)

theorem windowed_genesis : Windowed [] .genesis where
  height := rfl
  target := by
    change genesisTarget ≠ 0
    decide
  targets := by simp
  signers := SignerWindow.shows_empty
  floors := floors_empty

theorem Windowed.block (h : Windowed blocks s) (hl : batch.target = s.target)
    (b : BlockSteps s batch ts skip) : Windowed (blocks ++ [batch]) b.next where
  height := by simp [h.height]
  target := by
    rw [b.next_target]
    exact calculateTarget_ne_zero
  targets := by
    intro x hx
    rcases List.mem_append.mp hx with hx | hx
    · exact h.targets x hx
    · rw [List.mem_singleton.mp hx, hl]
      exact h.target
  signers := by
    rw [b.next_signers, List.map_append]
    exact h.signers.push batch.signer
  floors := by
    rw [b.next_workFloor, works_append, ← h.height]
    exact capWork_floors h.floors works_heights (by rw [length_works, h.height, Nat.zero_add])

theorem Run.windowed (h : Run blocks s) : Windowed blocks s := by
  unfold Run at h
  induction h with
  | start => exact windowed_genesis
  | block _ ha ih =>
    obtain ⟨ts, now, pre, skip, ha⟩ := ha
    obtain ⟨hl, -, b, -, rfl⟩ := applyBatchInternal_eq_ok.mp ha
    exact ih.block (checkLinkage_eq_ok.mp hl).2.2 b

theorem BlockSteps.credit_bounds (h : Windowed blocks s) (hl : batch.target = s.target)
    (b : BlockSteps s batch ts skip) :
    1 ≤ b.credit.credited ∧ b.credit.credited ≤ batch.work := by
  have hwork : 0 < batch.work := calculateWork_pos (hl ▸ h.target)
  have hfloor : ∀ p ∈ s.workFloor, 0 < p.2 := by
    intro p hp
    rw [h.floors] at hp
    obtain ⟨x, hx, he⟩ := mem_works (lastN_suffix.mem (lowPoints_sublist.mem hp))
    rw [he]
    exact calculateWork_pos (h.targets x hx)
  have hcap : 0 < (capWork s.workFloor s.height batch.work).1 := capWork_pos hfloor hwork
  rw [b.credited_eq]
  exact ⟨creditInWindow_pos hcap, (creditInWindow_le hcap).trans capWork_le⟩

theorem BlockSteps.credited_unsigned (hs : batch.signer = none) (hh : s.height ≠ 0)
    (b : BlockSteps s batch ts skip) :
    b.credit.credited = sliver (capWork s.workFloor s.height batch.work).1 := by
  have hfrom : s.height ≥ bondedMiningFrom := Nat.pos_of_ne_zero hh
  rw [b.credited_eq, hs]
  simp only [creditInWindow, if_pos hfrom]

/-- The work and weight of a state after these blocks. -/
structure Weighed (blocks : List Batch) (s : State) : Prop where
  depth : s.depth = (blocks.map Batch.work).sum
  capped : s.capped ≤ s.depth
  tip : ∀ b, blocks.getLast? = some b → s.weight = b.chainWeight

theorem weighed_genesis : Weighed [] .genesis := ⟨rfl, Nat.le_refl _, by simp⟩

theorem BlockSteps.weight_next (hw : Windowed blocks s) (h : Weighed blocks s)
    (hl : batch.target = s.target) (hfit : ((blocks ++ [batch]).map Batch.work).sum < 2 ^ 128)
    (b : BlockSteps s batch ts skip) :
    b.next.depth = s.depth + batch.work ∧
      b.next.capped = s.capped + (batch.work - b.credit.credited) ∧
      b.next.weight = s.weight + b.credit.credited ∧
      batch.chainWeight = s.weight + b.credit.credited := by
  obtain ⟨hpos, hle⟩ := b.credit_bounds hw hl
  have hsum : s.depth + batch.work < 2 ^ 128 := by simpa [h.depth] using hfit
  have hcapped := h.capped
  have hchain := b.chainWeight_eq
  simp only [State.weight, b.next_depth, b.next_capped, satAdd128, u128Max] at hchain ⊢
  omega

theorem Weighed.block (hw : Windowed blocks s) (h : Weighed blocks s)
    (hl : batch.target = s.target) (hfit : ((blocks ++ [batch]).map Batch.work).sum < 2 ^ 128)
    (b : BlockSteps s batch ts skip) : Weighed (blocks ++ [batch]) b.next := by
  obtain ⟨hd, hc, hn, ht⟩ := b.weight_next hw h hl hfit
  have hle := (b.credit_bounds hw hl).2
  have hcapped := h.capped
  refine ⟨?_, by omega, ?_⟩
  · simp [hd, h.depth]
  · intro x hx
    rw [List.getLast?_concat, Option.some.injEq] at hx
    rw [hn, ← hx, ht]

theorem Run.weighed (h : Run blocks s) (hfit : (blocks.map Batch.work).sum < 2 ^ 128) :
    Weighed blocks s := by
  unfold Run at h
  induction h with
  | start => exact weighed_genesis
  | block hrun ha ih =>
    obtain ⟨ts, now, pre, skip, ha⟩ := ha
    obtain ⟨hl, -, b, -, rfl⟩ := applyBatchInternal_eq_ok.mp ha
    have hbelow := hfit
    rw [List.map_append, List.sum_append] at hbelow
    exact (ih (by omega)).block (Run.windowed hrun) (checkLinkage_eq_ok.mp hl).2.2 hfit b

theorem Applies.run (h : Run blocks s) (ha : Applies s more s') : Run (blocks ++ more) s' :=
  Applies.trans h ha

theorem Applies.heavier (h : Run blocks s) (ha : Applies s more s')
    (hfit : ((blocks ++ more).map Batch.work).sum < 2 ^ 128) (hmore : more ≠ []) :
    s.weight < s'.weight := by
  induction ha with
  | start => exact absurd rfl hmore
  | @block more t batch _ hs ha ih =>
    obtain ⟨ts, now, pre, skip, ha⟩ := ha
    obtain ⟨hl, -, b, -, rfl⟩ := applyBatchInternal_eq_ok.mp ha
    rw [← List.append_assoc] at hfit
    have hbelow := hfit
    rw [List.map_append, List.sum_append] at hbelow
    have hrun := Applies.run h hs
    have htarget := (checkLinkage_eq_ok.mp hl).2.2
    have hnext := (b.weight_next hrun.windowed (hrun.weighed (by omega)) htarget hfit).2.2.1
    have hpos := (b.credit_bounds hrun.windowed htarget).1
    by_cases hm : more = []
    · subst hm
      have hw : s.weight = t.weight := by rw [hs.eq_of_nil]
      omega
    · have := ih (by omega) hm
      omega

/-- Fork-choice bookkeeping of every state on a chain whose work sums stay below 2^128:
the weight is the tip's claim, the signer window is the last signers and their tally, and
every further block adds between one and its own work. -/
theorem fork_choice_bookkeeping (h : Run blocks s)
    (hfit : (blocks.map Batch.work).sum < 2 ^ 128) :
    s.height = blocks.length ∧
    (∀ tip, blocks.getLast? = some tip → s.weight = tip.chainWeight) ∧
    s.signers.recent = lastN (min s.height capWindow) (blocks.map Batch.signer) ∧
    (∀ id n, s.signers.counts[id]? = some n ↔
      0 < n ∧ s.signers.recent.count (some id) = n) ∧
    (∀ batch ts now pre skip s', applyBatchInternal s batch ts now pre skip = .ok s' →
      ((blocks ++ [batch]).map Batch.work).sum < 2 ^ 128 →
      ∃ b : BlockSteps s batch ts skip, b.next = s' ∧
        1 ≤ b.credit.credited ∧ b.credit.credited ≤ batch.work ∧
        s'.capped = s.capped + (batch.work - b.credit.credited) ∧
        s'.weight = s.weight + b.credit.credited) ∧
    (∀ more s', Applies s more s' → ((blocks ++ more).map Batch.work).sum < 2 ^ 128 →
      more ≠ [] → s.weight < s'.weight) := by
  have hw := h.windowed
  have hd := h.weighed hfit
  refine ⟨hw.height, hd.tip, ?_, ?_, ?_, fun more s' ha hf hm => Applies.heavier h ha hf hm⟩
  · rw [hw.signers.recent, hw.height, ← List.length_map Batch.signer, lastN_min]
  · intro id n
    rw [hw.signers.tally id]
    split
    · simp
      omega
    · rw [Option.some.injEq]
      omega
  · intro batch ts now pre skip s' ha hf
    obtain ⟨hl, -, b, -, rfl⟩ := applyBatchInternal_eq_ok.mp ha
    have htarget := (checkLinkage_eq_ok.mp hl).2.2
    obtain ⟨hpos, hle⟩ := b.credit_bounds hw htarget
    obtain ⟨-, hc, hn, -⟩ := b.weight_next hw hd htarget hf
    exact ⟨b, rfl, hpos, hle, hc, hn⟩

omit [Primitives] in
/-- An unsigned block, of which a sliver counts, and two that a bond signs, which count in full. -/
theorem fork_choice_bookkeeping_raced :
    letI := racedPrimitives
    newMiddleState.weight = newMiddle.chainWeight ∧
      newMiddleState.signers.recent = [none, none, some 0] ∧
      newMiddleState.signers.counts[(0 : Bytes32)]? = some 1 ∧
      0 < newMiddleState.capped ∧
      newTopState.weight = newMiddleState.weight + newTop.work ∧
      newMiddleState.weight < newTopState.weight := by
  let := racedPrimitives
  have hfit : ([Batch.genesis, newBlock, newMiddle].map Batch.work).sum < 2 ^ 128 := by
    decide +kernel
  have hfit' : (([Batch.genesis, newBlock, newMiddle] ++ [newTop]).map Batch.work).sum <
      2 ^ 128 := by
    decide +kernel
  obtain ⟨-, htip, hrecent, hcounts, hnext, hmore⟩ :=
    fork_choice_bookkeeping newMiddleState_chain.run hfit
  have hsigners : newMiddleState.signers.recent = [none, none, some 0] := by
    rw [hrecent]
    decide +kernel
  have haccepted : applyBatch newMiddleState newTop _ newTop.timestamp = .ok newTopState :=
    raced_blocks.2.2.2.2.1.accepted
  obtain ⟨b, -, -, hle, hcapped, hweight⟩ := hnext _ _ _ _ _ _ haccepted hfit'
  have hsame : newTopState.capped = newMiddleState.capped := by decide +kernel
  refine ⟨htip _ rfl, hsigners, (hcounts 0 1).mpr ⟨Nat.one_pos, ?_⟩, by decide +kernel, ?_,
    hmore [newTop] _ (Applies.start.block ⟨_, _, _, _, haccepted⟩) hfit' (List.cons_ne_nil _ _)⟩
  · rw [hsigners]
    decide
  · omega

end Midwimble
