import Midwimble.Core.Orphan
import Midwimble.Sync.Headers

namespace Midwimble
open Fallible
set_option autoImplicit true

/-- A block with what the work cap let fork choice credit it and what it was credited. -/
structure CreditedBlock where
  block : Batch
  creditable : Nat
  credited : Nat

namespace CreditedBlock

/-- Fork choice credited all the creditable work. -/
def InFull (c : CreditedBlock) : Prop := c.credited = c.creditable

instance (c : CreditedBlock) : Decidable c.InFull := inferInstanceAs (Decidable (_ = _))

/-- The block's work exceeds one and the work cap left it more than a sliver of it. -/
def Telling (c : CreditedBlock) : Prop :=
  1 < c.block.work ∧ max (c.block.work / overCapWorkDivisor) 1 < c.creditable

/-- All the creditable work or a sliver of it. -/
structure Weighs (c : CreditedBlock) : Prop where
  creditable : c.creditable ≤ c.block.work
  credited : c.credited = c.creditable ∨ c.credited = sliver c.creditable

theorem fullWeight_iff {c : CreditedBlock} (h : c.Weighs) (ht : c.Telling) :
    (fullWeight c.credited c.block.work = true ↔ c.credited = c.creditable) ∧
      (fullWeight c.credited c.block.work = false ↔ c.credited = sliver c.creditable) := by
  obtain ⟨hle, hcredited⟩ := h
  obtain ⟨hwork, hcap⟩ := ht
  have hdiv : c.creditable / overCapWorkDivisor ≤ c.block.work / overCapWorkDivisor :=
    Nat.div_le_div_right hle
  have hfull : fullWeight c.credited c.block.work = true ↔
      c.credited > sliver c.block.work ∨ c.credited = c.block.work := decide_eq_true_iff
  rw [← Bool.not_eq_true, hfull]
  simp only [sliver, overCapWorkDivisor] at hcredited hcap hdiv ⊢
  omega

end CreditedBlock

variable [Primitives]

/-- Accepted blocks on genesis, each with its credit. -/
inductive CreditedRun : List CreditedBlock → State → Prop
  | start : CreditedRun [] .genesis
  | block : CreditedRun chain t → Accepts t batch s →
      (b : BlockSteps t batch ts skip) → b.next = s →
      CreditedRun (chain ++ [⟨batch, (capWork t.workFloor t.height batch.work).1,
        b.credit.credited⟩]) s

theorem Run.credited (h : Run blocks s) :
    ∃ chain, CreditedRun chain s ∧ chain.map CreditedBlock.block = blocks := by
  unfold Run at h
  induction h with
  | start => exact ⟨[], .start, rfl⟩
  | block hrun ha ih =>
    obtain ⟨chain, hchain, rfl⟩ := ih
    have haccepts := ha
    obtain ⟨ts, now, pre, skip, ha⟩ := ha
    obtain ⟨-, -, b, -, hnext⟩ := applyBatchInternal_eq_ok.mp ha
    exact ⟨_, hchain.block haccepts b hnext, by simp⟩

namespace CreditedRun

theorem run (h : CreditedRun chain s) : Run (chain.map CreditedBlock.block) s := by
  induction h with
  | start => exact .start
  | block _ ha _ _ ih =>
    rw [List.map_append]
    exact .block ih ha

end CreditedRun

/-- A credited block among those below it. -/
structure CreditedAbove (below : List Batch) (c : CreditedBlock) : Prop where
  weighs : c.Weighs
  chainWeight : c.block.chainWeight = tipWeight below + c.credited
  links : ∀ tip, below.getLast? = some tip → c.block.prevHeaderHash = tip.extension.finalHash

theorem CreditedRun.above {below above : List CreditedBlock} (h : CreditedRun chain s)
    (hfit : (chain.map fun c => c.block.work).sum < 2 ^ 128)
    (hs : chain = below ++ c :: above) :
    CreditedAbove (below.map CreditedBlock.block) c := by
  induction h generalizing above with
  | start => simp at hs
  | @block chain t batch s ts skip hrun ha b hnext ih =>
    rcases List.eq_nil_or_concat above with rfl | ⟨above, x, rfl⟩
    · obtain ⟨rfl, hc⟩ := List.append_inj' hs rfl
      rw [List.singleton_inj] at hc
      subst hc
      have hr := hrun.run
      obtain ⟨ts', now, pre, skip', ha⟩ := ha
      obtain ⟨hl, -, -⟩ := applyBatchInternal_eq_ok.mp ha
      obtain ⟨-, hp, ht⟩ := checkLinkage_eq_ok.mp hl
      have hsum : ((chain.map CreditedBlock.block ++ [batch]).map Batch.work).sum < 2 ^ 128 := by
        simpa [List.map_map, Function.comp_def] using hfit
      have hbelow := hsum
      rw [List.map_append, List.sum_append] at hbelow
      have hd := hr.weighed (by omega)
      refine ⟨⟨capWork_le, ?_⟩, ?_, fun tip htip => ?_⟩
      · rw [b.credited_eq]
        exact creditInWindow_credited _ _ _ _ _ _
      · rw [← hd.tipWeight]
        exact (b.weight_next hr.windowed hd ht hsum).2.2.2
      · rw [hp]
        exact (hr.endsAt.tip tip htip).1
    · rw [List.concat_eq_append, ← List.cons_append, ← List.append_assoc] at hs
      have hbelow := hfit
      rw [List.map_append, List.sum_append] at hbelow
      exact ih (by omega) (List.append_inj_left' hs rfl)

theorem weightBefore_headerBefore (below : List Batch) (b : Batch) :
    weightBefore (headerBefore below) (b.headerAt below.length) = some (tipWeight below) := by
  rcases List.eq_nil_or_concat below with rfl | ⟨below, tip, rfl⟩
  · rfl
  · simp [weightBefore, headerBefore, tipWeight]

namespace CreditedAbove

theorem countedInFull_eq {c : CreditedBlock} (h : CreditedAbove below c) :
    countedInFull (c.block.headerAt below.length) (tipWeight below) =
      fullWeight c.credited c.block.work := by
  rw [countedInFull, headerAt_chainWeight, headerAt_work, h.chainWeight, Nat.add_sub_cancel_left]

theorem countedInFull_iff {c : CreditedBlock} (h : CreditedAbove below c) (ht : c.Telling) :
    countedInFull (c.block.headerAt below.length) (tipWeight below) = true ↔ c.InFull := by
  rw [h.countedInFull_eq]
  exact (CreditedBlock.fullWeight_iff h.weighs ht).1

end CreditedAbove

/-- The blocks of a run that counted in full, from a height on. -/
def inFullFrom (fromHeight height : Nat) (run : List CreditedBlock) : Nat :=
  (run.zipIdx height).countP fun p => fromHeight ≤ p.2 ∧ p.1.InFull

theorem CreditedRun.countFullWeight_eq {below run above : List CreditedBlock}
    (h : CreditedRun chain s) (hfit : (chain.map fun c => c.block.work).sum < 2 ^ 128)
    (hs : chain = below ++ (run ++ above)) (ht : ∀ c ∈ run, c.Telling) :
    countFullWeight fromHeight (headerBefore (below.map CreditedBlock.block))
        (headersFrom below.length (run.map CreditedBlock.block)) =
      inFullFrom fromHeight below.length run := by
  induction run generalizing below with
  | nil => rfl
  | cons c run ih =>
    have habove := h.above hfit hs
    have hs' : chain = (below ++ [c]) ++ (run ++ above) := by simp [hs]
    have hrest := ih hs' fun d hd => ht d (List.mem_cons_of_mem _ hd)
    have hbefore : headerBefore ((below ++ [c]).map CreditedBlock.block) =
        some (c.block.headerAt below.length) := by simp [headerBefore]
    have hweight := weightBefore_headerBefore (below.map CreditedBlock.block) c.block
    have hiff := habove.countedInFull_iff (ht c List.mem_cons_self)
    rw [List.length_map] at hweight hiff
    rw [hbefore, List.length_append, List.length_singleton] at hrest
    rw [List.map_cons, headersFrom, countFullWeight, hrest, hweight]
    simp only [Option.any_some, hiff, inFullFrom, List.zipIdx_cons, List.countP_cons,
      headerAt_height, ge_iff_le, decide_eq_true_eq]
    exact Nat.add_comm _ _

end Midwimble
