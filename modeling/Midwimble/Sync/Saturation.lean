import Midwimble.Sync.Headers
import Midwimble.Template.Rushed

namespace Midwimble
open Fallible
set_option autoImplicit true

section Refused

variable [Primitives] {batch batch' : Batch} {ts ts' : List Nat} {skip skip' : Bool}

theorem BlockSteps.claim_falls (h : Run blocks s) (ht : batch.target = s.target)
    (hdepth : s.depth = u128Max) (b : BlockSteps s batch ts skip)
    (b' : BlockSteps b.next batch' ts' skip') (hpos : 0 < b'.credit.credited) :
    batch'.chainWeight < batch.chainWeight + b'.credit.credited := by
  have hcredit := (b.credit_bounds h.windowed ht).1
  rw [b'.chainWeight_eq, b.chainWeight_eq]
  simp only [State.weight, b.next_depth, b.next_capped, hdepth, satAdd128]
  omega

theorem saturated_header_refused (h : Run blocks s) (ht : batch.target = s.target)
    (hdepth : s.depth = u128Max) (b : BlockSteps s batch ts skip)
    (b' : BlockSteps b.next batch' ts' skip') (hs : batch'.signer = none)
    (prior : List Nat) (checkPow : Bool) (now : Nat) :
    verifyHeaderChain [batch'.headerAt b.next.height] prior batch.chainWeight b.next.workFloor
      checkPow now ≠ .ok () := by
  have hheight : b.next.height ≠ 0 := by
    rw [b.next_height]
    exact Nat.succ_ne_zero _
  have hcredit := b'.credited_unsigned hs hheight
  have hlt := b.claim_falls h ht hdepth b' (hcredit ▸ sliver_pos _)
  intro hok
  simp only [verifyHeaderChain, verifyHeaderChainWith, check_bind_eq_ok, checkWeights,
    bailIf_eq_ok, headerAt_height, headerAt_signer, headerAt_chainWeight, headerAt_work, hs,
    not_not] at hok
  obtain ⟨⟨⟨hle, hposs⟩, -⟩, -⟩ := hok
  rw [Option.isSome_none, creditPossible, decide_eq_true_eq, ← hcredit] at hposs
  · omega
  · exact decide_eq_true (Nat.pos_of_ne_zero hheight)

end Refused

/-- Headers-first sync refuses some valid chains: a contiguous run of one header of an
accepted chain, with all timestamps below it, its parent's claimed weight and the window
after its parent. -/
theorem headers_refused_when_saturated :
    letI := Primitives.words
    ∃ latest below b s t, Chain latest (below ++ [b]) s ∧ Run below t ∧
      ∀ checkPow now, verifyHeaderChain (headersFrom below.length [b])
        (below.map Batch.timestamp) (tipWeight below) t.workFloor checkPow now ≠ .ok () := by
  let := Primitives.words
  obtain ⟨blocks, s, h, hs, hdepth, -⟩ := rushed_saturates (Nat.le_refl _)
  have hstamp : rushedStamp s.height + 1 ≤ rushedStamp 30000 := by
    rw [hs]
    decide
  have hfits : rushedStamp 30000 < 2 ^ 64 := by decide
  obtain ⟨t, -, -, -, -, -, htarget, -, b, -, h'⟩ := h.mines (by omega) (by omega)
  have hstamp' : rushedStamp b.next.height ≤ rushedStamp 30000 := by
    rw [b.next_height]
    exact hstamp
  obtain ⟨t', -, -, -, -, -, -, hsigner, b', hok, h''⟩ := h'.mines (by omega) hstamp'
  refine ⟨_, blocks ++ [t.solved ⟨0, 0⟩ none], t'.solved ⟨0, 0⟩ none, _, _, h''.chain,
    h'.chain.run, fun checkPow now => ?_⟩
  have hlen : (blocks ++ [t.solved ⟨0, 0⟩ none]).length = b.next.height := h'.height.symm
  have htip : tipWeight (blocks ++ [t.solved ⟨0, 0⟩ none]) =
      (t.solved ⟨0, 0⟩ none).chainWeight := by
    rw [tipWeight, List.getLast?_concat]
    rfl
  rw [hlen, htip]
  exact saturated_header_refused h.chain.run htarget hdepth b b' hsigner _ _ _

end Midwimble
