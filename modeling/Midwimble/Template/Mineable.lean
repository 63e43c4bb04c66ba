import Midwimble.Template.Rushed

namespace Midwimble
open Fallible
set_option autoImplicit true

variable [Primitives]

/-- A template built on a reachable state is mineable, and so is one bound to other miner data. -/
theorem template_mineable (hr : RangeProofsComplete) (hs : Reachable s)
    (h : buildTemplateRelayed s ts txs payouts extra timestamp bond feed now draw =
      .ok (t, receipts))
    (htxs : ∀ tx ∈ txs, tx.verifyCrypto = .ok ())
    (hpow : ∀ r ∈ t.batch.relay, ∀ start, relayStart s t.batch = some start →
      r.verifyPow start = .ok ()) :
    t.Mineable s ts ∧
      ∀ extra aux, ∃ t', rebind t extra bond aux = .ok t' ∧ t'.Mineable s ts := by
  obtain ⟨blocks, hrun⟩ := hs
  obtain ⟨T⟩ := templateOf_build hr h htxs hpow
  refine ⟨T.mineable hrun, fun extra aux => ?_⟩
  obtain ⟨t', hok, hrem, hsign, hheight, hsub, hhash⟩ := rebind_remade T extra aux
  obtain ⟨T'⟩ := T.remade hrem hsign hheight hsub hhash
  exact ⟨t', hok, T'.mineable hrun⟩

omit [Primitives] in
theorem template_mineable_first :
    letI := Primitives.words
    ∃ t receipts, buildTemplateRelayed .first [genesisTimestamp] [] [(payee, 1)] 0
        (some (rushedStamp 1)) none none 0 (rushedTemplateDraw 1) = .ok (t, receipts) ∧
      t.Mineable .first [genesisTimestamp] := by
  let := Primitives.words
  obtain ⟨t, receipts, hbuild, -, -, hrelay, -⟩ := (rushed_first 0).builds (by decide)
  refine ⟨t, receipts, hbuild, (template_mineable rangeProofs_rushed ⟨_, genesis_run⟩ hbuild
    (fun _ hm => absurd hm List.not_mem_nil) fun r hr => ?_).1⟩
  rw [hrelay] at hr
  cases hr

omit [Primitives] in
/-- On a chain whose depth is saturated, a template claims a weight its block does not leave:
the depth stays where it is while more of it is withheld. -/
theorem template_outweighs_saturated_chain :
    letI := Primitives.words
    ∃ s ts t receipts s', Reachable s ∧
      buildTemplateRelayed s ts [] [(payee, 1)] 0 (some (rushedStamp s.height)) none none 0
        (rushedTemplateDraw s.height) = .ok (t, receipts) ∧
      t.batch.relay = none ∧
      validateTimestamp t.batch.timestamp ts (rushedStamp s.height) = .ok () ∧
      verifyPow s.height t.miningHash ⟨0, 0⟩ t.batch.target none = .ok () ∧
      applyBatch s (t.solved ⟨0, 0⟩ none) ts (rushedStamp s.height) = .ok s' ∧
      s'.weight ≠ t.batch.chainWeight := by
  let := Primitives.words
  obtain ⟨blocks, s, h, hs, hdepth, hcapped⟩ := rushed_saturates (Nat.le_refl _)
  have hstamp : rushedStamp s.height ≤ rushedStamp 30000 := by
    rw [hs]
    decide
  have hfits : rushedStamp 30000 < 2 ^ 64 := by decide
  obtain ⟨t, receipts, hbuild, hvalid, hpow, hrelay, htarget, -, b, hok, -⟩ :=
    h.mines (by omega) hstamp
  refine ⟨s, _, t, receipts, b.next, ⟨_, h.chain.run⟩, hbuild, hrelay, hvalid, hpow, hok, ?_⟩
  exact b.weight_ne_of_saturated h.chain.run htarget hdepth hcapped

end Midwimble
