import Midwimble.Core.Sync
import Midwimble.ForkChoice.Weight

namespace Midwimble
open SlidingWindow Fallible
set_option autoImplicit true

theorem getLast?_lastN {l : List α} (hn : 0 < n) : (lastN n l).getLast? = l.getLast? := by
  rw [lastN, List.getLast?_drop]
  by_cases hl : l.length = 0
  · simp [List.length_eq_zero_iff.mp hl]
  · rw [if_neg (by omega)]

theorem medianTimeFloor_lastN :
    medianTimeFloor (lastN medianTimePastWindow ts) = medianTimeFloor ts := by
  by_cases h : ts.length ≥ medianTimePastWindow
  · have hl : (lastN medianTimePastWindow ts).length = medianTimePastWindow := by
      rw [length_lastN, Nat.min_eq_left h]
    have hr : (lastN medianTimePastWindow ts).reverse =
        ts.reverse.take medianTimePastWindow := by
      rw [lastN, List.reverse_drop]
      congr 1
      omega
    rw [medianTimeFloor, medianTimeFloor, if_pos (by omega), if_pos h, hr, List.take_take,
      Nat.min_self]
  · rw [lastN_of_length_le (by omega)]

/-- Timestamps that agree as far as the next block's rules look. -/
def SameWindow (ts ts' : List Nat) : Prop :=
  lastN medianTimePastWindow ts = lastN medianTimePastWindow ts'

theorem SameWindow.median (h : SameWindow ts ts') : medianTimeFloor ts = medianTimeFloor ts' := by
  rw [← medianTimeFloor_lastN, h, medianTimeFloor_lastN]

theorem SameWindow.last (h : SameWindow ts ts') : ts.getLast? = ts'.getLast? := by
  have hn : 0 < medianTimePastWindow := by decide
  rw [← getLast?_lastN hn, h, getLast?_lastN hn]

theorem SameWindow.push (h : SameWindow ts ts') :
    SameWindow (lastN medianTimePastWindow (ts ++ [t])) (ts' ++ [t]) := by
  unfold SameWindow
  rw [lastN_lastN (Nat.le_refl _), ← lastN_lastN_append, h, lastN_lastN_append]

theorem sameWindow_of_suffix (hs : ts' <:+ ts)
    (hl : min ts.length medianTimePastWindow ≤ ts'.length) : SameWindow ts' ts := by
  have hle := hs.length_le
  have hlen : (lastN medianTimePastWindow ts').length = (lastN medianTimePastWindow ts).length := by
    rw [length_lastN, length_lastN]
    omega
  exact (List.suffix_of_suffix_length_le (lastN_suffix.trans hs) lastN_suffix hlen.le).eq_of_length
    hlen

theorem SameWindow.validateTimestamp (h : SameWindow ts ts') (hn : latest ≤ now)
    (hv : Midwimble.validateTimestamp timestamp ts' latest = .ok ()) :
    Midwimble.validateTimestamp timestamp ts now = .ok () := by
  rw [validateTimestamp_eq_ok] at hv ⊢
  refine ⟨hv.1.trans ?_, fun floor hf => hv.2 floor (h.median ▸ hf)⟩
  simp only [satAdd64]
  omega

/-- The claimed weight of the chain these blocks are. -/
def tipWeight (blocks : List Batch) : Nat := (blocks.getLast?.map Batch.chainWeight).getD 0

/-- The work floor after these blocks. -/
def floorAfter (blocks : List Batch) : List (Nat × Nat) :=
  lowPoints Prod.snd (lastN workCapWindow (works blocks))

theorem capWork_floorAfter :
    (capWork (floorAfter blocks) blocks.length batch.work).2 = floorAfter (blocks ++ [batch]) := by
  unfold floorAfter
  rw [works_append]
  exact capWork_floors rfl works_heights (by rw [length_works, Nat.zero_add])

theorem Weighed.tipWeight (h : Weighed blocks s) : s.weight = Midwimble.tipWeight blocks := by
  unfold Midwimble.tipWeight
  cases hb : blocks.getLast? with
  | none =>
    have hd := h.depth
    rw [List.getLast?_eq_none_iff.mp hb, List.map_nil, List.sum_nil] at hd
    simp [State.weight, hd]
  | some tip => simpa using h.tip tip hb

theorem checkWeights_cons (hw : weight ≤ header.chainWeight)
    (hp : creditPossible (capWork floor header.height (calculateWork header.target)).1
      header.signer.isSome header.height (header.chainWeight - weight))
    (hrest : checkWeights header.chainWeight
      (capWork floor header.height (calculateWork header.target)).2 rest = .ok ()) :
    checkWeights weight floor (header :: rest) = .ok () := by
  rw [checkWeights, check_bind_eq_ok, bailIf_eq_ok, not_not]
  exact ⟨⟨hw, hp⟩, hrest⟩

variable [Primitives]

/-- The headers of a run of blocks whose first is at `height`. -/
def headersFrom : (height : Nat) → List Batch → List BatchHeader
  | _, [] => []
  | height, b :: rest => b.headerAt height :: headersFrom (height + 1) rest

@[simp] theorem headerAt_height (b : Batch) (height : Nat) :
    (b.headerAt height).height = height := rfl

@[simp] theorem headerAt_signer (b : Batch) (height : Nat) :
    (b.headerAt height).signer = b.signer := rfl

@[simp] theorem headerAt_chainWeight (b : Batch) (height : Nat) :
    (b.headerAt height).chainWeight = b.chainWeight := rfl

@[simp] theorem headerAt_work (b : Batch) (height : Nat) :
    calculateWork (b.headerAt height).target = b.work := rfl

/-- What acceptance on top of these blocks says of a block's header. -/
structure Linked (latest : Nat) (below : List Batch) (b : Batch) : Prop where
  first : below = [] → b.target = genesisTarget
  follows : ∀ tip, below.getLast? = some tip →
    b.prevHeaderHash = tip.extension.finalHash ∧
      b.prevMidstate = foldBlock tip.prevMidstate tip ∧
      b.target = calculateTarget below.length tip.timestamp
  weighs : ∃ credited, b.chainWeight = tipWeight below + credited ∧
    creditPossible (capWork (floorAfter below) below.length b.work).1 b.signer.isSome
      below.length credited
  timestamp : below ≠ [] →
    validateTimestamp b.timestamp (below.map Batch.timestamp) latest = .ok ()
  pow : below ≠ [] → verifyPow below.length (computeHeaderHash (b.headerAt below.length))
    b.extension b.target b.auxPow = .ok ()

/-- Where the chain of a state ends. -/
structure EndsAt (blocks : List Batch) (s : State) : Prop where
  genesis : blocks = [] → s.target = genesisTarget
  tip : ∀ tip, blocks.getLast? = some tip → s.headerHash = tip.extension.finalHash ∧
    s.mwMidstate = foldBlock tip.prevMidstate tip ∧
    s.target = calculateTarget blocks.length tip.timestamp

theorem endsAt_genesis : EndsAt [] .genesis := ⟨fun _ => rfl, by simp⟩

theorem BlockSteps.endsAt (b : BlockSteps s batch ts skip) (hw : Windowed blocks s)
    (hl : checkLinkage s batch = .ok ()) : EndsAt (blocks ++ [batch]) b.next := by
  refine ⟨by simp, fun tip ht => ?_⟩
  rw [List.getLast?_concat, Option.some.injEq] at ht
  subst ht
  rw [b.next_eq, (checkLinkage_eq_ok.mp hl).1, List.length_append, List.length_singleton,
    hw.height]
  exact ⟨rfl, rfl, rfl⟩

theorem Run.endsAt (h : Run blocks s) : EndsAt blocks s := by
  unfold Run at h
  cases h with
  | start => exact endsAt_genesis
  | block hrun ha =>
    obtain ⟨ts, now, pre, skip, ha⟩ := ha
    obtain ⟨hl, -, b, -, rfl⟩ := applyBatchInternal_eq_ok.mp ha
    exact b.endsAt (Run.windowed hrun) hl

theorem candidateHeader_hash (hl : checkLinkage s batch = .ok ()) (height : Nat) :
    computeHeaderHash (candidateHeader s batch) = computeHeaderHash (batch.headerAt height) := by
  obtain ⟨hm, hh, -⟩ := checkLinkage_eq_ok.mp hl
  simp only [computeHeaderHash, candidateHeader, Batch.headerAt, Batch.header, hm, hh]

/-- A block accepted at the end of a chain links to it. -/
theorem linked_of_accepted (h : Run blocks s) (hnow : now ≤ latest)
    (ha : applyBatch s batch (blocks.map Batch.timestamp) now = .ok s')
    (hfit : ((blocks ++ [batch]).map Batch.work).sum < 2 ^ 128) : Linked latest blocks batch := by
  obtain ⟨hl, hh, b, -, rfl⟩ := applyBatchInternal_eq_ok.mp ha
  obtain ⟨hm, hp, ht⟩ := checkLinkage_eq_ok.mp hl
  have hw := h.windowed
  have hbelow := hfit
  rw [List.map_append, List.sum_append] at hbelow
  have hd := h.weighed (by omega)
  have hend := h.endsAt
  have hheader : blocks ≠ [] →
      validateTimestamp batch.timestamp (blocks.map Batch.timestamp) now = .ok () ∧
        verifyPow s.height (computeHeaderHash (candidateHeader s batch)) batch.extension
          batch.target batch.auxPow = .ok () := by
    intro hne
    have h0 : s.height ≠ 0 := by
      rw [hw.height]
      exact fun hz => hne (List.length_eq_zero_iff.mp hz)
    rw [checkHeader, if_neg h0] at hh
    exact check_bind_eq_ok.mp hh
  refine ⟨fun he => ?_, fun tip htip => ?_, ⟨b.credit.credited, ?_, ?_⟩, fun hne => ?_,
    fun hne => ?_⟩
  · rw [ht, hend.genesis he]
  · rw [hm, hp, ht]
    exact hend.tip tip htip
  · rw [(b.weight_next hw hd ht hfit).2.2.2, hd.tipWeight]
  · rw [b.credited_eq, hw.floors, hw.height]
    exact creditInWindow_possible
  · exact SameWindow.validateTimestamp rfl hnow (hheader hne).1
  · have hpow := (hheader hne).2
    rwa [candidateHeader_hash hl blocks.length, hw.height] at hpow

theorem Chain.linked {below above : List Batch} (h : Chain latest blocks s)
    (hfit : (blocks.map Batch.work).sum < 2 ^ 128) (hs : blocks = below ++ b :: above) :
    Linked latest below b := by
  induction h generalizing above with
  | genesis => simp at hs
  | @block blocks s now batch s' hc hnow ha ih =>
    rcases List.eq_nil_or_concat above with rfl | ⟨above, x, rfl⟩
    · obtain ⟨rfl, hb⟩ := List.append_inj' hs rfl
      rw [List.singleton_inj] at hb
      subst hb
      exact linked_of_accepted hc.run hnow ha hfit
    · rw [List.concat_eq_append, ← List.cons_append, ← List.append_assoc] at hs
      have hbelow := hfit
      rw [List.map_append, List.sum_append] at hbelow
      exact ih (by omega) (List.append_inj_left' hs rfl)

/-- A run of blocks, each linked to all those below it. -/
def LinkedRun (latest : Nat) : (below run : List Batch) → Prop
  | _, [] => True
  | below, b :: rest => Linked latest below b ∧ LinkedRun latest (below ++ [b]) rest

theorem Chain.linkedRun {below run above : List Batch} (h : Chain latest blocks s)
    (hfit : (blocks.map Batch.work).sum < 2 ^ 128) (hs : blocks = below ++ (run ++ above)) :
    LinkedRun latest below run := by
  induction run generalizing below with
  | nil => trivial
  | cons b rest ih =>
    refine ⟨h.linked hfit hs, ih ?_⟩
    rw [hs]
    simp

theorem checkWeights_eq_ok (h : LinkedRun latest below run) :
    checkWeights (tipWeight below) (floorAfter below) (headersFrom below.length run) =
      .ok () := by
  induction run generalizing below with
  | nil => rfl
  | cons b rest ih =>
    obtain ⟨hb, hrest⟩ := h
    obtain ⟨credited, hc, hp⟩ := hb.weighs
    have hnext := ih hrest
    rw [List.length_append, List.length_singleton, ← capWork_floorAfter] at hnext
    have htip : tipWeight (below ++ [b]) = b.chainWeight := by simp [tipWeight]
    rw [htip] at hnext
    have hadded : b.chainWeight - tipWeight below = credited := by omega
    rw [headersFrom]
    apply checkWeights_cons
    · rw [headerAt_chainWeight]
      omega
    · rw [headerAt_height, headerAt_work, headerAt_signer, headerAt_chainWeight, hadded]
      exact hp
    · rw [headerAt_height, headerAt_work, headerAt_chainWeight]
      exact hnext

/-- The header before those of a run. -/
def headerBefore (below : List Batch) : Option BatchHeader :=
  below.getLast?.map fun tip => tip.headerAt (below.length - 1)

theorem checkLink_eq_ok (h : Linked latest below b) (ht : below.getLast? = some tip) :
    checkLink i (tip.headerAt (below.length - 1)) (b.headerAt below.length) = .ok () := by
  obtain ⟨hp, hm, htarget⟩ := h.follows tip ht
  have hlen : below.length - 1 + 1 = below.length := by
    have hne : below ≠ [] := by
      rintro rfl
      simp at ht
    have := List.length_pos_iff.mpr hne
    omega
  simp only [checkLink, check_bind_eq_ok, bailIf_eq_ok]
  simp only [Batch.headerAt, Batch.header, hlen, ne_eq, not_not]
  exact ⟨trivial, hp, hm, htarget⟩

theorem checkTimestamp_eq_ok (h : Linked latest below b) (hn : latest ≤ now)
    (hw : SameWindow window (below.map Batch.timestamp)) :
    checkTimestamp now window (b.headerAt below.length) = .ok () := by
  unfold checkTimestamp
  by_cases h0 : (b.headerAt below.length).height > 0
  · have hne : below ≠ [] := List.length_pos_iff.mp h0
    have hv : validateTimestamp (b.headerAt below.length).timestamp window now = .ok () :=
      hw.validateTimestamp hn (h.timestamp hne)
    rw [if_pos h0, hv]
  · rw [if_neg h0]

theorem checkLinks_eq_ok (h : LinkedRun latest below run) (hn : latest ≤ now)
    (hw : SameWindow window (below.map Batch.timestamp))
    (hprev : prev = none ∨ prev = headerBefore below) :
    checkLinks now i prev window (headersFrom below.length run) = .ok () := by
  induction run generalizing below window prev i with
  | nil => rfl
  | cons b rest ih =>
    obtain ⟨hb, hrest⟩ := h
    have hlink : checkPrev i prev (b.headerAt below.length) = .ok () := by
      rcases hprev with rfl | rfl
      · rfl
      · unfold headerBefore
        cases ht : below.getLast? with
        | none => rfl
        | some tip => exact checkLink_eq_ok hb ht
    have hnext : SameWindow (lastN medianTimePastWindow (window ++ [b.timestamp]))
        ((below ++ [b]).map Batch.timestamp) := by
      rw [List.map_append]
      exact hw.push
    have hbefore : some (b.headerAt below.length) = headerBefore (below ++ [b]) := by
      simp [headerBefore]
    have hstep : checkLinks now (i + 1) (some (b.headerAt below.length)) _ _ = .ok () :=
      ih hrest hnext (.inr hbefore)
    rw [List.length_append, List.length_singleton] at hstep
    simp only [headersFrom, checkLinks, check_bind_eq_ok]
    exact ⟨hlink, checkTimestamp_eq_ok hb hn hw, hstep⟩

theorem headerJob_eq_ok {h : BatchHeader}
    (hp : verifyPow h.height (computeHeaderHash h) h.extension h.target h.auxPow = .ok ()) :
    ∃ job, headerJob h = .ok (h.height, job) ∧ job.holds := by
  simp only [verifyPow] at hp
  cases haux : h.auxPow with
  | none =>
    rw [haux] at hp
    obtain ⟨hlt, hj⟩ := verifyExtensionWith_eq_ok.mp hp
    refine ⟨_, ?_, hj⟩
    simp only [headerJob, haux, check_bind_eq_ok, bailIf_eq_ok, and_true]
    exact BitVec.not_le.mpr hlt
  | some aux =>
    rw [haux] at hp
    obtain ⟨hc, hj⟩ := verifyPowWith_aux_eq_ok.mp hp
    exact ⟨_, by simp only [headerJob, haux, hc], hj⟩

theorem checkHeaderPow_eq_ok (h : LinkedRun latest below run) :
    checkHeaderPow (fun _ _ => true) (headersFrom below.length run) = .ok () := by
  have hjobs : ∃ jobs : List (Nat × PowJob),
      ((headersFrom below.length run).filter fun h => h.height > 0).mapM headerJob = .ok jobs ∧
        ∀ j ∈ jobs, j.2.holds := by
    induction run generalizing below with
    | nil => exact ⟨[], rfl, by simp⟩
    | cons b rest ih =>
      obtain ⟨hb, hrest⟩ := h
      obtain ⟨jobs, hm, hj⟩ := ih hrest
      rw [List.length_append, List.length_singleton] at hm
      by_cases h0 : below = []
      · subst h0
        refine ⟨jobs, ?_, hj⟩
        rw [headersFrom, List.filter_cons_of_neg (by simp)]
        exact hm
      · obtain ⟨job, hok, hholds⟩ := headerJob_eq_ok (h := b.headerAt below.length) (hb.pow h0)
        refine ⟨(below.length, job) :: jobs, ?_, by simpa using ⟨hholds, fun n j hm => hj (n, j) hm⟩⟩
        have hpos : 0 < below.length := List.length_pos_iff.mpr h0
        rw [headersFrom, List.filter_cons_of_pos (by simpa using hpos),
          List.mapM_cons, hok, bind_ok, hm]
        rfl
  obtain ⟨jobs, hm, hj⟩ := hjobs
  have hpow : checkPowJobsWith (fun _ _ => true) (jobs.map Prod.snd) = .ok () := by
    apply checkPowJobs_eq_ok
    intro j hmem
    obtain ⟨p, hp, rfl⟩ := List.mem_map.mp hmem
    exact hj p hp
  rw [checkHeaderPow, hm, bind_ok, hpow]

theorem expectedFirstTarget_eq_ok (h : Linked latest below b)
    (hw : SameWindow window (below.map Batch.timestamp)) :
    expectedFirstTarget (b.headerAt below.length) window = .ok b.target := by
  unfold expectedFirstTarget
  cases ht : below.getLast? with
  | none =>
    have h0 := List.getLast?_eq_none_iff.mp ht
    have hz : (b.headerAt below.length).height = 0 := by rw [h0]; rfl
    rw [if_pos hz, h.first h0]
    rfl
  | some tip =>
    have hne : below ≠ [] := by
      rintro rfl
      simp at ht
    have hz : ¬ (b.headerAt below.length).height = 0 := by
      simpa using hne
    have hlast : window.getLast? = some tip.timestamp := by
      rw [hw.last, List.getLast?_map, ht]
      rfl
    rw [if_neg hz, hlast, (h.follows tip ht).2.2]
    rfl

/-- Headers-first sync accepts every run of a valid chain's headers, given enough of the
timestamps below it, the weight its parent claims and the work floor after its parent. -/
theorem headers_accepted (h : Chain latest (below ++ (run ++ above)) s)
    (hfit : ((below ++ (run ++ above)).map Batch.work).sum < 2 ^ 128)
    (hbelow : Run below t)
    (hprior : prior <:+ below.map Batch.timestamp)
    (hlen : min below.length medianTimePastWindow ≤ prior.length) (hnow : latest ≤ now) :
    verifyHeaderChain (headersFrom below.length run) prior (tipWeight below) t.workFloor
      checkPow now = .ok () := by
  have hrun := h.linkedRun hfit rfl
  have hfloor : t.workFloor = floorAfter below := hbelow.windowed.floors
  have hw : SameWindow prior (below.map Batch.timestamp) :=
    sameWindow_of_suffix hprior (by rwa [List.length_map])
  unfold verifyHeaderChain verifyHeaderChainWith
  cases run with
  | nil => rfl
  | cons b rest =>
    have hweights := checkWeights_eq_ok hrun
    have hlinks : checkLinks now 0 none prior (headersFrom below.length (b :: rest)) = .ok () :=
      checkLinks_eq_ok hrun hnow hw (.inl rfl)
    have hpow := checkHeaderPow_eq_ok hrun
    have hfirst := expectedFirstTarget_eq_ok hrun.1 hw
    rw [headersFrom] at hweights hlinks hpow ⊢
    rw [hfloor]
    simp only [hweights, hfirst, hlinks, hpow, bind_ok]
    rw [check_bind_eq_ok, bailIf_eq_ok]
    refine ⟨not_not.mpr rfl, ?_⟩
    rw [ite_self]

omit [Primitives] in
/-- The headers of the two blocks a bond signed, above an unsigned one. -/
theorem headers_accepted_raced :
    letI := racedPrimitives
    verifyHeaderChain (headersFrom 2 [newMiddle, newTop])
      ([Batch.genesis, newBlock].map Batch.timestamp) (tipWeight [.genesis, newBlock])
      newState.workFloor true launchEarlyBondsUntil = .ok () := by
  let := racedPrimitives
  have h : Chain launchEarlyBondsUntil ([.genesis, newBlock] ++ ([newMiddle, newTop] ++ []))
      newTopState := newTopState_chain
  have hfit : (([Batch.genesis, newBlock] ++ ([newMiddle, newTop] ++ [])).map Batch.work).sum <
      2 ^ 128 := by
    decide +kernel
  have hlen : min [Batch.genesis, newBlock].length medianTimePastWindow ≤
      ([Batch.genesis, newBlock].map Batch.timestamp).length := by
    rw [List.length_map]
    exact Nat.min_le_left _ _
  have haccepted := @headers_accepted _ _ [.genesis, newBlock] [newMiddle, newTop] [] _ newState _ _
    true h hfit newState_chain.run (List.suffix_refl _) hlen (Nat.le_refl launchEarlyBondsUntil)
  exact haccepted

end Midwimble
