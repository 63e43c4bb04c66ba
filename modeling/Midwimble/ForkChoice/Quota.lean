import Midwimble.ForkChoice.Windows

namespace Midwimble
open SlidingWindow
set_option autoImplicit true

/-- A block as `creditInWindow` sees it. -/
structure Push where
  bonds : BondSet
  height : Nat
  signer : Option Bytes32
  /-- The block's creditable work. -/
  work : Nat
  timestamp : Nat

/-- Pushes blocks through the window in turn, and the credit each gets. -/
def credits (w : SignerWindow) : List Push → List (Push × Nat)
  | [] => []
  | p :: ps =>
    let (credited, w) := creditInWindow w p.bonds p.height p.signer p.work p.timestamp
    (p, credited) :: credits w ps

/-- Whether a credited block is the bond's and got all its creditable work. -/
def creditedInFull (id : Bytes32) (c : Push × Nat) : Bool :=
  c.1.signer = some id ∧ c.2 = c.1.work

/-- The signers of credited blocks. -/
def signersOf (cs : List (Push × Nat)) : List (Option Bytes32) := cs.map fun c => c.1.signer

theorem credits_split {w : SignerWindow} (hw : w.Shows history)
    (h : credits w ps = before ++ c :: after) :
    ∃ w' : SignerWindow, w'.Shows (history ++ signersOf before) ∧ c.1 ∈ ps ∧
      c.2 = (creditInWindow w' c.1.bonds c.1.height c.1.signer c.1.work c.1.timestamp).1 := by
  induction ps generalizing w history before with
  | nil => simp [credits] at h
  | cons p ps ih =>
    cases before with
    | nil =>
      simp only [credits, List.nil_append, List.cons.injEq] at h
      obtain ⟨rfl, -⟩ := h
      exact ⟨w, by simpa [signersOf] using hw, List.mem_cons_self, rfl⟩
    | cons b before =>
      simp only [credits, List.cons_append, List.cons.injEq, creditInWindow_window] at h
      obtain ⟨rfl, hr⟩ := h
      obtain ⟨w', hs, hm, hc⟩ := ih (hw.push p.signer) hr
      refine ⟨w', ?_, List.mem_cons_of_mem _ hm, hc⟩
      simpa [signersOf] using hs

theorem count_le_signerCap {w : SignerWindow} {id : Bytes32} (hw : w.Shows history)
    (hwork : 1 < work)
    (h : work = (creditInWindow w bonds height (some id) work timestamp).1) :
    (lastN capWindow (history ++ [some id])).count (some id) ≤ signerCap bonds timestamp := by
  have hpush := hw.push (some id)
  have hcount := hpush.tally.getD (a := id)
  rw [hpush.recent] at hcount
  rw [← hcount]
  by_contra hover
  have hs : (creditInWindow w bonds height (some id) work timestamp).1 = sliver work := by
    simp only [creditInWindow]
    rw [if_pos (by omega)]
  rw [hs] at h
  exact absurd h.symm (Nat.ne_of_lt (sliver_lt hwork))

theorem filter_length_le_count (id : Bytes32) (cs : List (Push × Nat)) :
    (cs.filter (creditedInFull id)).length ≤ (signersOf cs).count (some id) := by
  rw [← List.countP_eq_length_filter, signersOf, List.count, List.countP_map]
  refine List.countP_mono_left fun c _ hc => ?_
  simp only [creditedInFull, decide_eq_true_eq] at hc
  simp [hc.1]

/-- Among any `capWindow` consecutive blocks, one bond's fully credited blocks are at most
its cap at the last of them. -/
theorem credits_quota {ps : List Push} {id : Bytes32} (hwork : ∀ p ∈ ps, 1 < p.work)
    (hfull : (((credits .empty ps).drop start).take capWindow).filter (creditedInFull id) =
      mine ++ [last]) :
    (mine ++ [last]).length ≤ signerCap last.1.bonds last.1.timestamp := by
  obtain ⟨front, rest, hsplit, hfront, hrest⟩ := List.filter_eq_append_iff.mp hfull
  obtain ⟨skipped, back, rfl, hskipped, hlast, -⟩ := List.filter_eq_cons_iff.mp hrest
  -- The blocks of the window up to `last`, and everything before the window.
  have hwhole : credits .empty ps =
      ((credits .empty ps).take start ++ (front ++ skipped)) ++
        last :: (back ++ ((credits .empty ps).drop start).drop capWindow) := by
    conv_lhs => rw [← List.take_append_drop start (credits .empty ps),
      ← List.take_append_drop capWindow ((credits .empty ps).drop start), hsplit]
    simp only [List.append_assoc, List.cons_append]
  obtain ⟨w, hw, hm, hc⟩ := credits_split SignerWindow.shows_empty hwhole
  simp only [creditedInFull, decide_eq_true_eq] at hlast
  rw [hlast.1, hlast.2] at hc
  have hcap := count_le_signerCap hw (hwork _ hm) hc
  have hlen : (front ++ skipped ++ [last]).length ≤ capWindow := by
    have hl := congrArg List.length hsplit
    simp only [List.length_take, List.length_append, List.length_cons] at hl ⊢
    simp only [List.length_nil]
    omega
  have hsuffix : signersOf (front ++ skipped ++ [last]) <:+
      lastN capWindow ([] ++ signersOf ((credits .empty ps).take start ++ (front ++ skipped)) ++
        [some id]) := by
    apply suffix_lastN
    · refine ⟨signersOf ((credits .empty ps).take start), ?_⟩
      simp [signersOf, hlast.1]
    · simpa [signersOf] using hlen
  calc (mine ++ [last]).length
      = ((front ++ skipped ++ [last]).filter (creditedInFull id)).length := by
        have hf : creditedInFull id last = true := by simp [creditedInFull, hlast]
        rw [List.filter_append, List.filter_append, hfront,
          List.filter_eq_nil_iff.mpr hskipped, List.filter_singleton, hf, cond_true,
          List.append_nil]
    _ ≤ (signersOf (front ++ skipped ++ [last])).count (some id) :=
        filter_length_le_count id _
    _ ≤ _ := hsuffix.sublist.count_le _
    _ ≤ signerCap last.1.bonds last.1.timestamp := hcap

theorem credits_unsigned {ps : List Push} (hheight : ∀ p ∈ ps, bondedMiningFrom ≤ p.height)
    (hc : c ∈ credits .empty ps) (hu : c.1.signer = none) : c.2 = sliver c.1.work := by
  obtain ⟨before, after, hsplit⟩ := List.append_of_mem hc
  obtain ⟨w, -, hm, he⟩ := credits_split SignerWindow.shows_empty hsplit
  rw [he, hu]
  simp [creditInWindow, hheight _ hm]

/-- Per-bond quota: among any `capWindow` consecutive blocks, the blocks one bond signed
and was credited in full are at most the cap at the last such block, and no unsigned block
is credited more than the sliver. -/
theorem signer_quota (ps : List Push)
    (h : ∀ p ∈ ps, bondedMiningFrom ≤ p.height ∧ 1 < p.work) :
    (∀ (id : Bytes32) (start : Nat) (last : Push × Nat),
      let mine := (((credits .empty ps).drop start).take capWindow).filter (creditedInFull id)
      mine.getLast? = some last →
        mine.length ≤ signerCap last.1.bonds last.1.timestamp) ∧
    ∀ c ∈ credits .empty ps, c.1.signer = none → c.2 ≤ sliver c.1.work := by
  constructor
  · intro id start last mine hlast
    obtain ⟨front, hmine⟩ := List.getLast?_eq_some_iff.mp hlast
    have hq := credits_quota (fun p hp => (h p hp).2) hmine
    rwa [← hmine] at hq
  · intro c hc hu
    exact (credits_unsigned (fun p hp => (h p hp).1) hc hu).le

section MovingCap

def quotaBond (key : Bytes32) : BondEntry where
  miningKey := key
  value := launchMinMiningBond
  bondedUntil := 2 ^ 40
  provenHeight := midstateBlockHeight + 1
  provenHash := 1

def quotaBonds (ids : List Bytes32) : BondSet :=
  ⟨ids.foldl (fun m id => m.insert id (quotaBond id)) ∅, .new⟩

/-- A block the first bond signs while it is alone. -/
def aloneBlock : Push := ⟨quotaBonds [1], 1, some 1, 2, genesisTimestamp⟩

/-- The block of the second bond, which halves the cap. -/
def joiningBlock : Push := ⟨quotaBonds [1, 2], 1440, some 2, 2, genesisTimestamp⟩

theorem signer_quota_joining :
    ((((credits .empty [aloneBlock, joiningBlock]).drop 0).take capWindow).filter
      (creditedInFull 2)).length ≤ signerCap joiningBlock.bonds joiningBlock.timestamp :=
  (signer_quota [aloneBlock, joiningBlock] (by decide)).1 2 0 (joiningBlock, 2) rfl

theorem credits_replicate {w : SignerWindow} {id : Bytes32} {p : Push} {n k : Nat}
    (hw : w.Shows (List.replicate k (some id))) (hs : p.signer = some id)
    (hcap : signerCap p.bonds p.timestamp = capWindow) (hn : k + n ≤ capWindow) :
    ∃ w', credits w (List.replicate n p ++ qs) =
      List.replicate n (p, p.work) ++ credits w' qs := by
  induction n generalizing w k with
  | zero => exact ⟨w, rfl⟩
  | succ n ih =>
    have hpush := hw.push (some id)
    rw [← List.replicate_succ'] at hpush
    have hcount : (w.push (some id)).counts[id]?.getD 0 ≤ capWindow := by
      rw [hpush.tally.getD, hpush.recent]
      exact List.count_le_length.trans (by rw [length_lastN]; exact Nat.min_le_left _ _)
    obtain ⟨w', hr⟩ := ih hpush (by omega)
    refine ⟨w', ?_⟩
    simp only [List.replicate_succ, List.cons_append, credits, creditInWindow, hs, hcap, hr,
      gt_iff_lt, if_neg (Nat.not_lt.mpr hcount)]

/-- The cap at the end of a window does not bound what was credited in full before the
bond set grew. -/
theorem signer_quota_not_at_window_end :
    ¬ ∀ ps : List Push, (∀ p ∈ ps, bondedMiningFrom ≤ p.height ∧ 1 < p.work) →
      ∀ (id : Bytes32) (start : Nat) (last : Push × Nat),
        let window := ((credits .empty ps).drop start).take capWindow
        window.length = capWindow → window.getLast? = some last →
          (window.filter (creditedInFull id)).length ≤
            signerCap last.1.bonds last.1.timestamp := by
  intro hall
  have hshows : SignerWindow.empty.Shows (List.replicate 0 (some 1)) := SignerWindow.shows_empty
  obtain ⟨w, hw⟩ : ∃ w, credits .empty (List.replicate 1439 aloneBlock ++ [joiningBlock]) =
      List.replicate 1439 (aloneBlock, 2) ++ credits w [joiningBlock] :=
    credits_replicate hshows rfl (by decide) (by decide)
  have hcredits : ∃ c, credits .empty (List.replicate 1439 aloneBlock ++ [joiningBlock]) =
      List.replicate 1439 (aloneBlock, 2) ++ [(joiningBlock, c)] := ⟨_, hw⟩
  obtain ⟨c, hc⟩ := hcredits
  have hlen : (List.replicate 1439 (aloneBlock, 2) ++ [(joiningBlock, c)]).length =
      capWindow := by
    rw [List.length_append, List.length_replicate]
    rfl
  have hps : ∀ p ∈ List.replicate 1439 aloneBlock ++ [joiningBlock],
      bondedMiningFrom ≤ p.height ∧ 1 < p.work := by
    intro p hp
    rcases List.mem_append.mp hp with hp | hp
    · rw [List.eq_of_mem_replicate hp]
      decide
    · rw [List.mem_singleton.mp hp]
      decide
  have hover := hall _ hps 1 0 (joiningBlock, c)
  rw [hc, List.drop_zero, List.take_of_length_le hlen.le] at hover
  have hle := hover hlen List.getLast?_concat
  have hmine : (List.replicate 1439 (aloneBlock, 2)).filter (creditedInFull 1) =
      List.replicate 1439 (aloneBlock, 2) :=
    List.filter_eq_self.mpr fun x hx => by
      rw [List.eq_of_mem_replicate hx]
      rfl
  rw [List.filter_append, List.length_append, hmine, List.length_replicate] at hle
  have hcap : signerCap joiningBlock.bonds joiningBlock.timestamp = 720 := by decide
  rw [hcap] at hle
  omega

end MovingCap

end Midwimble
