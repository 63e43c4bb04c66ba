import Midwimble.Core.WebWallet
import Midwimble.Identity.Block
import Midwimble.Wallet.Reorgs

namespace Midwimble
open Fallible
set_option autoImplicit true

namespace WalletCore

section Skipping

variable [Primitives] [Decryption] {w w' : WalletCore} {height : Nat} {b r : Batch}

/-- A block that carries an unsettled payment's kernel spends one of its coins. -/
def Spending (chain : List Batch) (sent : List Sent) : Prop :=
  ∀ b ∈ chain, ∀ s ∈ sent, s.height = none → s.failedAt = none →
    s.kernel ∈ b.body.kernelIds → ∃ i ∈ s.inputs, i ∈ b.body.inputCommitments

/-- Whether an output of the block carries the wallet's view tag. -/
def taggedIn (view : ViewKey) (b : Batch) : Bool :=
  (ScanBlock.of b).outputs.any fun o => view.mayOwn o.1 o.2

omit [Decryption] in
theorem mem_coinPrefixes_of_coin {c : WalletCoin} (hc : c ∈ w.coins)
    (hunspent : c.spentHeight = none) : inputPrefix c.commitment ∈ w.coinPrefixes := by
  apply List.mem_map_of_mem
  apply List.mem_append_left
  exact List.mem_map_of_mem (List.mem_filter.mpr ⟨hc, by rw [hunspent]; rfl⟩)

omit [Decryption] in
theorem mem_coinPrefixes_of_sent {s : Sent} {i : Point32} (hs : s ∈ w.sent)
    (hheight : s.height = none) (hfailed : s.failedAt = none) (hi : i ∈ s.inputs) :
    inputPrefix i ∈ w.coinPrefixes := by
  apply List.mem_map_of_mem
  apply List.mem_append_right
  exact List.mem_flatMap.mpr ⟨s, List.mem_filter.mpr ⟨hs, by rw [hheight, hfailed]; rfl⟩, hi⟩

theorem scan_eq_none {view : ViewKey} {o : Output}
    (h : view.mayOwn o.ephemeralKey o.viewTag = false) : view.scan o = none := by
  rw [ViewKey.scan, Option.map_eq_none_iff, detect]
  cases hr : decompress o.ephemeralKey with
  | none => rfl
  | some r =>
    have htag : viewTag (sharedSecret (view.scanSecret • r)) ≠ o.viewTag := by
      rw [ViewKey.mayOwn, hr] at h
      simpa using h
    simp [htag]

theorem foldl_addDetected {view : ViewKey} {keys : Option WalletKeys} {sent : List Sent}
    {created : List (Output × Bool)} {coins : List WalletCoin}
    (h : ∀ o ∈ created, view.mayOwn o.1.ephemeralKey o.1.viewTag = false) :
    created.foldl (addDetected view keys sent height) coins = coins := by
  induction created with
  | nil => rfl
  | cons o created ih =>
    have hskip : addDetected view keys sent height coins o = coins := by
      rw [addDetected, scan_eq_none (h o List.mem_cons_self)]
      split <;> rfl
    rw [List.foldl_cons, hskip]
    exact ih fun o ho => h o (List.mem_cons_of_mem _ ho)

/-- A block with no tagged output and no input of the wallet's prefixes changes nothing but the
height scanned. -/
theorem scanBlock_skipped (hspending : Spending [b] w.sent)
    (hinputs : ∀ i ∈ b.body.inputCommitments, inputPrefix i ∉ w.coinPrefixes)
    (htagged : taggedIn w.view b = false)
    (hbuilds : w.buildsOn w.scannedHeight b.prevHeaderHash = true) :
    w.scanBlock w.scannedHeight b =
      .ok (w.finishBlock w.scannedHeight b.extension.finalHash) := by
  have hcoins : w.coins.map (Wallet.markSpent w.scannedHeight b.body.inputCommitments) =
      w.coins := by
    conv_rhs => rw [← List.map_id w.coins]
    apply List.map_congr_left
    intro c hc
    rcases Wallet.markSpent_cases w.scannedHeight b.body.inputCommitments c with
      ⟨hunspent, hspent, -⟩ | ⟨-, heq⟩
    · exact absurd (mem_coinPrefixes_of_coin hc hunspent) (hinputs _ hspent)
    · exact heq
  have hsent : w.sent.map (Wallet.settle w.scannedHeight b.body.inputCommitments
      b.body.kernelIds) = w.sent := by
    conv_rhs => rw [← List.map_id w.sent]
    apply List.map_congr_left
    intro s hs
    by_cases hsettled : s.height.isSome ∨ s.failedAt.isSome
    · exact Wallet.settle_of_settled hsettled
    · simp only [not_or, Option.not_isSome_iff_eq_none] at hsettled
      obtain ⟨hheight, hfailed⟩ := hsettled
      apply Wallet.settle_eq_self
      · intro hkernel
        obtain ⟨i, hi, hin⟩ := hspending b List.mem_cons_self s hs hheight hfailed hkernel
        exact hinputs i hin (mem_coinPrefixes_of_sent hs hheight hfailed hi)
      · intro i hi hin
        exact hinputs i hin (mem_coinPrefixes_of_sent hs hheight hfailed hi)
  have hcreated : ∀ o ∈ b.created, w.view.mayOwn o.1.ephemeralKey o.1.viewTag = false := by
    intro o ho
    simp only [taggedIn, ScanBlock.of, List.any_map, List.any_eq_false] at htagged
    simpa using htagged o ho
  rw [scanBlock, bailIf_neg (not_not.mpr rfl), bind_ok, hbuilds, bailIf_neg (by simp), bind_ok]
  simp only [hcoins, hsent, foldl_addDetected hcreated]

theorem scanBlock_congr (hprev : b.prevHeaderHash = r.prevHeaderHash) (hbody : b.body = r.body)
    (hcoinbase : b.coinbase = r.coinbase)
    (hid : b.extension.finalHash = r.extension.finalHash) (height : Nat) :
    w.scanBlock height b = w.scanBlock height r := by
  have hcreated : b.created = r.created := by rw [Batch.created, Batch.created, hbody, hcoinbase]
  rw [scanBlock, scanBlock, hprev, hbody, hcreated, hid]

omit [Primitives] [Decryption] in
theorem settled_same {s : Sent} {spent : List Point32} {kernels : List Bytes32} :
    (Wallet.forget height (Wallet.settle height spent kernels s)).kernel = s.kernel ∧
      (Wallet.forget height (Wallet.settle height spent kernels s)).inputs = s.inputs ∧
      ((Wallet.forget height (Wallet.settle height spent kernels s)).height = none →
        s.height = none) ∧
      ((Wallet.forget height (Wallet.settle height spent kernels s)).failedAt = none →
        s.failedAt = none) := by
  rw [Wallet.forget_kernel, Wallet.forget_inputs, Wallet.forget_height, Wallet.forget_failedAt]
  unfold Wallet.settle
  split
  · exact ⟨rfl, rfl, id, id⟩
  · rename_i hsettled
    simp only [Bool.or_eq_true, not_or, Option.not_isSome_iff_eq_none] at hsettled
    split
    · exact ⟨rfl, rfl, fun _ => hsettled.1, id⟩
    · split
      · exact ⟨rfl, rfl, id, fun _ => hsettled.2⟩
      · exact ⟨rfl, rfl, id, id⟩

theorem scanBlock_height (h : w.scanBlock height b = .ok w') :
    height = w.scannedHeight ∧ w.buildsOn height b.prevHeaderHash = true ∧
      w'.scannedHeight = w.scannedHeight + 1 ∧ w'.view = w.view ∧
      ∀ s' ∈ w'.sent, ∃ s ∈ w.sent, s'.kernel = s.kernel ∧ s'.inputs = s.inputs ∧
        (s'.height = none → s.height = none) ∧ (s'.failedAt = none → s.failedAt = none) := by
  simp only [scanBlock, bind_eq_ok, bailIf_eq_ok, not_not, Bool.not_eq_true',
    Bool.not_eq_false] at h
  obtain ⟨_, rfl, _, hbuilds, heq⟩ := h
  obtain rfl := Except.ok.inj heq
  refine ⟨rfl, hbuilds, rfl, rfl, ?_⟩
  intro t ht
  obtain ⟨u, hu, rfl⟩ := List.mem_map.mp ht
  obtain ⟨s, hs, rfl⟩ := List.mem_map.mp hu
  exact ⟨s, hs, settled_same⟩

theorem scanBlock_reorg (h : w.buildsOn w.scannedHeight b.prevHeaderHash = false) :
    w.scanBlock w.scannedHeight b = .error (Wallet.reorg w.scannedHeight) := by
  rw [scanBlock, bailIf_neg (not_not.mpr rfl), bind_ok, h]
  rfl

theorem Spending.scanBlock {chain : List Batch} (hspending : Spending chain w.sent)
    (h : w.scanBlock height b = .ok w') : Spending chain w'.sent := by
  obtain ⟨-, -, -, -, hsent⟩ := scanBlock_height h
  intro a ha t ht hheight hfailed hkernel
  obtain ⟨s, hs, hsame, hinputs, hheight', hfailed'⟩ := hsent t ht
  rw [hinputs]
  exact hspending a ha s hs (hheight' hheight) (hfailed' hfailed) (hsame ▸ hkernel)

end Skipping

section Chunks

variable [Primitives] {view : ViewKey} {chain : List Batch} {chunk : ScanChunk}

/-- A chunk of scan data made from blocks of the chain, what it caches worked out with the key. -/
structure Cut (view : ViewKey) (chain : List Batch) (chunk : ScanChunk) : Prop where
  covers : ∀ i block, chunk.run.blocks[i]? = some block → ∃ b, chain[chunk.start + i]? = some b ∧
    block = ScanBlock.of b ∧ chunk.run.prevOf i = b.prevHeaderHash
  cached : ∀ i t b, chunk.tagged[i]? = some (some t) → chain[chunk.start + i]? = some b →
    t = taggedIn view b

/-- The id that the block at a height builds on. -/
def prevAt (chain : List Batch) (height : Nat) : Bytes32 :=
  (chain[height]?).elim 0 Batch.prevHeaderHash

/-- Every run of consecutive blocks is a chunk. -/
theorem cut_new (hlinked : Wallet.Linked chain) (start len : Nat) :
    Cut view chain (.new start (.of (prevAt chain start) ((chain.drop start).take len))) where
  covers := by
    intro i block hblock
    have hget := hblock
    simp only [ScanChunk.new, ScanRun.of, List.getElem?_map, Option.map_eq_some_iff] at hget
    obtain ⟨b, hb, rfl⟩ := hget
    have hat : chain[start + i]? = some b := by
      rw [List.getElem?_take] at hb
      split at hb
      · rwa [List.getElem?_drop] at hb
      · cases hb
    refine ⟨b, hat, rfl, ?_⟩
    cases i with
    | zero =>
      have hat' : chain[start]? = some b := hat
      show prevAt chain start = _
      rw [prevAt, hat']
      rfl
    | succ i =>
      obtain ⟨a, ha⟩ : ∃ a, chain[start + i]? = some a := by
        have hlt := (List.getElem?_eq_some_iff.mp hat).1
        exact ⟨_, List.getElem?_eq_getElem (by omega)⟩
      have hmem : ((chain.drop start).take len)[i]? = some a := by
        have hlt : i + 1 < len := by
          rw [List.getElem?_take] at hb
          split at hb
          · assumption
          · cases hb
        rw [List.getElem?_take, if_pos (by omega), List.getElem?_drop]
        exact ha
      show ((((chain.drop start).take len).map ScanBlock.of)[i]?).elim 0 ScanBlock.id = _
      rw [List.getElem?_map, hmem]
      exact (hlinked (start + i) a b ha hat).symm
  cached := by
    intro i t b ht
    simp only [ScanChunk.new, List.getElem?_replicate] at ht
    split at ht <;> cases ht

theorem Cut.cache {i : Nat} {b : Batch} (hcut : Cut view chain chunk)
    (hb : chain[chunk.start + i]? = some b) :
    Cut view chain { chunk with tagged := chunk.tagged.set i (some (taggedIn view b)) } where
  covers := hcut.covers
  cached := by
    intro j t a ht ha
    by_cases hij : i = j
    · subst hij
      simp only [List.getElem?_set, if_true] at ht
      split at ht
      · obtain rfl := Option.some.inj (hb.symm.trans ha)
        exact (Option.some.inj (Option.some.inj ht)).symm
      · cases ht
    · rw [List.getElem?_set_ne hij] at ht
      exact hcut.cached j t a ht ha

theorem needs_spec (coins : List Bytes) {w : WalletCore} {i : Nat} {b : Batch}
    (hcut : Cut w.view chain chunk) (hblock : chunk.run.blocks[i]? = some (ScanBlock.of b))
    (hb : chain[chunk.start + i]? = some b) :
    Cut w.view chain (w.needs coins chunk i).2 ∧ (w.needs coins chunk i).2.start = chunk.start ∧
      (w.needs coins chunk i).2.run = chunk.run ∧
      ((w.needs coins chunk i).1 = false →
        (∀ c ∈ b.body.inputCommitments, inputPrefix c ∉ coins) ∧ taggedIn w.view b = false) := by
  by_cases hinput : (ScanBlock.of b).inputs.any (decide <| · ∈ coins) = true
  · simp only [needs, hblock, if_pos hinput]
    exact ⟨hcut, trivial, trivial, nofun⟩
  · have hfree : ∀ c ∈ b.body.inputCommitments, inputPrefix c ∉ coins := by
      intro c hc hin
      apply hinput
      rw [List.any_eq_true]
      exact ⟨inputPrefix c, List.mem_map_of_mem hc, decide_eq_true hin⟩
    simp only [needs, hblock, if_neg hinput]
    split
    · rename_i t ht
      exact ⟨hcut, rfl, rfl, fun h => ⟨hfree, (hcut.cached i t b ht hb).symm.trans h⟩⟩
    · exact ⟨hcut.cache hb, rfl, rfl, fun h => ⟨hfree, h⟩⟩

theorem Cut.real {height : Nat} (hcut : Cut view chain chunk) (hstart : chunk.start ≤ height)
    (hend : height < chunk.end) :
    ∃ b, chain[height]? = some b ∧
      chunk.run.blocks[height - chunk.start]? = some (ScanBlock.of b) ∧
      chunk.run.prevOf (height - chunk.start) = b.prevHeaderHash := by
  have hlt : height - chunk.start < chunk.run.blocks.length := by
    rw [ScanChunk.end] at hend
    omega
  obtain ⟨b, hb, hblock, hprev⟩ := hcut.covers _ _ (List.getElem?_eq_getElem hlt)
  rw [Nat.add_sub_cancel' hstart] at hb
  exact ⟨b, hb, by rw [List.getElem?_eq_getElem hlt, hblock], hprev⟩

end Chunks

/-- From `w` to another state by whole blocks of the chain. -/
inductive Scans [Primitives] [Decryption] (chain : List Batch) (w : WalletCore) :
    WalletCore → Prop where
  | start : Scans chain w w
  | block {v v' : WalletCore} {b : Batch} : Scans chain w v → chain[v.scannedHeight]? = some b →
      v.scanBlock v.scannedHeight b = .ok v' → Scans chain w v'

/-- How a scan by scan data ends. -/
structure Stops [Primitives] [Decryption] (chain : List Batch) (w : WalletCore)
    (chunk : ScanChunk) (out : CompactScan) : Prop where
  reorg : out.reorg = true → ∃ b, chain[w.scannedHeight]? = some b ∧
    w.scanBlock w.scannedHeight b = .error (Wallet.reorg w.scannedHeight)
  need : ∀ height, out.need = some height → height = w.scannedHeight ∧
    ∃ b w', chain[height]? = some b ∧ w.scanFull chunk height b = .ok w'
  done : out.reorg = false → out.need = none → w.scannedHeight = chunk.end

section Scans

variable [Primitives] [Decryption] {w w' w'' : WalletCore} {chain : List Batch}
  {chunk chunk' : ScanChunk} {b : Batch} {coins : List Bytes} {left : Nat} {out out' : CompactScan}

theorem Scans.trans (h : Scans chain w w') (h' : Scans chain w' w'') : Scans chain w w'' := by
  induction h' with
  | start => exact h
  | block _ hb hscan ih => exact .block ih hb hscan

theorem Scans.view (h : Scans chain w w') : w'.view = w.view := by
  induction h with
  | start => rfl
  | block _ _ hscan ih =>
    obtain ⟨-, -, -, hview, -⟩ := scanBlock_height hscan
    rw [hview, ih]

theorem Scans.spending (h : Scans chain w w') (hspending : Spending chain w.sent) :
    Spending chain w'.sent := by
  induction h with
  | start => exact hspending
  | block _ _ hscan ih => exact ih.scanBlock hscan

theorem Scans.scanAll (h : Scans chain w w') : w.scannedHeight ≤ w'.scannedHeight ∧
    w.scanAll ((chain.drop w.scannedHeight).take (w'.scannedHeight - w.scannedHeight)) =
      .ok w' := by
  induction h with
  | start =>
    rw [Nat.sub_self, List.take_zero]
    exact ⟨le_refl _, rfl⟩
  | block h hb hscan ih =>
    rename_i v v' b
    obtain ⟨hle, hall⟩ := ih
    obtain ⟨-, -, hheight, -⟩ := scanBlock_height hscan
    have hget : (chain.drop w.scannedHeight)[v.scannedHeight - w.scannedHeight]? = some b := by
      rw [List.getElem?_drop, Nat.add_sub_cancel' hle]
      exact hb
    rw [hheight, Nat.succ_sub hle, List.take_add_one, hget]
    apply And.intro (by omega)
    apply foldlM_append_eq_ok.mpr
    refine ⟨v, hall, ?_⟩
    rw [Option.toList_some, List.foldlM_cons, hscan]
    rfl

theorem scanBlock_ok (h : w.buildsOn w.scannedHeight b.prevHeaderHash = true) :
    ∃ w', w.scanBlock w.scannedHeight b = .ok w' := by
  rw [scanBlock, bailIf_neg (not_not.mpr rfl), bind_ok, h, bailIf_neg (by simp), bind_ok]
  exact ⟨_, rfl⟩

omit [Decryption] in
theorem coinPrefixes_finishBlock (height : Nat) (id : Bytes32) :
    (w.finishBlock height id).coinPrefixes = w.coinPrefixes := by
  simp only [coinPrefixes, finishBlock, List.filter_map, List.flatMap_map, Wallet.forget_inputs]
  congr 4
  funext s
  simp [Wallet.forget_height, Wallet.forget_failedAt]

theorem Cut.scanFull {height : Nat} (hcut : Cut w.view chain chunk)
    (hstart : chunk.start ≤ height) (hend : height < chunk.end)
    (hb : chain[height]? = some b) : w.scanFull chunk height b = w.scanBlock height b := by
  obtain ⟨b', hb', hblock, hprev⟩ := hcut.real hstart hend
  obtain rfl := Option.some.inj (hb.symm.trans hb')
  have hlt : height - chunk.start < chunk.run.blocks.length :=
    (List.getElem?_eq_some_iff.mp hblock).1
  have hdescribes : chunk.run.describes (height - chunk.start) b = true := by
    simp only [ScanRun.describes, hblock, hprev, hlt, decide_true, Bool.and_self]
  rw [WalletCore.scanFull, ScanChunk.index, if_pos ⟨hstart, hend⟩]
  simp only [Fallible.orBail, bind_ok, hdescribes, Bool.not_true]
  rw [bailIf_neg (by simp), bind_ok]

theorem stops_reorg (hb : chain[w.scannedHeight]? = some b)
    (hbuilds : w.buildsOn w.scannedHeight b.prevHeaderHash = false) (hneed : out.need = none) :
    Stops chain w chunk { out with reorg := true } where
  reorg _ := ⟨b, hb, scanBlock_reorg hbuilds⟩
  need := by
    rw [hneed]
    exact nofun
  done := nofun

theorem stops_need (hcut : Cut w.view chain chunk) (hstart : chunk.start ≤ w.scannedHeight)
    (hend : w.scannedHeight < chunk.end) (hb : chain[w.scannedHeight]? = some b)
    (hbuilds : w.buildsOn w.scannedHeight b.prevHeaderHash = true) (hreorg : out.reorg = false) :
    Stops chain w chunk { out with need := some w.scannedHeight } where
  reorg := by
    rw [hreorg]
    exact nofun
  need := by
    intro height hheight
    obtain rfl := Option.some.inj hheight
    obtain ⟨v, hv⟩ := scanBlock_ok hbuilds
    exact ⟨rfl, b, v, hb, (hcut.scanFull hstart hend hb).trans hv⟩
  done := nofun

theorem stops_done (hend : w.scannedHeight = chunk.end) (hreorg : out.reorg = false)
    (hneed : out.need = none) : Stops chain w chunk out where
  reorg := by
    rw [hreorg]
    exact nofun
  need := by
    rw [hneed]
    exact nofun
  done _ _ := hend

theorem compactLoop_spec (hspending : Spending chain w.sent) (hcut : Cut w.view chain chunk)
    (hcoins : w.coinPrefixes = coins) (hstart : chunk.start ≤ w.scannedHeight)
    (hleft : w.scannedHeight + left = chunk.end) (hreorg : out.reorg = false)
    (hneed : out.need = none) (h : compactLoop coins left w chunk out = (w', chunk', out')) :
    Scans chain w w' ∧ Cut w'.view chain chunk' ∧ chunk'.start = chunk.start ∧
      chunk'.run = chunk.run ∧ Stops chain w' chunk' out' := by
  induction left generalizing w chunk out with
  | zero =>
    obtain ⟨rfl, rfl, rfl⟩ : w = w' ∧ chunk = chunk' ∧ out = out' := by
      simpa [compactLoop] using h
    exact ⟨.start, hcut, rfl, rfl, stops_done hleft hreorg hneed⟩
  | succ left ih =>
    obtain ⟨b, hb, hblock, hprev⟩ := hcut.real hstart (by omega)
    rw [compactLoop, hprev] at h
    cases hbuilds : w.buildsOn w.scannedHeight b.prevHeaderHash with
    | false =>
      simp only [hbuilds, Bool.not_false, if_true] at h
      obtain ⟨rfl, rfl, rfl⟩ : w = w' ∧ chunk = chunk' ∧ { out with reorg := true } = out' := by
        simpa using h
      exact ⟨.start, hcut, rfl, rfl, stops_reorg hb hbuilds hneed⟩
    | true =>
      obtain ⟨hcut', hstart', hrun', hfree⟩ :=
        needs_spec coins hcut hblock (by rwa [Nat.add_sub_cancel' hstart])
      simp only [hbuilds, Bool.not_true, Bool.false_eq_true, if_false] at h
      rcases hn : w.needs coins chunk (w.scannedHeight - chunk.start) with ⟨needed, cached⟩
      rw [hn] at hcut' hstart' hrun' hfree h
      dsimp only at hcut' hstart' hrun'
      have hend : cached.end = chunk.end := by
        rw [ScanChunk.end, hstart', hrun']
        rfl
      cases needed with
      | true =>
        obtain ⟨rfl, rfl, rfl⟩ : w = w' ∧ cached = chunk' ∧
            { out with need := some w.scannedHeight } = out' := by
          simpa using h
        exact ⟨.start, hcut', hstart', hrun',
          stops_need hcut' (hstart'.trans_le hstart) (by omega) hb hbuilds hreorg⟩
      | false =>
        obtain ⟨hinputs, htagged⟩ := hfree rfl
        have hspending' : Spending [b] w.sent := by
          intro a ha
          rw [List.mem_singleton.mp ha]
          exact hspending b (List.mem_of_getElem? hb)
        have hskip := scanBlock_skipped hspending' (by rw [hcoins]; exact hinputs) htagged hbuilds
        dsimp only at h
        rw [hrun', hblock] at h
        have hreorg' : ({ out with scanned := out.scanned + 1 } : CompactScan).reorg = false :=
          hreorg
        -- The coins looked for are those of before the skipped block.
        obtain ⟨hscans, hcut'', hstart'', hrun'', hstops⟩ :=
          ih (hspending.scanBlock hskip) hcut' ((coinPrefixes_finishBlock _ _).trans hcoins)
            (by rw [hstart']; exact Nat.le_succ_of_le hstart)
            (by rw [hend, ← hleft]; exact Nat.succ_add_eq_add_succ _ _) hreorg' hneed h
        exact ⟨(Scans.start.block hb hskip).trans hscans, hcut'', hstart''.trans hstart',
          hrun''.trans hrun', hstops⟩

theorem scanCompact_spec (hspending : Spending chain w.sent) (hcut : Cut w.view chain chunk)
    (h : w.scanCompact chunk = .ok (w', chunk', out)) :
    Scans chain w w' ∧ Cut w'.view chain chunk' ∧ chunk'.start = chunk.start ∧
      chunk'.run = chunk.run ∧ Stops chain w' chunk' out := by
  simp only [scanCompact, check_bind_eq_ok, bailIf_eq_ok, not_or, not_lt] at h
  obtain ⟨⟨hstart, hend⟩, heq⟩ := h
  exact compactLoop_spec hspending hcut rfl hstart (Nat.add_sub_cancel' hend) rfl rfl
    (Except.ok.inj heq)

omit [Decryption] in
theorem Cut.wanted (hcut : Cut w.view chain chunk) : Cut w.view chain (w.wanted chunk).2 := by
  have hfold : ∀ (heights : List Nat) (found : List Nat) (cached : ScanChunk),
      (∀ h ∈ heights, chunk.start ≤ h ∧ h < chunk.end) → Cut w.view chain cached →
      cached.start = chunk.start → cached.run = chunk.run →
      Cut w.view chain (heights.foldl (fun (p : List Nat × ScanChunk) h =>
        (if (w.needs w.coinPrefixes p.2 (h - p.2.start)).1 then p.1 ++ [h] else p.1,
          (w.needs w.coinPrefixes p.2 (h - p.2.start)).2)) (found, cached)).2 := by
    intro heights
    induction heights with
    | nil => exact fun _ _ _ hc _ _ => hc
    | cons h heights ih =>
      intro found cached hin hc hstart hrun
      obtain ⟨hge, hlt⟩ := hin h List.mem_cons_self
      obtain ⟨b, hb, hblock, -⟩ := hcut.real hge hlt
      rw [← hrun, ← hstart] at hblock
      obtain ⟨hc', hstart', hrun', -⟩ := needs_spec w.coinPrefixes hc hblock
        (by rwa [hstart, Nat.add_sub_cancel' hge])
      exact ih _ _ (fun k hk => hin k (List.mem_cons_of_mem _ hk)) hc' (hstart'.trans hstart)
        (hrun'.trans hrun)
  apply hfold _ _ _ _ hcut rfl rfl
  intro h hh
  rw [List.mem_range'_1] at hh
  omega

omit [Decryption] in
theorem Cut.described {r : Batch} {height : Nat} (hcut : Cut w.view chain chunk)
    (hr : chain[height]? = some r) (hbfits : b.Fits) (hrfits : r.Fits)
    (hinj : Set.InjOn blake3 {x | b.Identifies x ∨ r.Identifies x})
    (hstart : chunk.start ≤ height) (hend : height < chunk.end)
    (h : chunk.run.describes (height - chunk.start) b = true) :
    b = { r with
      extension := ⟨b.extension.nonce, r.extension.finalHash⟩
      auxPow := b.auxPow } := by
  obtain ⟨r', hr', hblock, -⟩ := hcut.real hstart hend
  obtain rfl := Option.some.inj (hr.symm.trans hr')
  simp only [ScanRun.describes, hblock, Bool.and_eq_true, decide_eq_true_eq] at h
  have hsame : ScanBlock.of r = ScanBlock.of b := Option.some.inj h.2
  have hid : r.extension.finalHash = b.extension.finalHash := congrArg ScanBlock.id hsame
  have hheader : r.miningHash = b.miningHash := congrArg ScanBlock.headerHash hsame
  have heq := miningHash_inj hbfits hrfits hinj hheader.symm
  rw [hid]
  exact heq

omit [Primitives] [Decryption] in
theorem index_eq_some {height i : Nat} (h : chunk.index height = some i) :
    chunk.start ≤ height ∧ height < chunk.end ∧ height - chunk.start = i := by
  rw [ScanChunk.index, Option.ite_none_right_eq_some] at h
  obtain ⟨⟨hstart, hend⟩, hi⟩ := h
  exact ⟨hstart, hend, Option.some.inj hi⟩

theorem scanFull_covered {height : Nat} (h : w.scanFull chunk height b = .ok w') :
    chunk.start ≤ height ∧ height < chunk.end := by
  simp only [WalletCore.scanFull, bind_eq_ok, orBail_eq_ok] at h
  obtain ⟨i, hi, -⟩ := h
  obtain ⟨hstart, hend, -⟩ := index_eq_some hi
  exact ⟨hstart, hend⟩

theorem scanFull_exact {r : Batch} {height : Nat} (hcut : Cut w.view chain chunk)
    (hr : chain[height]? = some r) (hbfits : b.Fits) (hrfits : r.Fits)
    (hinj : Set.InjOn blake3 {x | b.Identifies x ∨ r.Identifies x})
    (h : w.scanFull chunk height b = .ok w') :
    height = w.scannedHeight ∧ w.scanBlock height r = .ok w' := by
  simp only [WalletCore.scanFull, bind_eq_ok, bailIf_eq_ok, orBail_eq_ok, Bool.not_eq_true',
    Bool.not_eq_false] at h
  obtain ⟨i, hi, _, hdescribes, hscan⟩ := h
  obtain ⟨hstart, hend, rfl⟩ := index_eq_some hi
  have heq := hcut.described hr hbfits hrfits hinj hstart hend hdescribes
  apply And.intro (scanBlock_height hscan).1
  rw [← hscan]
  apply scanBlock_congr
  all_goals rw [heq]

end Scans

/-- What a wallet can come to by scan data of the chain and blocks fetched from anywhere, whatever
they hash being of `hashed`. -/
inductive Reads [Primitives] [Decryption] (hashed : Set Bytes) (chain : List Batch)
    (w : WalletCore) : WalletCore → Prop where
  | start : Reads hashed chain w w
  | compact {v v' : WalletCore} {chunk chunk' : ScanChunk} {out : CompactScan} :
      Reads hashed chain w v → Cut w.view chain chunk →
      v.scanCompact chunk = .ok (v', chunk', out) → Reads hashed chain w v'
  | full {v v' : WalletCore} {chunk : ScanChunk} {height : Nat} {b : Batch} :
      Reads hashed chain w v → Cut w.view chain chunk → b.Fits →
      (∀ x, b.Identifies x → x ∈ hashed) → v.scanFull chunk height b = .ok v' →
      Reads hashed chain w v'

section Reading

variable [Primitives] [Decryption] {w w' : WalletCore} {chain : List Batch} {hashed : Set Bytes}

omit [Decryption] in
theorem identified_inj {b r : Batch} (hinj : Set.InjOn blake3 hashed)
    (hb : ∀ x, b.Identifies x → x ∈ hashed) (hr : ∀ x, r.Identifies x → x ∈ hashed) :
    Set.InjOn blake3 {x | b.Identifies x ∨ r.Identifies x} := by
  apply hinj.mono
  intro x hx
  exact hx.elim (hb x) (hr x)

theorem Reads.scans (hfits : ∀ b ∈ chain, b.Fits)
    (hids : ∀ b ∈ chain, ∀ x, b.Identifies x → x ∈ hashed) (hinj : Set.InjOn blake3 hashed)
    (hspending : Spending chain w.sent) (h : Reads hashed chain w w') : Scans chain w w' := by
  induction h with
  | start => exact .start
  | compact _ hcut hcompact ih =>
    rw [← ih.view] at hcut
    exact ih.trans (scanCompact_spec (ih.spending hspending) hcut hcompact).1
  | full hv hcut hbfits hbids hfull ih =>
    rename_i v v' chunk height b
    rw [← ih.view] at hcut
    obtain ⟨hstart, hend⟩ := scanFull_covered hfull
    obtain ⟨r, hr, -⟩ := hcut.real hstart hend
    have hmem := List.mem_of_getElem? hr
    obtain ⟨rfl, hscan⟩ := scanFull_exact hcut hr hbfits (hfits r hmem)
      (identified_inj hinj hbids (hids r hmem)) hfull
    exact .block ih hr hscan

/-- Blocks needed are read whole, up to the end of the chunk or a reorganisation. -/
theorem Reads.chunk (hfits : ∀ b ∈ chain, b.Fits)
    (hids : ∀ b ∈ chain, ∀ x, b.Identifies x → x ∈ hashed) (hinj : Set.InjOn blake3 hashed)
    (hspending : Spending chain w.sent) (left : Nat) {chunk : ScanChunk}
    (hreads : Reads hashed chain w w') (hcut : Cut w.view chain chunk)
    (hstart : chunk.start ≤ w'.scannedHeight) (hleft : w'.scannedHeight + left = chunk.end) :
    ∃ v, Reads hashed chain w v ∧ (v.scannedHeight = chunk.end ∨
      ∃ b, chain[v.scannedHeight]? = some b ∧
        v.scanBlock v.scannedHeight b = .error (Wallet.reorg v.scannedHeight)) := by
  induction left using Nat.strong_induction_on generalizing w' chunk with
  | _ left ih =>
    have hscans := hreads.scans hfits hids hinj hspending
    have hcut' := hcut
    rw [← hscans.view] at hcut'
    obtain ⟨⟨v, chunk', out⟩, hcompact⟩ : ∃ p, w'.scanCompact chunk = .ok p := by
      rw [scanCompact, bailIf_neg (by omega), bind_ok]
      exact ⟨_, rfl⟩
    obtain ⟨hscans', hcutv, hstart', hrun', hstops⟩ :=
      scanCompact_spec (hscans.spending hspending) hcut' hcompact
    have hv : Reads hashed chain w v := hreads.compact hcut hcompact
    have hend : chunk'.end = chunk.end := by
      rw [ScanChunk.end, hstart', hrun']
      rfl
    have hle := hscans'.scanAll.1
    by_cases hreorg : out.reorg = true
    · exact ⟨v, hv, .inr (hstops.reorg hreorg)⟩
    · cases hneed : out.need with
      | none => exact ⟨v, hv, .inl (hend ▸ hstops.done (by simpa using hreorg) hneed)⟩
      | some height =>
        obtain ⟨rfl, b, v', hb, hfull⟩ := hstops.need height hneed
        have hmem := List.mem_of_getElem? hb
        obtain ⟨-, hlt⟩ := scanFull_covered hfull
        rw [hscans'.view, hscans.view] at hcutv
        have hv' : Reads hashed chain w v' := hv.full hcutv (hfits b hmem) (hids b hmem) hfull
        have hheight : v'.scannedHeight = v.scannedHeight + 1 := by
          have hmem' := hv'.scans hfits hids hinj hspending
          rw [Cut.scanFull (hscans'.view.trans hscans.view ▸ hcutv) (by omega) hlt hb] at hfull
          exact (scanBlock_height hfull).2.2.1
        rw [← hend]
        exact ih (chunk'.end - v'.scannedHeight) (by omega) hv' hcutv (by omega) (by omega)

/-- Scanning by scan data comes to what scanning whole blocks does, and stops at a reorganisation
where that does; a block that differs from the chain's in more than its proof of work is
refused. -/
theorem compact_scan_exact (hlinked : Wallet.Linked chain) (hfits : ∀ b ∈ chain, b.Fits)
    (hids : ∀ b ∈ chain, ∀ x, b.Identifies x → x ∈ hashed) (hinj : Set.InjOn blake3 hashed)
    (hspending : Spending chain w.sent) :
    (∀ start len, Cut w.view chain
      (.new start (.of (prevAt chain start) ((chain.drop start).take len)))) ∧
    ∀ w', Reads hashed chain w w' →
      w.scannedHeight ≤ w'.scannedHeight ∧
      w.scanAll ((chain.drop w.scannedHeight).take (w'.scannedHeight - w.scannedHeight)) =
        .ok w' ∧
      ∀ chunk, Cut w.view chain chunk →
        Cut w.view chain (w'.wanted chunk).2 ∧
        (chunk.start ≤ w'.scannedHeight → w'.scannedHeight ≤ chunk.end →
          ∃ v, Reads hashed chain w v ∧ (v.scannedHeight = chunk.end ∨
            ∃ b, chain[v.scannedHeight]? = some b ∧
              v.scanBlock v.scannedHeight b = .error (Wallet.reorg v.scannedHeight))) ∧
        (∀ v chunk' out, w'.scanCompact chunk = .ok (v, chunk', out) →
          Cut w.view chain chunk' ∧ chunk'.start = chunk.start ∧ chunk'.run = chunk.run ∧
            Stops chain v chunk' out) ∧
        ∀ height r b, chain[height]? = some r → b.Fits → (∀ x, b.Identifies x → x ∈ hashed) →
          chunk.start ≤ height → height < chunk.end →
          b ≠ { r with
            extension := ⟨b.extension.nonce, r.extension.finalHash⟩
            auxPow := b.auxPow } →
          w'.scanFull chunk height b = .error (mismatch height) := by
  refine ⟨cut_new hlinked, ?_⟩
  intro w' hreads
  have hscans := hreads.scans hfits hids hinj hspending
  obtain ⟨hle, hall⟩ := hscans.scanAll
  refine ⟨hle, hall, ?_⟩
  intro chunk hcut
  have hchunk := fun hstart hend => hreads.chunk hfits hids hinj hspending
    (chunk.end - w'.scannedHeight) hcut hstart (Nat.add_sub_cancel' hend)
  rw [← hscans.view] at hcut
  refine ⟨?_, hchunk, ?_, ?_⟩
  · rw [← hscans.view]
    exact hcut.wanted
  · intro v chunk' out hcompact
    obtain ⟨hscans', hcut', hstart, hrun, hstops⟩ :=
      scanCompact_spec (hscans.spending hspending) hcut hcompact
    rw [hscans'.view, hscans.view] at hcut'
    exact ⟨hcut', hstart, hrun, hstops⟩
  · intro height r b hr hbfits hbids hstart hend hne
    have hmem := List.mem_of_getElem? hr
    have hinj' := identified_inj hinj hbids (hids r hmem)
    have hother : chunk.run.describes (height - chunk.start) b = false := by
      rw [← Bool.not_eq_true]
      intro hdescribes
      exact hne (hcut.described hr hbfits (hfits r hmem) hinj' hstart hend hdescribes)
    rw [scanFull, ScanChunk.index, if_pos ⟨hstart, hend⟩, orBail_some, bind_ok, hother,
      bailIf_pos (by rfl), bind_error]

end Reading

section Fixed

local instance : Primitives := Primitives.mixing

local instance : Decryption := ⟨fun _ _ _ => none⟩

/-- A payment of a coin, still to be confirmed. -/
def pendingPayment : Sent :=
  ⟨1, 2, ⟨1, 1, 0⟩, 5, 1, [7], none, 0, none, none, none, false⟩

/-- A watch-only wallet that has scanned nothing and waits for its payment. -/
def waiting : WalletCore :=
  ⟨⟨1, ⟨1, 1, 0⟩⟩, none, 0, [], [⟨⟨7, 1, 1, 0, [], 0⟩, 6, 0, false, none, some 1⟩],
    [pendingPayment]⟩

theorem linked_single (b : Batch) : Wallet.Linked [b] := fun k _ _ _ hc => by cases hc

theorem bareHashed_inj : Set.InjOn blake3 {x | x ∈ bareHashed} := by
  have hinj : ∀ p ∈ bareHashed, ∀ q ∈ bareHashed, blake3 p = blake3 q → p = q := by
    decide +kernel
  intro p hp q hq
  exact hinj p hp q hq

/-- The wallet reads a block by its scan data. -/
theorem compact_scan_exact_one : ∃ w', Reads {x | x ∈ bareHashed} [bareSolved] waiting w' ∧
    w'.scannedHeight = 1 ∧ waiting.scanAll [bareSolved] = .ok w' := by
  have hone : ∀ b ∈ [bareSolved], b = bareSolved := fun _ => List.mem_singleton.mp
  obtain ⟨hcut, hreads⟩ := compact_scan_exact (w := waiting) (linked_single bareSolved)
    (fun b hb => hone b hb ▸ bareSolved_fits)
    (fun b hb x hx => bareSolved_hashed (hone b hb ▸ hx)) bareHashed_inj
    (fun b hb s hs _ _ hkernel => by rw [hone b hb] at hkernel; cases hkernel)
  obtain ⟨-, hchunk, -⟩ := (hreads waiting .start).2.2 _ (hcut 0 1)
  obtain ⟨w', hw', hend⟩ := hchunk (Nat.le_refl 0) (Nat.zero_le _)
  obtain ⟨-, hall, -⟩ := hreads w' hw'
  cases hend with
  | inl hend =>
    rw [hend] at hall
    exact ⟨w', hw', hend, hall⟩
  | inr hreorg =>
    obtain ⟨b, hb, hscan⟩ := hreorg
    obtain ⟨hlt, -⟩ := List.getElem?_eq_some_iff.mp hb
    have hzero : w'.scannedHeight = 0 := Nat.lt_one_iff.mp hlt
    have hbuilds : w'.buildsOn w'.scannedHeight b.prevHeaderHash = true := by
      rw [hzero]
      rfl
    obtain ⟨v, hv⟩ := scanBlock_ok hbuilds
    rw [hv] at hscan
    cases hscan

def paidKernel : Kernel := ⟨.plain, 1, 0, 1, 1, ⟨0, 0, 0⟩⟩

/-- A block that carries the payment's kernel and spends nothing. -/
def kernelBlock : Batch := { bareBlock with body := ⟨⟨[], [], [paidKernel]⟩, 0, 0⟩ }

def waitingKernel : WalletCore :=
  { waiting with sent := [{ pendingPayment with kernel := paidKernel.id }] }

/-- The block with another nonce. -/
def otherNonce : Batch := { bareSolved with extension := ⟨2, bareSolved.extension.finalHash⟩ }

theorem otherNonce_hashed {x : Bytes} (h : otherNonce.Identifies x) : x ∈ bareHashed := by
  cases h with
  | contents h =>
    apply bareSolved_hashed
    apply Batch.Identifies.contents
    cases h with
    | tx => exact .tx
    | body => exact .body
    | root => exact .root
    | coinbase _ h | paid _ h | registrations h | registered h | relay _ h | relayed _ h =>
      cases h
  | auth m h => cases h
  | signed m h => cases h
  | header => exact bareSolved_hashed .header
  | auxId p h => cases h
  | aux p h => cases h

/-- A payment can be confirmed by a block that its scan data gives no reason to read, and a block
can differ from the chain's in its proof of work. -/
theorem other_proof_of_work_accepted :
    (¬ ∀ (chain : List Batch) (w w' : WalletCore) (chunk chunk' : ScanChunk) (out : CompactScan),
      Wallet.Linked chain → Cut w.view chain chunk →
      w.scanCompact chunk = .ok (w', chunk', out) →
      w.scanAll ((chain.drop w.scannedHeight).take (w'.scannedHeight - w.scannedHeight)) =
        .ok w') ∧
    ¬ ∀ (hashed : Set Bytes) (chain : List Batch) (w : WalletCore) (chunk : ScanChunk)
      (height : Nat) (r b : Batch), Wallet.Linked chain → (∀ b ∈ chain, b.Fits) →
      (∀ b ∈ chain, ∀ x, b.Identifies x → x ∈ hashed) → Set.InjOn blake3 hashed →
      Cut w.view chain chunk → chain[height]? = some r → b.Fits →
      (∀ x, b.Identifies x → x ∈ hashed) → chunk.start ≤ height → height < chunk.end → b ≠ r →
      w.scanFull chunk height b = .error (mismatch height) := by
  constructor
  · intro hall
    have hsame := hall [kernelBlock] waitingKernel
      (waitingKernel.finishBlock 0 kernelBlock.extension.finalHash) _ _ ⟨1, false, none⟩
      (linked_single kernelBlock) (cut_new (linked_single kernelBlock) 0 1) rfl
    have hsent := congrArg (fun r => r.toOption.map WalletCore.sent) hsame
    have hheight := congrArg (fun o => o.map (List.map Sent.height)) hsent
    revert hheight
    decide +kernel
  · intro hall
    have hone : ∀ b ∈ [bareSolved], b = bareSolved := fun _ => List.mem_singleton.mp
    have herr := hall {x | x ∈ bareHashed} [bareSolved] waiting _ 0 bareSolved otherNonce
      (linked_single bareSolved) (fun b hb => hone b hb ▸ bareSolved_fits)
      (fun b hb x hx => bareSolved_hashed (hone b hb ▸ hx)) bareHashed_inj
      (cut_new (linked_single bareSolved) 0 1) rfl
      (bareBlock_fits _) (fun x hx => otherNonce_hashed hx) (Nat.le_refl 0) Nat.zero_lt_one
      (by decide +kernel)
    have hdescribes : (ScanChunk.new 0 (.of (prevAt [bareSolved] 0)
        (([bareSolved].drop 0).take 1))).run.describes 0 otherNonce = true := by
      decide +kernel
    have hbuilds : waiting.buildsOn waiting.scannedHeight otherNonce.prevHeaderHash = true := rfl
    obtain ⟨v, hv⟩ := scanBlock_ok hbuilds
    rw [scanFull, ScanChunk.index, if_pos ⟨Nat.le_refl 0, Nat.zero_lt_one⟩, orBail_some, bind_ok,
      Nat.zero_sub, hdescribes, bailIf_neg (by simp), bind_ok] at herr
    exact nomatch hv.symm.trans herr

end Fixed

end WalletCore

end Midwimble
