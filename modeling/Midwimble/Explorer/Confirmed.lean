import Midwimble.Core.Explorer
import Midwimble.ForkChoice.Orphan
import Midwimble.Storage.Sessions

namespace Midwimble
open Fallible OrderedMap
set_option autoImplicit true

section Confirmed

variable [Primitives]

theorem headersFrom_eq (blocks : List Batch) (height : Nat) :
    headersFrom height blocks = (blocks.zipIdx height).map fun b => b.1.headerAt b.2 := by
  induction blocks generalizing height with
  | nil => rfl
  | cons b blocks ih => rw [headersFrom, ih, List.zipIdx_cons, List.map_cons]

omit [Primitives] in
theorem inFullFrom_eq (run : List CreditedBlock) (hle : fromHeight ≤ height) :
    inFullFrom fromHeight height run = run.countP fun c => c.InFull := by
  rw [inFullFrom]
  induction run generalizing height with
  | nil => rfl
  | cons c run ih =>
    rw [List.zipIdx_cons, List.countP_cons, List.countP_cons, ih (Nat.le_succ_of_le hle)]
    simp only [hle, true_and]

variable {S : Set Batch} {db : Database} {chain : List Batch} {s : State} {kept : Nat}
  {credits : List CreditedBlock}

theorem Database.Holds.loadHeaders (h : db.Holds chain kept) (hlen : chain.length < 2 ^ 63)
    (start : Nat) (hstart : start ≤ chain.length) :
    db.loadHeaders start (chain.length - start) = headersFrom start (chain.drop start) := by
  have hstop : satAdd64 start (chain.length - start) = chain.length := by
    rw [satAdd64]
    omega
  have hdrop : chain.zipIdx.drop start = (chain.drop start).zipIdx start := by
    have hlength : (chain.take start).length = start := by
      rw [List.length_take, Nat.min_eq_left hstart]
    have happend : chain.zipIdx = (chain.take start).zipIdx ++
        (chain.drop start).zipIdx (chain.take start).length := by
      rw [← Nat.zero_add (chain.take start).length, ← List.zipIdx_append, List.take_append_drop]
    rw [happend, List.drop_left' (by rw [List.length_zipIdx, hlength]), hlength]
  rw [Database.loadHeaders, hstop, h.headers.range, List.take_of_length_le (by simp), List.map_drop,
    List.map_map, ← List.map_drop, hdrop, headersFrom_eq]
  rfl

/-- The credits of blocks above others, as their weights say. -/
def creditsFrom (below : List Batch) : List Batch → List CreditedBlock
  | [] => []
  | b :: above =>
    ⟨b, (capWork (floorAfter below) below.length b.work).1, b.chainWeight - tipWeight below⟩ ::
      creditsFrom (below ++ [b]) above

theorem CreditedRun.fullWeightBlocks_eq (h : CreditedRun credits s)
    (hfits : (credits.map fun c => c.block.work).sum < 2 ^ 128) (height : Nat)
    (hheight : height < credits.length) (ht : ∀ c ∈ credits.drop height, c.Telling) :
    fullWeightBlocks (headersFrom (height - 1)
        ((credits.map CreditedBlock.block).drop (height - 1))) height =
      (credits.drop height).countP fun c => c.InFull := by
  have hsplit : credits = credits.take height ++ (credits.drop height ++ []) := by
    rw [List.append_nil, List.take_append_drop]
  have hlength : (credits.take height).length = height := by
    rw [List.length_take, Nat.min_eq_left (Nat.le_of_lt hheight)]
  have hcount : countFullWeight height _ _ = _ := h.countFullWeight_eq hfits hsplit ht
  rw [hlength, inFullFrom_eq _ (Nat.le_refl height)] at hcount
  rw [← hcount, fullWeightBlocks]
  cases height with
  | zero => rfl
  | succ n =>
    have hlt : n < (credits.map CreditedBlock.block).length := by
      rw [List.length_map]
      omega
    have hlast : headerBefore ((credits.take (n + 1)).map CreditedBlock.block) =
        some ((credits.map CreditedBlock.block)[n].headerAt n) := by
      rw [List.map_take, headerBefore, List.take_add_one, List.getElem?_eq_getElem hlt,
        Option.toList_some, List.getLast?_concat, Option.map_some, List.length_append,
        List.length_singleton, Nat.add_sub_cancel, List.length_take,
        Nat.min_eq_left (Nat.le_of_lt hlt)]
    rw [Nat.add_sub_cancel, List.drop_eq_getElem_cons hlt, headersFrom, countFullWeight, hlast,
      List.map_drop, if_neg, Nat.zero_add]
    rintro ⟨hge, -⟩
    exact Nat.not_succ_le_self n hge

theorem CreditedRun.creditable {below above : List CreditedBlock} (h : CreditedRun credits s)
    (hs : credits = below ++ c :: above) :
    c.creditable = (capWork (floorAfter (below.map CreditedBlock.block)) below.length
      c.block.work).1 := by
  induction h generalizing above with
  | start => simp at hs
  | @block chain t batch s ts skip hrun ha b hnext ih =>
    rcases List.eq_nil_or_concat above with rfl | ⟨above, x, rfl⟩
    · obtain ⟨rfl, hc⟩ := List.append_inj' hs rfl
      rw [List.singleton_inj] at hc
      subst hc
      have hheight := hrun.run.windowed.height
      rw [List.length_map] at hheight
      have hfloor : t.workFloor = floorAfter _ := hrun.run.windowed.floors
      rw [← hfloor, ← hheight]
    · rw [List.concat_eq_append, ← List.cons_append, ← List.append_assoc] at hs
      exact ih (List.append_inj_left' hs rfl)

theorem CreditedRun.eq_creditsFrom (h : CreditedRun credits s)
    (hfit : (credits.map fun c => c.block.work).sum < 2 ^ 128) {below above : List CreditedBlock}
    (hs : credits = below ++ above) :
    above = creditsFrom (below.map CreditedBlock.block) (above.map CreditedBlock.block) := by
  induction above generalizing below with
  | nil => rfl
  | cons c above ih =>
    have hcreditable := h.creditable hs
    have hweight := (h.above hfit hs).chainWeight
    have hrest := @ih (below ++ [c]) (by rw [hs, List.append_assoc]; rfl)
    rw [List.map_append] at hrest
    rw [List.map_cons, creditsFrom, ← List.map_singleton, ← hrest, List.length_map, ← hcreditable,
      hweight, Nat.add_sub_cancel_left]

/-- The explorer counts, of a block's confirmations, exactly the blocks that fork choice credited
with all they could be; of one deeper than the limit it counts none. -/
theorem confirmations_counted {peak : Nat} (ha : StoredApart S) (h : Database.Made S db chain peak)
    (hfits : WorkFits chain) (hlen : chain.length < 2 ^ 63) :
    ∃ credits s, CreditedRun credits s ∧ credits.map CreditedBlock.block = chain ∧
      credits = creditsFrom [] chain ∧
      (∀ height limit, ¬ (height < chain.length ∧ chain.length - height ≤ limit) →
        db.fullWeightConfirmations height chain.length limit = none) ∧
      ∀ height limit, height < chain.length ∧ chain.length - height ≤ limit →
        (∀ c ∈ credits.drop height, c.Telling) →
          db.fullWeightConfirmations height chain.length limit =
            some ((credits.drop height).countP fun c => c.InFull) := by
  obtain ⟨s, kept, hkeeps, -, -, hsub⟩ := h.keeps ha
  obtain ⟨credits, hcredits, rfl⟩ := hkeeps.built.run.credited
  have hwork : (credits.map fun c => c.block.work).sum < 2 ^ 128 := by
    unfold WorkFits at hfits
    rwa [List.map_map] at hfits
  have hsame : db.rootRelay.headers = db.headers := by
    unfold Database.rootRelay
    split <;> rfl
  refine ⟨credits, s, hcredits, rfl,
    hcredits.eq_creditsFrom hwork (List.nil_append credits).symm, ?_, ?_⟩
  · intro height limit hout
    rw [Database.fullWeightConfirmations, if_pos (by omega)]
  · intro height limit hin ht
    have hheaders := hkeeps.holds.loadHeaders hlen (height - 1) (by omega)
    rw [Database.loadHeaders, hsame, ← Database.loadHeaders] at hheaders
    rw [Database.fullWeightConfirmations, if_neg (by omega), hheaders,
      hcredits.fullWeightBlocks_eq hwork height (by rw [List.length_map] at hin; exact hin.1) ht]

end Confirmed

section Counted

local instance countedWords : Primitives := racedPrimitives

/-- Of the reorganised node's blocks, the first above genesis is unsigned and the two that the bond
signs count. -/
theorem confirmations_counted_forked : ∃ db : Database,
    Database.Made forkedBlocks db [.genesis, newBlock, newMiddle, newTop] 4 ∧
      db.fullWeightConfirmations 1 4 100 = some 2 ∧ db.fullWeightConfirmations 1 4 2 = none := by
  obtain ⟨db, hmade⟩ := forked_reorganised
  obtain ⟨credits, s, -, -, heq, hdeep, hall⟩ :=
    confirmations_counted forked_apart hmade branches_fit.out.2 (by decide)
  have htelling : ∀ c ∈ (creditsFrom [] [.genesis, newBlock, newMiddle, newTop]).drop 1,
      c.Telling := by
    unfold CreditedBlock.Telling
    decide +kernel
  have hcount : ((creditsFrom [] [.genesis, newBlock, newMiddle, newTop]).drop 1).countP
      (fun c => c.InFull) = 2 := by
    decide +kernel
  have hnew := hall 1 100 (by decide)
  rw [heq, hcount] at hnew
  exact ⟨db, hmade, hnew htelling, hdeep 1 2 (by decide)⟩

end Counted

end Midwimble
