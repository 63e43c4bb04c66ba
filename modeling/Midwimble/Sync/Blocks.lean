import Midwimble.Core.BlockSync
import Midwimble.Lib.OrderedMap

namespace Midwimble
open OrderedMap
set_option autoImplicit true

/-- A chunk as it was buffered: a header for each block, and the size it was counted with. -/
structure Chunk.Whole (serializedSize : Batch → Nat) (c : Chunk Peer) : Prop where
  bytes : c.bytes = (c.batches.map serializedSize).sum
  headers : c.headers.length = c.batches.length
  nonempty : 0 < c.batches.length

namespace BlockSync

variable {Peer : Type}

/-- The `n` heights from `k` on are buffered, in flight, queued or being applied. -/
inductive Holds (b : BlockSync Peer) : Nat → Nat → Prop
  | buffered {k : Nat} {c : Chunk Peer} (h : b.buffer[k]? = some c) : Holds b k c.batches.length
  | requested {k : Nat} {f : InFlight Peer} (h : b.inFlight[k]? = some f) : Holds b k f.count
  | queued {k n : Nat} (h : (k, n) ∈ b.retry) : Holds b k n
  | applying {state : State} {c : Chunk Peer} (h : b.applying = some (state, c)) :
    Holds b b.cursor c.batches.length

def Covered (b : BlockSync Peer) (height : Nat) : Prop :=
  ∃ k n, b.Holds k n ∧ k ≤ height ∧ height < k + n

/-- Every height from `base` up to the next one to request is covered, and the buffer's size is
that of its chunks. -/
structure Sound (serializedSize : Batch → Nat) (verifiedTo base : Nat) (b : BlockSync Peer) :
    Prop where
  covered : ∀ height, base ≤ height → height < b.nextRequest → b.Covered height
  bytes : b.bufferedBytes = valueSum Chunk.bytes b.buffer
  chunks : ∀ (k : Nat) (c : Chunk Peer), b.buffer[k]? = some c → c.Whole serializedSize
  task : ∀ state c, b.applying = some (state, c) → c.headers.length = c.batches.length
  fits : ∀ k n, b.Holds k n → n ≤ maxGetBatchesCount ∧ k + n ≤ verifiedTo
  next : b.nextRequest ≤ verifiedTo
  /-- Nothing is applied before the fork-point state is derived. -/
  early : b.rebuilding = true → b.candidate = none ∧ b.applying = none ∧
    b.cursor ≤ b.nextRequest ∧ ∀ k n, b.Holds k n → b.cursor ≤ k

variable {b : BlockSync Peer} {c : Chunk Peer} {state : State} {serializedSize : Batch → Nat}
  {verifiedTo base k n : Nat}

theorem sound_new {fork : Nat} {timestamps : List Nat} {candidate : Option State}
    (h : fork ≤ verifiedTo) :
    Sound serializedSize verifiedTo fork
      (new fork timestamps candidate : BlockSync Peer) := by
  have hnone : ∀ k n, ¬ (new fork timestamps candidate : BlockSync Peer).Holds k n := by
    intro k n hk
    cases hk with
    | buffered h => simp [new] at h
    | requested h => simp [new] at h
    | queued h => cases h
    | applying h => cases h
  constructor
  · intro height hle hlt
    exact absurd hlt (Nat.not_lt.mpr hle)
  · exact (valueSum_empty _).symm
  · intro k c h
    simp [new] at h
  · intro state c h
    cases h
  · intro k n hk
    exact absurd hk (hnone k n)
  · exact h
  · intro hr
    refine ⟨Option.isNone_iff_eq_none.mp hr, rfl, Nat.le_refl _, ?_⟩
    intro k n hk
    exact absurd hk (hnone k n)

theorem Sound.mono_verified (hb : b.Sound serializedSize verifiedTo base)
    (h : verifiedTo ≤ later) : b.Sound serializedSize later base where
  covered := hb.covered
  bytes := hb.bytes
  chunks := hb.chunks
  task := hb.task
  fits k n hk := ⟨(hb.fits k n hk).1, Nat.le_trans (hb.fits k n hk).2 h⟩
  next := Nat.le_trans hb.next h
  early := hb.early

theorem Sound.moved {inFlight retry excluded} (hb : b.Sound serializedSize verifiedTo base)
    (hto : ∀ k n, b.Holds k n → ∃ m, n ≤ m ∧
      { b with inFlight := inFlight, retry := retry, excluded := excluded }.Holds k m)
    (hof : ∀ k n,
      { b with inFlight := inFlight, retry := retry, excluded := excluded }.Holds k n →
        b.Holds k n) :
    { b with inFlight := inFlight, retry := retry, excluded := excluded }.Sound
      serializedSize verifiedTo base where
  covered height hle hlt := by
    obtain ⟨k, n, hk, hkh, hhk⟩ := hb.covered height hle hlt
    obtain ⟨m, hm, hk'⟩ := hto k n hk
    exact ⟨k, m, hk', hkh, by omega⟩
  bytes := hb.bytes
  chunks := hb.chunks
  task := hb.task
  fits k n hk := hb.fits k n (hof k n hk)
  next := hb.next
  early hr := by
    obtain ⟨hcand, happ, hnext, hle⟩ := hb.early hr
    exact ⟨hcand, happ, hnext, fun k n hk => hle k n (hof k n hk)⟩

theorem requeue_eq {f : InFlight Peer} (h : b.inFlight[k]? = some f) :
    b.requeue k =
      { b with inFlight := b.inFlight.erase k, retry := b.retry ++ [(k, f.count)] } := by
  rw [requeue, h]

theorem holds_requeue {f : InFlight Peer} (h : b.inFlight[k]? = some f) (excluded)
    {l m : Nat} :
    { b with
      inFlight := b.inFlight.erase k
      retry := b.retry ++ [(k, f.count)]
      excluded := excluded }.Holds l m ↔ b.Holds l m := by
  constructor
  · intro hl
    cases hl with
    | buffered h => exact .buffered h
    | requested h => exact .requested (getElem?_erase_eq_some.mp h).2
    | queued hq =>
      rcases List.mem_append.mp hq with hq | hq
      · exact .queued hq
      · obtain ⟨rfl, rfl⟩ := Prod.mk.inj (List.mem_singleton.mp hq)
        exact .requested h
    | applying h => exact .applying h
  · intro hl
    cases hl with
    | buffered h => exact .buffered h
    | @requested l f' h' =>
      by_cases hkl : k = l
      · subst hkl
        obtain rfl : f = f' := Option.some.inj (h.symm.trans h')
        exact .queued (List.mem_append_right _ List.mem_cons_self)
      · exact .requested (getElem?_erase_eq_some.mpr ⟨hkl, h'⟩)
    | queued hq => exact .queued (List.mem_append_left _ hq)
    | applying h => exact .applying h

theorem Sound.requeue (hb : b.Sound serializedSize verifiedTo base) (k : Nat) :
    (b.requeue k).Sound serializedSize verifiedTo base := by
  cases h : b.inFlight[k]? with
  | none => rwa [BlockSync.requeue, h]
  | some f =>
    rw [requeue_eq h]
    exact hb.moved (fun l m hl => ⟨m, Nat.le_refl m, (holds_requeue h _).mpr hl⟩)
      fun l m hl => (holds_requeue h _).mp hl

/-- Only requests differ. -/
structure Alike (b d : BlockSync Peer) : Prop where
  cursor : d.cursor = b.cursor
  buffer : d.buffer = b.buffer
  candidate : d.candidate = b.candidate
  applying : d.applying = b.applying

theorem Alike.refl (b : BlockSync Peer) : b.Alike b := ⟨rfl, rfl, rfl, rfl⟩

theorem Alike.trans {b d e : BlockSync Peer} (h : b.Alike d) (h' : d.Alike e) : b.Alike e where
  cursor := h'.cursor.trans h.cursor
  buffer := h'.buffer.trans h.buffer
  candidate := h'.candidate.trans h.candidate
  applying := h'.applying.trans h.applying

theorem alike_requeue (k : Nat) : b.Alike (b.requeue k) := by
  cases h : b.inFlight[k]? with
  | none =>
    rw [BlockSync.requeue, h]
    exact .refl b
  | some f =>
    rw [requeue_eq h]
    exact ⟨rfl, rfl, rfl, rfl⟩

theorem Sound.exclude (hb : b.Sound serializedSize verifiedTo base) (excluded : Finset Peer) :
    { b with excluded := excluded }.Sound serializedSize verifiedTo base := by
  apply hb.moved
  · intro k n h
    refine ⟨n, Nat.le_refl n, ?_⟩
    cases h with
    | buffered h => exact .buffered h
    | requested h => exact .requested h
    | queued h => exact .queued h
    | applying h => exact .applying h
  · intro k n h
    cases h with
    | buffered h => exact .buffered h
    | requested h => exact .requested h
    | queued h => exact .queued h
    | applying h => exact .applying h

theorem Sound.requeueAll {l : List Nat} (hb : b.Sound serializedSize verifiedTo base) :
    (l.foldl BlockSync.requeue b).Sound serializedSize verifiedTo base ∧
      b.Alike (l.foldl BlockSync.requeue b) := by
  induction l generalizing b with
  | nil => exact ⟨hb, .refl b⟩
  | cons k l ih =>
    obtain ⟨hsound, halike⟩ := ih (hb.requeue k)
    exact ⟨hsound, (alike_requeue k).trans halike⟩

theorem Sound.expireAll [DecidableEq Peer] {l : List Nat} (session : Peer)
    (hb : b.Sound serializedSize verifiedTo base) :
    (l.foldl (BlockSync.expire session) b).Sound serializedSize verifiedTo base ∧
      b.Alike (l.foldl (BlockSync.expire session) b) := by
  induction l generalizing b with
  | nil => exact ⟨hb, .refl b⟩
  | cons k l ih =>
    have hone : (b.expire session k).Sound serializedSize verifiedTo base ∧
        b.Alike (b.expire session k) := by
      have hr := hb.requeue k
      have ha := alike_requeue (b := b) k
      rw [expire]
      cases h : b.inFlight[k]? with
      | none => exact ⟨hb, .refl b⟩
      | some f =>
        dsimp only
        split
        · exact ⟨hr, ha⟩
        · exact ⟨hr.exclude _, ha.1, ha.2, ha.3, ha.4⟩
    obtain ⟨hsound, halike⟩ := ih hone.1
    exact ⟨hsound, hone.2.trans halike⟩

theorem removeChunk_eq (h : b.buffer[k]? = some c) :
    b.removeChunk k =
      { b with buffer := b.buffer.erase k, bufferedBytes := b.bufferedBytes - c.bytes } := by
  rw [removeChunk, h]

theorem holds_of_erase {l m bytes : Nat}
    (h : { b with buffer := b.buffer.erase k, bufferedBytes := bytes }.Holds l m) :
    b.Holds l m := by
  cases h with
  | buffered h => exact .buffered (getElem?_erase_eq_some.mp h).2
  | requested h => exact .requested h
  | queued h => exact .queued h
  | applying h => exact .applying h

theorem holds_erase {l m : Nat} (bytes : Nat) (hk : b.buffer[k]? = some c) (h : b.Holds l m) :
    { b with buffer := b.buffer.erase k, bufferedBytes := bytes }.Holds l m ∨
      l = k ∧ m = c.batches.length := by
  cases h with
  | @buffered l c' h =>
    by_cases hkl : k = l
    · subst hkl
      obtain rfl : c = c' := Option.some.inj (hk.symm.trans h)
      exact .inr ⟨rfl, rfl⟩
    · exact .inl (.buffered (getElem?_erase_eq_some.mpr ⟨hkl, h⟩))
  | requested h => exact .inl (.requested h)
  | queued h => exact .inl (.queued h)
  | applying h => exact .inl (.applying h)

theorem bytes_erase (hb : b.Sound serializedSize verifiedTo base)
    (hk : b.buffer[k]? = some c) :
    b.bufferedBytes - c.bytes = valueSum Chunk.bytes (b.buffer.erase k) := by
  rw [hb.bytes, valueSum_erase hk, Nat.add_sub_cancel_left]

theorem Sound.removeBehind (hb : b.Sound serializedSize verifiedTo base)
    (hk : b.buffer[k]? = some c) (hbehind : k + c.batches.length ≤ base) :
    (b.removeChunk k).Sound serializedSize verifiedTo base := by
  rw [removeChunk_eq hk]
  constructor
  · intro height hle hlt
    obtain ⟨l, m, hl, hlh, hhl⟩ := hb.covered height hle hlt
    rcases holds_erase _ hk hl with hl | ⟨rfl, rfl⟩
    · exact ⟨l, m, hl, hlh, hhl⟩
    · omega
  · exact bytes_erase hb hk
  · intro l c' h
    exact hb.chunks l c' (getElem?_erase_eq_some.mp h).2
  · exact hb.task
  · intro l m hl
    exact hb.fits l m (holds_of_erase hl)
  · exact hb.next
  · intro hr
    obtain ⟨hcand, happ, hnext, hle⟩ := hb.early hr
    exact ⟨hcand, happ, hnext, fun l m hl => hle l m (holds_of_erase hl)⟩

/-- A chunk dropped and asked for again. -/
theorem Sound.requeueChunk (hb : b.Sound serializedSize verifiedTo base)
    (hk : b.buffer[k]? = some c) :
    { b.removeChunk k with retry := b.retry ++ [(k, c.batches.length)] }.Sound
      serializedSize verifiedTo base := by
  rw [removeChunk_eq hk]
  have hof : ∀ l m, { b with
      buffer := b.buffer.erase k
      bufferedBytes := b.bufferedBytes - c.bytes
      retry := b.retry ++ [(k, c.batches.length)] }.Holds l m → b.Holds l m := by
    intro l m hl
    cases hl with
    | buffered h => exact .buffered (getElem?_erase_eq_some.mp h).2
    | requested h => exact .requested h
    | queued h =>
      rcases List.mem_append.mp h with h | h
      · exact .queued h
      · obtain ⟨rfl, rfl⟩ := Prod.mk.inj (List.mem_singleton.mp h)
        exact .buffered hk
    | applying h => exact .applying h
  constructor
  · intro height hle hlt
    obtain ⟨l, m, hl, hlh, hhl⟩ := hb.covered height hle hlt
    rcases holds_erase 0 hk hl with hl | ⟨rfl, rfl⟩
    · refine ⟨l, m, ?_, hlh, hhl⟩
      cases hl with
      | buffered h => exact .buffered h
      | requested h => exact .requested h
      | queued h => exact .queued (List.mem_append_left _ h)
      | applying h => exact .applying h
    · exact ⟨_, _, .queued (List.mem_append_right _ List.mem_cons_self), hlh, hhl⟩
  · exact bytes_erase hb hk
  · intro l c' h
    exact hb.chunks l c' (getElem?_erase_eq_some.mp h).2
  · exact hb.task
  · intro l m hl
    exact hb.fits l m (hof l m hl)
  · exact hb.next
  · intro hr
    obtain ⟨hcand, happ, hnext, hle⟩ := hb.early hr
    exact ⟨hcand, happ, hnext, fun l m hl => hle l m (hof l m hl)⟩

/-- The chunk at the cursor goes to the background task. -/
theorem Sound.apply (hb : b.Sound serializedSize verifiedTo b.cursor)
    (hcand : b.candidate = some state) (happ : b.applying = none)
    (hk : b.buffer[k]? = some c) (hle : k ≤ b.cursor) (hlt : b.cursor < k + c.batches.length) :
    (b.apply state k c).Sound serializedSize verifiedTo b.cursor := by
  have hlen : k + c.batches.length = b.cursor + (c.batches.drop (b.cursor - k)).length := by
    rw [List.length_drop]
    omega
  have hof : ∀ l m, (b.apply state k c).Holds l m → b.Holds l m ∨
      l = b.cursor ∧ m = (c.batches.drop (b.cursor - k)).length := by
    intro l m hl
    rw [BlockSync.apply, removeChunk_eq hk] at hl
    cases hl with
    | buffered h => exact .inl (.buffered (getElem?_erase_eq_some.mp h).2)
    | requested h => exact .inl (.requested h)
    | queued h => exact .inl (.queued h)
    | applying h =>
      obtain ⟨-, rfl⟩ := Prod.mk.inj (Option.some.inj h)
      exact .inr ⟨rfl, rfl⟩
  have hfits := hb.fits _ _ (.buffered hk)
  rw [BlockSync.apply, removeChunk_eq hk] at hof ⊢
  constructor
  · intro height hbase hnext
    obtain ⟨l, m, hl, hlh, hhl⟩ := hb.covered height hbase hnext
    rcases holds_erase 0 hk hl with hl | ⟨rfl, rfl⟩
    · refine ⟨l, m, ?_, hlh, hhl⟩
      cases hl with
      | buffered h => exact .buffered h
      | requested h => exact .requested h
      | queued h => exact .queued h
      | applying h => exact nomatch happ.symm.trans h
    · exact ⟨_, _, .applying rfl, hbase, by simpa only [← hlen] using hhl⟩
  · exact bytes_erase hb hk
  · intro l c' h
    exact hb.chunks l c' (getElem?_erase_eq_some.mp h).2
  · intro state' c' h
    obtain ⟨-, rfl⟩ := Prod.mk.inj (Option.some.inj h)
    rw [List.length_drop, List.length_drop, (hb.chunks k c hk).headers]
  · intro l m hl
    rcases hof l m hl with hl | ⟨rfl, rfl⟩
    · exact hb.fits l m hl
    · rw [← hlen, List.length_drop]
      exact ⟨Nat.le_trans (Nat.sub_le _ _) hfits.1, hfits.2⟩
  · exact hb.next
  · intro hr
    exact nomatch hcand.symm.trans (hb.early hr).1

theorem dropBehindLoop_induct {motive : BlockSync Peer → Prop} {l : List (Nat × Chunk Peer)}
    (hb : motive b) (hl : b.buffer.toList = l)
    (hstep : ∀ b k c, motive b → b.buffer[k]? = some c → k + c.batches.length ≤ b.cursor →
      motive (b.removeChunk k)) :
    motive (dropBehindLoop l b) ∧ ∀ k c, (dropBehindLoop l b).buffer.toList.head? = some (k, c) →
      (dropBehindLoop l b).cursor < k + c.batches.length := by
  induction l generalizing b with
  | nil =>
    refine ⟨hb, fun k c h => ?_⟩
    rw [dropBehindLoop, hl] at h
    cases h
  | cons e l ih =>
    obtain ⟨k, c⟩ := e
    have hk : b.buffer[k]? = some c := (head?_toList (by rw [hl]; rfl)).1
    rw [dropBehindLoop]
    by_cases hc : k + c.batches.length > b.cursor
    · rw [if_pos hc]
      refine ⟨hb, fun k' c' h => ?_⟩
      rw [hl] at h
      obtain ⟨rfl, rfl⟩ := Prod.mk.inj (Option.some.inj h)
      exact hc
    · rw [if_neg hc]
      apply ih (hstep b k c hb hk (Nat.not_lt.mp hc))
      rw [removeChunk_eq hk]
      exact toList_erase_head hl

/-- Once a chunk could be applied and none is, every buffered one is ahead of the cursor. -/
def Ahead (b : BlockSync Peer) : Prop :=
  b.applying = none → b.candidate.isSome → ∀ k c, b.buffer[k]? = some c → b.cursor < k

theorem Ahead.alike {d : BlockSync Peer} (hb : b.Ahead) (h : b.Alike d) : d.Ahead := by
  intro happ hcand k c hk
  rw [h.applying] at happ
  rw [h.candidate] at hcand
  rw [h.buffer] at hk
  rw [h.cursor]
  exact hb happ hcand k c hk

theorem Sound.dropBehind (hb : b.Sound serializedSize verifiedTo b.cursor) :
    (b.dropBehind.Sound serializedSize verifiedTo b.cursor ∧ b.dropBehind.cursor = b.cursor ∧
      b.dropBehind.candidate = b.candidate ∧ b.dropBehind.applying = b.applying) ∧
    ∀ k c, b.dropBehind.buffer.toList.head? = some (k, c) →
      b.dropBehind.cursor < k + c.batches.length := by
  apply dropBehindLoop_induct (motive := fun d => d.Sound serializedSize verifiedTo b.cursor ∧
    d.cursor = b.cursor ∧ d.candidate = b.candidate ∧ d.applying = b.applying)
    ⟨hb, rfl, rfl, rfl⟩ rfl
  rintro d k c ⟨hd, hcur, hcand, happ⟩ hk hbehind
  refine ⟨hd.removeBehind hk (hcur ▸ hbehind), ?_⟩
  rw [removeChunk_eq hk]
  exact ⟨hcur, hcand, happ⟩

theorem tryApplyNext_empty (happ : b.applying = none) (hcand : b.candidate = some state)
    (hfirst : b.dropBehind.buffer.toList.head? = none) : b.tryApplyNext = b.dropBehind := by
  rw [tryApplyNext, happ, hcand]
  dsimp only
  rw [hfirst]

theorem tryApplyNext_first (happ : b.applying = none) (hcand : b.candidate = some state)
    (hfirst : b.dropBehind.buffer.toList.head? = some (k, c)) :
    b.tryApplyNext =
      if k > b.dropBehind.cursor then b.dropBehind else b.dropBehind.apply state k c := by
  rw [tryApplyNext, happ, hcand]
  dsimp only
  rw [hfirst]

theorem tryApplyNext_eq_self
    (hhead : ∀ k c, b.buffer.toList.head? = some (k, c) → b.cursor < k + c.batches.length)
    (hnone : b.tryApplyNext.applying = none) : b.tryApplyNext = b := by
  have hdrop : b.dropBehind = b := by
    rw [BlockSync.dropBehind]
    cases hl : b.buffer.toList with
    | nil => rfl
    | cons e l => exact if_pos (hhead e.1 e.2 (by rw [hl]; rfl))
  cases happ : b.applying with
  | some task => rw [BlockSync.tryApplyNext, happ]
  | none =>
    cases hcand : b.candidate with
    | none => rw [BlockSync.tryApplyNext, happ, hcand]
    | some state =>
      cases hfirst : b.dropBehind.buffer.toList.head? with
      | none => rw [tryApplyNext_empty happ hcand hfirst, hdrop]
      | some first =>
        rw [tryApplyNext_first happ hcand hfirst] at hnone ⊢
        split
        · exact hdrop
        · rename_i hle
          rw [if_neg hle] at hnone
          cases hnone

theorem Sound.tryApplyNext (hb : b.Sound serializedSize verifiedTo b.cursor) :
    b.tryApplyNext.Sound serializedSize verifiedTo b.cursor ∧
      b.tryApplyNext.cursor = b.cursor ∧ b.tryApplyNext.Ahead := by
  cases happ : b.applying with
  | some task =>
    have heq : b.tryApplyNext = b := by rw [BlockSync.tryApplyNext, happ]
    rw [heq]
    exact ⟨hb, rfl, fun h => nomatch happ.symm.trans h⟩
  | none =>
    cases hcand : b.candidate with
    | none =>
      have heq : b.tryApplyNext = b := by rw [BlockSync.tryApplyNext, happ, hcand]
      rw [heq]
      refine ⟨hb, rfl, fun _ h => ?_⟩
      rw [hcand] at h
      cases h
    | some state =>
      obtain ⟨⟨hd, hcur, hcand', happ'⟩, hhead⟩ := hb.dropBehind
      cases hfirst : b.dropBehind.buffer.toList.head? with
      | none =>
        rw [tryApplyNext_empty happ hcand hfirst]
        refine ⟨hd, hcur, fun _ _ k c h => ?_⟩
        rw [List.head?_eq_none_iff] at hfirst
        rw [← Std.ExtTreeMap.mem_toList_iff_getElem?_eq_some, hfirst] at h
        cases h
      | some first =>
        obtain ⟨k, c⟩ := first
        obtain ⟨hk, hleast⟩ := head?_toList hfirst
        rw [tryApplyNext_first happ hcand hfirst]
        by_cases hlt : k > b.dropBehind.cursor
        · rw [if_pos hlt]
          refine ⟨hd, hcur, fun _ _ l c' h => ?_⟩
          rcases hleast l c' h with rfl | hcmp
          · exact hlt
          · exact Nat.lt_trans hlt (Nat.compare_eq_lt.mp hcmp)
        · rw [if_neg hlt]
          rw [← hcur] at hd ⊢
          have ha := hd.apply (hcand'.trans hcand) (happ'.trans happ) hk (Nat.not_lt.mp hlt)
            (hhead k c hfirst)
          refine ⟨ha, ?_, fun h => ?_⟩
          · rw [BlockSync.apply, removeChunk_eq hk]
          · rw [BlockSync.apply] at h
            cases h

/-- Blocks that came for a request are buffered, and the rest of it queued. -/
theorem Sound.accept {f : InFlight Peer} {start : Nat} {batches : List Batch}
    {headers : List BatchHeader} (peer : Peer) (hb : b.Sound serializedSize verifiedTo base)
    (hreq : b.inFlight[start]? = some f) (hfree : b.buffer[start]? = none)
    (hgot : 0 < batches.length) (hle : batches.length ≤ f.count)
    (hheaders : headers.length = batches.length) :
    (SyncSession.accept serializedSize { b with inFlight := b.inFlight.erase start } peer start
      f.count batches headers).Sound serializedSize verifiedTo base := by
  have hof : ∀ l m, (SyncSession.accept serializedSize
      { b with inFlight := b.inFlight.erase start } peer start f.count batches headers).Holds l m →
        b.Holds l m ∨ l = start ∧ m = batches.length ∨
          l = start + batches.length ∧ m = f.count - batches.length := by
    intro l m hl
    cases hl with
    | buffered h =>
      rcases getElem?_insert_eq_some.mp h with ⟨rfl, rfl⟩ | ⟨-, h⟩
      · exact .inr (.inl ⟨rfl, rfl⟩)
      · exact .inl (.buffered h)
    | requested h => exact .inl (.requested (getElem?_erase_eq_some.mp h).2)
    | queued h =>
      rw [SyncSession.accept] at h
      dsimp only at h
      split at h
      · rcases List.mem_cons.mp h with h | h
        · exact .inr (.inr (Prod.mk.inj h))
        · exact .inl (.queued h)
      · exact .inl (.queued h)
    | applying h => exact .inl (.applying h)
  have hfits := hb.fits _ _ (.requested hreq)
  constructor
  · intro height hbase hnext
    obtain ⟨l, m, hl, hlh, hhl⟩ := hb.covered height hbase hnext
    cases hl with
    | @buffered l c h =>
      refine ⟨l, _, .buffered (getElem?_insert_eq_some.mpr (.inr ⟨?_, h⟩)), hlh, hhl⟩
      rintro rfl
      rw [hfree] at h
      cases h
    | @requested l f' h =>
      by_cases hls : start = l
      · subst hls
        obtain rfl : f = f' := Option.some.inj (hreq.symm.trans h)
        by_cases hh : height < start + batches.length
        · exact ⟨start, batches.length, .buffered (c := ⟨peer, batches, headers, _⟩)
            (getElem?_insert_eq_some.mpr (.inl ⟨rfl, rfl⟩)), hlh, hh⟩
        · refine ⟨start + batches.length, f.count - batches.length, .queued ?_,
            Nat.not_lt.mp hh, by omega⟩
          rw [SyncSession.accept]
          dsimp only
          rw [if_pos (by omega)]
          exact List.mem_cons_self
      · exact ⟨l, _, .requested (getElem?_erase_eq_some.mpr ⟨hls, h⟩), hlh, hhl⟩
    | queued h =>
      refine ⟨l, m, .queued ?_, hlh, hhl⟩
      rw [SyncSession.accept]
      dsimp only
      split
      · exact List.mem_cons_of_mem _ h
      · exact h
    | applying h => exact ⟨_, _, .applying h, hlh, hhl⟩
  · rw [SyncSession.accept]
    dsimp only
    rw [valueSum_insert hfree, hb.bytes, Nat.add_comm]
  · intro l c h
    rcases getElem?_insert_eq_some.mp h with ⟨-, rfl⟩ | ⟨-, h⟩
    · exact ⟨rfl, hheaders, hgot⟩
    · exact hb.chunks l c h
  · exact hb.task
  · intro l m hl
    rcases hof l m hl with hl | ⟨rfl, rfl⟩ | ⟨rfl, rfl⟩
    · exact hb.fits l m hl
    · omega
    · omega
  · exact hb.next
  · intro hr
    obtain ⟨hcand, happ, hnext, hearly⟩ := hb.early hr
    refine ⟨hcand, happ, hnext, fun l m hl => ?_⟩
    have hstart := hearly _ _ (.requested hreq)
    rcases hof l m hl with hl | ⟨rfl, -⟩ | ⟨rfl, -⟩
    · exact hearly l m hl
    · exact hstart
    · exact Nat.le_add_right_of_le hstart

theorem nextRange_eq_some {range : Nat × Nat} {next : BlockSync Peer}
    (h : b.nextRange verifiedTo = some (range, next)) :
    (∃ rest, b.retry = range :: rest ∧ next = { b with retry := rest }) ∨
      (b.retry = [] ∧ b.nextRequest < verifiedTo ∧
        range = (b.nextRequest, min (verifiedTo - b.nextRequest) maxGetBatchesCount) ∧
        next = { b with nextRequest := b.nextRequest + range.2 }) := by
  rw [nextRange] at h
  cases hretry : b.retry with
  | cons r rest =>
    rw [hretry] at h
    obtain ⟨rfl, rfl⟩ := Prod.mk.inj (Option.some.inj h)
    exact .inl ⟨rest, rfl, rfl⟩
  | nil =>
    rw [hretry] at h
    obtain ⟨hlt, h⟩ := Option.ite_none_left_eq_some.mp h
    obtain ⟨rfl, rfl⟩ := Prod.mk.inj (Option.some.inj h)
    exact .inr ⟨rfl, Nat.not_le.mp fun hle => hlt (.inl hle), rfl, rfl⟩

theorem nextRange_eq_none : b.nextRange verifiedTo = none ↔
    b.retry = [] ∧ (b.nextRequest ≥ verifiedTo ∨
      b.nextRequest ≥ min (b.cursor + batchLookaheadBlocks) (2 ^ 64 - 1)) := by
  rw [nextRange]
  cases b.retry with
  | cons r rest => exact ⟨nofun, fun h => nomatch h.1⟩
  | nil =>
    dsimp only
    rw [ite_eq_left_iff]
    constructor
    · intro h
      exact ⟨rfl, by_contra fun hn => nomatch h hn⟩
    · rintro ⟨-, h⟩ hn
      exact absurd h hn

theorem Sound.sendQueued {range : Nat × Nat} {rest : List (Nat × Nat)} (peer : Peer)
    (hb : b.Sound serializedSize verifiedTo base) (hretry : b.retry = range :: rest)
    (hapart : ∀ f, b.inFlight[range.1]? = some f → f.count ≤ range.2) :
    (send { b with retry := rest } peer range).Sound serializedSize verifiedTo base := by
  apply hb.moved
  · intro l m hl
    cases hl with
    | buffered h => exact ⟨_, Nat.le_refl _, .buffered h⟩
    | @requested l f h =>
      by_cases hr : range.1 = l
      · subst hr
        exact ⟨range.2, hapart f h,
          .requested (f := ⟨peer, range.2⟩) (getElem?_insert_eq_some.mpr (.inl ⟨rfl, rfl⟩))⟩
      · exact ⟨_, Nat.le_refl _, .requested (getElem?_insert_eq_some.mpr (.inr ⟨hr, h⟩))⟩
    | queued h =>
      rw [hretry] at h
      rcases List.mem_cons.mp h with rfl | h
      · exact ⟨m, Nat.le_refl m,
          .requested (f := ⟨peer, m⟩) (getElem?_insert_eq_some.mpr (.inl ⟨rfl, rfl⟩))⟩
      · exact ⟨m, Nat.le_refl m, .queued h⟩
    | applying h => exact ⟨_, Nat.le_refl _, .applying h⟩
  · intro l m hl
    cases hl with
    | buffered h => exact .buffered h
    | requested h =>
      rcases getElem?_insert_eq_some.mp h with ⟨rfl, rfl⟩ | ⟨-, h⟩
      · exact .queued (hretry ▸ List.mem_cons_self)
      · exact .requested h
    | queued h => exact .queued (hretry ▸ List.mem_cons_of_mem _ h)
    | applying h => exact .applying h

/-- The next heights never asked for are. -/
theorem Sound.sendNext {count : Nat} (peer : Peer)
    (hb : b.Sound serializedSize verifiedTo base) (hcount : count ≤ maxGetBatchesCount)
    (hto : b.nextRequest + count ≤ verifiedTo)
    (hapart : ∀ f, b.inFlight[b.nextRequest]? = some f → f.count ≤ count) :
    (send { b with nextRequest := b.nextRequest + count } peer (b.nextRequest, count)).Sound
      serializedSize verifiedTo base := by
  have hnew : (send { b with nextRequest := b.nextRequest + count } peer
      (b.nextRequest, count)).Holds b.nextRequest count :=
    .requested (f := ⟨peer, count⟩) (getElem?_insert_eq_some.mpr (.inl ⟨rfl, rfl⟩))
  have hof : ∀ l m, (send { b with nextRequest := b.nextRequest + count } peer
      (b.nextRequest, count)).Holds l m → b.Holds l m ∨ l = b.nextRequest ∧ m = count := by
    intro l m hl
    cases hl with
    | buffered h => exact .inl (.buffered h)
    | requested h =>
      rcases getElem?_insert_eq_some.mp h with ⟨rfl, rfl⟩ | ⟨-, h⟩
      · exact .inr ⟨rfl, rfl⟩
      · exact .inl (.requested h)
    | queued h => exact .inl (.queued h)
    | applying h => exact .inl (.applying h)
  constructor
  · intro height hbase hnext
    by_cases hold : height < b.nextRequest
    · obtain ⟨l, m, hl, hlh, hhl⟩ := hb.covered height hbase hold
      cases hl with
      | buffered h => exact ⟨l, _, .buffered h, hlh, hhl⟩
      | @requested l f h =>
        by_cases hr : b.nextRequest = l
        · omega
        · exact ⟨l, _, .requested (getElem?_insert_eq_some.mpr (.inr ⟨hr, h⟩)), hlh, hhl⟩
      | queued h => exact ⟨l, m, .queued h, hlh, hhl⟩
      | applying h => exact ⟨_, _, .applying h, hlh, hhl⟩
    · exact ⟨_, _, hnew, Nat.not_lt.mp hold, hnext⟩
  · exact hb.bytes
  · exact hb.chunks
  · exact hb.task
  · intro l m hl
    rcases hof l m hl with hl | ⟨rfl, rfl⟩
    · exact hb.fits l m hl
    · exact ⟨hcount, hto⟩
  · exact hto
  · intro hr
    obtain ⟨hcand, happ, hnext, hearly⟩ := hb.early hr
    refine ⟨hcand, happ, Nat.le_add_right_of_le hnext, fun l m hl => ?_⟩
    rcases hof l m hl with hl | ⟨rfl, -⟩
    · exact hearly l m hl
    · exact hnext

section Schedule

variable [DecidableEq Peer] {tips : List (Peer × Nat)} {session : Peer} {fuel : Nat}

/-- No request is sent in place of a longer one. -/
def SendsApart (tips : List (Peer × Nat)) (session : Peer) (verifiedTo : Nat) :
    (fuel : Nat) → BlockSync Peer → Prop
  | 0, _ => True
  | fuel + 1, b =>
    b.inFlight.size < maxBatchRequestsInFlight ∧ b.bufferedBytes < maxBufferBytes →
      ∀ range next, b.nextRange verifiedTo = some (range, next) →
        (∀ f, b.inFlight[range.1]? = some f → f.count ≤ range.2) ∧
          SendsApart tips session verifiedTo fuel
            (next.send (next.pickPeer tips session range) range)

theorem scheduleLoop_induct {motive : BlockSync Peer → Prop} (hb : motive b)
    (hapart : SendsApart tips session verifiedTo fuel b)
    (hstep : ∀ b range next peer, motive b → b.nextRange verifiedTo = some (range, next) →
      (∀ f, b.inFlight[range.1]? = some f → f.count ≤ range.2) → motive (next.send peer range)) :
    motive (scheduleLoop tips session verifiedTo fuel b) := by
  induction fuel generalizing b with
  | zero => exact hb
  | succ fuel ih =>
    rw [scheduleLoop]
    split
    · rename_i hroom
      cases hnext : b.nextRange verifiedTo with
      | none => exact hb
      | some r =>
        obtain ⟨range, next⟩ := r
        obtain ⟨hold, hrest⟩ := hapart hroom range next hnext
        exact ih (hstep b range next _ hb hnext hold) hrest
    · exact hb

theorem sendsApart_of_fresh (hretry : b.retry = [])
    (hkeys : ∀ k f, b.inFlight[k]? = some f → k < b.nextRequest) :
    SendsApart tips session verifiedTo fuel b := by
  induction fuel generalizing b with
  | zero => trivial
  | succ fuel ih =>
    intro _ range next hnext
    rcases nextRange_eq_some hnext with ⟨rest, hcons, -⟩ | ⟨-, hlt, rfl, rfl⟩
    · exact nomatch hretry.symm.trans hcons
    · constructor
      · intro f hf
        exact absurd (hkeys _ f hf) (Nat.lt_irrefl _)
      · refine ih (b := send _ _ _) hretry fun k f hk => ?_
        simp only [send, maxGetBatchesCount]
        rcases getElem?_insert_eq_some.mp hk with ⟨rfl, -⟩ | ⟨-, hk⟩
        · omega
        · have := hkeys k f hk
          omega

/-- What `scheduleBatchRequests` leaves to be: it stops where it may not or need not send. -/
def Rested (b : BlockSync Peer) (verifiedTo : Nat) : Prop :=
  b.inFlight.size < maxBatchRequestsInFlight → b.bufferedBytes < maxBufferBytes →
    b.nextRange verifiedTo = none

omit [DecidableEq Peer] in
theorem rounds_send {range : Nat × Nat} {next : BlockSync Peer} (peer : Peer)
    (h : b.nextRange verifiedTo = some (range, next)) :
    (next.send peer range).rounds verifiedTo < b.rounds verifiedTo := by
  rcases nextRange_eq_some h with ⟨rest, hretry, rfl⟩ | ⟨hretry, hlt, rfl, rfl⟩
  · simp only [send, rounds, hretry, List.length_cons]
    omega
  · simp only [send, rounds, hretry, maxGetBatchesCount]
    omega

theorem rested_scheduleLoop (h : b.rounds verifiedTo ≤ fuel) :
    (scheduleLoop tips session verifiedTo fuel b).Rested verifiedTo := by
  induction fuel generalizing b with
  | zero =>
    intro _ _
    rw [scheduleLoop]
    cases hnext : b.nextRange verifiedTo with
    | none => rfl
    | some r =>
      have := rounds_send session hnext
      omega
  | succ fuel ih =>
    rw [scheduleLoop]
    split
    · cases hnext : b.nextRange verifiedTo with
      | none =>
        intro _ _
        exact hnext
      | some r =>
        apply ih
        exact Nat.le_of_lt_succ (Nat.lt_of_lt_of_le (rounds_send _ hnext) h)
    · rename_i hroom
      intro hsize hbytes
      exact absurd ⟨hsize, hbytes⟩ hroom

theorem Sound.scheduleLoop (hb : b.Sound serializedSize verifiedTo base)
    (hapart : SendsApart tips session verifiedTo fuel b) :
    (b.scheduleLoop tips session verifiedTo fuel).Sound serializedSize verifiedTo base := by
  refine scheduleLoop_induct hb hapart fun b range next peer hb hnext hold => ?_
  rcases nextRange_eq_some hnext with ⟨rest, hretry, rfl⟩ | ⟨hretry, hlt, rfl, rfl⟩
  · exact hb.sendQueued peer hretry hold
  · exact hb.sendNext peer (Nat.min_le_right _ _) (by omega) hold

theorem alike_scheduleLoop : b.Alike (b.scheduleLoop tips session verifiedTo fuel) := by
  induction fuel generalizing b with
  | zero => exact .refl b
  | succ fuel ih =>
    rw [BlockSync.scheduleLoop]
    split
    · cases hnext : b.nextRange verifiedTo with
      | none => exact .refl b
      | some r =>
        obtain ⟨range, next⟩ := r
        have hsend : b.Alike (next.send (next.pickPeer tips session range) range) := by
          rcases nextRange_eq_some hnext with ⟨rest, -, rfl⟩ | ⟨-, -, -, rfl⟩
          · exact ⟨rfl, rfl, rfl, rfl⟩
          · exact ⟨rfl, rfl, rfl, rfl⟩
        exact hsend.trans ih
    · exact .refl b

end Schedule

theorem Sound.requeueChunks {l : List (Nat × Chunk Peer)}
    (hb : b.Sound serializedSize verifiedTo base) (hl : ∀ e ∈ l, b.buffer[e.1]? = some e.2)
    (hne : l.Pairwise fun x y => x.1 ≠ y.1) :
    ∃ d, l.foldl (fun b e =>
        { b.removeChunk e.1 with retry := b.retry ++ [(e.1, e.2.batches.length)] }) b = d ∧
      d.Sound serializedSize verifiedTo base ∧ d.cursor = b.cursor ∧
      d.rebuilding = b.rebuilding ∧
      ∀ k c, d.buffer[k]? = some c → b.buffer[k]? = some c ∧ ∀ e ∈ l, e.1 ≠ k := by
  induction l generalizing b with
  | nil =>
    exact ⟨b, rfl, hb, rfl, rfl, fun k c h => ⟨h, fun e he => nomatch he⟩⟩
  | cons e l ih =>
    obtain ⟨hk, hl⟩ := List.forall_mem_cons.mp hl
    obtain ⟨he, hne⟩ := List.pairwise_cons.mp hne
    have heq := removeChunk_eq hk
    have hl' : ∀ x ∈ l, { b.removeChunk e.1 with
        retry := b.retry ++ [(e.1, e.2.batches.length)] }.buffer[x.1]? = some x.2 := by
      intro x hx
      rw [heq]
      exact getElem?_erase_eq_some.mpr ⟨he x hx, hl x hx⟩
    obtain ⟨d, hd, hsound, hcur, hreb, hbuf⟩ := ih (hb.requeueChunk hk) hl' hne
    refine ⟨d, hd, hsound, ?_, ?_, fun k c h => ?_⟩
    · rw [hcur, heq]
    · rw [hreb, heq]
    · obtain ⟨hin, hout⟩ := hbuf k c h
      rw [heq] at hin
      obtain ⟨hek, hin⟩ := getElem?_erase_eq_some.mp hin
      exact ⟨hin, List.forall_mem_cons.mpr ⟨hek, hout⟩⟩

/-- Queueing a range again takes nothing away. -/
theorem Sound.queue {count : Nat} (hb : b.Sound serializedSize verifiedTo base)
    (hcount : count ≤ maxGetBatchesCount) (hto : b.cursor + count ≤ verifiedTo)
    (hspan : base ≤ b.cursor + count) :
    { b with retry := (b.cursor, count) :: b.retry }.Sound serializedSize verifiedTo b.cursor := by
  have hof : ∀ l m, { b with retry := (b.cursor, count) :: b.retry }.Holds l m →
      b.Holds l m ∨ l = b.cursor ∧ m = count := by
    intro l m hl
    cases hl with
    | buffered h => exact .inl (.buffered h)
    | requested h => exact .inl (.requested h)
    | queued h =>
      rcases List.mem_cons.mp h with h | h
      · exact .inr (Prod.mk.inj h)
      · exact .inl (.queued h)
    | applying h => exact .inl (.applying h)
  constructor
  · intro height hbase hnext
    by_cases hold : height < b.cursor + count
    · exact ⟨_, _, .queued List.mem_cons_self, hbase, hold⟩
    · obtain ⟨l, m, hl, hlh, hhl⟩ :=
        hb.covered height (Nat.le_trans hspan (Nat.not_lt.mp hold)) hnext
      refine ⟨l, m, ?_, hlh, hhl⟩
      cases hl with
      | buffered h => exact .buffered h
      | requested h => exact .requested h
      | queued h => exact .queued (List.mem_cons_of_mem _ h)
      | applying h => exact .applying h
  · exact hb.bytes
  · exact hb.chunks
  · exact hb.task
  · intro l m hl
    rcases hof l m hl with hl | ⟨rfl, rfl⟩
    · exact hb.fits l m hl
    · exact ⟨hcount, hto⟩
  · exact hb.next
  · intro hr
    obtain ⟨hcand, happ, hnext, hearly⟩ := hb.early hr
    refine ⟨hcand, happ, hnext, fun l m hl => ?_⟩
    rcases hof l m hl with hl | ⟨rfl, -⟩
    · exact hearly l m hl
    · exact Nat.le_refl _

section Refetch

variable [DecidableEq Peer] {source : Peer}

/-- What an invalid chunk leaves uncovered is asked for again, up to the next buffered one. -/
theorem Sound.refetch (hb : b.Sound serializedSize verifiedTo base)
    (hwhole : ∀ k c, b.buffer[k]? = some c → c.source ≠ source → base ≤ k)
    (hspan : base ≤ b.cursor + maxGetBatchesCount) (hto : base ≤ verifiedTo)
    (hmax : verifiedTo < 2 ^ 64) :
    (b.refetch source verifiedTo).Sound serializedSize verifiedTo b.cursor ∧
      (b.refetch source verifiedTo).cursor = b.cursor := by
  obtain ⟨d, hd, hsound, hcur, -, hbuf⟩ := (hb.exclude (insert source b.excluded)).requeueChunks
    (l := b.buffer.toList.filter fun e => e.2.source = source)
    (fun e he => Std.ExtTreeMap.mem_toList_iff_getElem?_eq_some.mp (List.mem_of_mem_filter he))
    ((pairwise_toList b.buffer).filter _)
  change d.cursor = b.cursor at hcur
  have hothers : ∀ k c, d.buffer[k]? = some c → base ≤ k := by
    intro k c h
    obtain ⟨hin, hout⟩ := hbuf k c h
    refine hwhole k c hin fun hsource => hout (k, c) (List.mem_filter.mpr ⟨?_, ?_⟩) rfl
    · exact Std.ExtTreeMap.mem_toList_iff_getElem?_eq_some.mpr hin
    · exact decide_eq_true hsource
  have hnext : base ≤ (d.buffer.toList.head?.map Prod.fst).getD (2 ^ 64 - 1) := by
    cases hfirst : d.buffer.toList.head? with
    | none =>
      rw [Option.map_none, Option.getD_none]
      omega
    | some e => exact hothers e.1 e.2 (head?_toList hfirst).1
  rw [BlockSync.refetch]
  dsimp only
  rw [hd, hcur]
  generalize (d.buffer.toList.head?.map Prod.fst).getD (2 ^ 64 - 1) = nextKey at hnext
  rw [← hcur] at hspan ⊢
  split
  · exact ⟨hsound.queue (Nat.min_le_right _ _) (by omega) (by omega), rfl⟩
  · refine ⟨?_, rfl⟩
    have hbase : base ≤ d.cursor := by
      simp only [maxGetBatchesCount] at *
      omega
    exact { hsound with covered := fun height h => hsound.covered height (Nat.le_trans hbase h) }

end Refetch

/-- How many heights the answers before the next application can still hold. -/
def outstanding (b : BlockSync Peer) : Nat :=
  valueSum InFlight.count b.inFlight + (b.retry.map Prod.snd).sum +
    (b.cursor + batchLookaheadBlocks + maxGetBatchesCount - b.nextRequest)

theorem outstanding_requeue : (b.requeue k).outstanding = b.outstanding := by
  cases h : b.inFlight[k]? with
  | none => rw [BlockSync.requeue, h]
  | some f =>
    rw [requeue_eq h, outstanding, outstanding, valueSum_erase h, List.map_append,
      List.sum_append, List.map_singleton, List.sum_singleton]
    dsimp only
    omega

theorem outstanding_requeueAll {l : List Nat} :
    (l.foldl BlockSync.requeue b).outstanding = b.outstanding := by
  induction l generalizing b with
  | nil => rfl
  | cons k l ih => exact ih.trans outstanding_requeue

theorem outstanding_expireAll [DecidableEq Peer] {l : List Nat} {session : Peer} :
    (l.foldl (BlockSync.expire session) b).outstanding = b.outstanding := by
  induction l generalizing b with
  | nil => rfl
  | cons k l ih =>
    refine ih.trans ?_
    rw [expire]
    cases b.inFlight[k]? with
    | none => rfl
    | some f =>
      dsimp only
      split
      · exact outstanding_requeue
      · exact outstanding_requeue

theorem outstanding_send {range : Nat × Nat} {next : BlockSync Peer} (peer : Peer)
    (h : b.nextRange verifiedTo = some (range, next)) :
    (next.send peer range).outstanding ≤ b.outstanding := by
  rcases nextRange_eq_some h with ⟨rest, hretry, rfl⟩ | ⟨hretry, hlt, rfl, rfl⟩
  · rw [outstanding, outstanding, hretry, List.map_cons, List.sum_cons]
    have := valueSum_insert_le (f := InFlight.count) (t := b.inFlight) (k := range.1)
      (v := ⟨peer, range.2⟩)
    simp only [send] at this ⊢
    omega
  · have hnext : b.nextRequest < b.cursor + batchLookaheadBlocks := by
      by_contra hge
      have hnone : b.nextRange verifiedTo = none :=
        nextRange_eq_none.mpr ⟨hretry, .inr (by omega)⟩
      exact nomatch h.symm.trans hnone
    have := valueSum_insert_le (f := InFlight.count) (t := b.inFlight) (k := b.nextRequest)
      (v := ⟨peer, min (verifiedTo - b.nextRequest) maxGetBatchesCount⟩)
    simp only [outstanding, send]
    simp only at this
    omega

theorem outstanding_tryApplyNext : b.tryApplyNext.outstanding = b.outstanding := by
  have hdrop : b.dropBehind.outstanding = b.outstanding :=
    (dropBehindLoop_induct (motive := fun d => d.outstanding = b.outstanding) rfl rfl
      fun d k c hd hk _ => by rw [removeChunk_eq hk]; exact hd).1
  cases happ : b.applying with
  | some task => rw [BlockSync.tryApplyNext, happ]
  | none =>
    cases hcand : b.candidate with
    | none => rw [BlockSync.tryApplyNext, happ, hcand]
    | some state =>
      cases hfirst : b.dropBehind.buffer.toList.head? with
      | none => rw [tryApplyNext_empty happ hcand hfirst, hdrop]
      | some first =>
        rw [tryApplyNext_first happ hcand hfirst]
        split
        · exact hdrop
        · rw [BlockSync.apply, removeChunk_eq (head?_toList hfirst).1]
          exact hdrop

theorem outstanding_accept {f : InFlight Peer} {start : Nat} {batches : List Batch}
    {headers : List BatchHeader} (peer : Peer) (hreq : b.inFlight[start]? = some f)
    (hgot : 0 < batches.length) (hle : batches.length ≤ f.count) :
    (SyncSession.accept serializedSize { b with inFlight := b.inFlight.erase start } peer start
      f.count batches headers).outstanding < b.outstanding := by
  rw [outstanding, outstanding, valueSum_erase hreq, SyncSession.accept]
  dsimp only
  split
  · rw [List.map_cons, List.sum_cons]
    omega
  · omega

theorem outstanding_scheduleLoop [DecidableEq Peer] {tips : List (Peer × Nat)} {session : Peer}
    {fuel : Nat} :
    (b.scheduleLoop tips session verifiedTo fuel).outstanding ≤ b.outstanding := by
  induction fuel generalizing b with
  | zero => exact Nat.le_refl _
  | succ fuel ih =>
    rw [BlockSync.scheduleLoop]
    split
    · cases hnext : b.nextRange verifiedTo with
      | none => exact Nat.le_refl _
      | some r => exact Nat.le_trans ih (outstanding_send _ hnext)
    · exact Nat.le_refl _

theorem Sound.derived (hb : b.Sound serializedSize verifiedTo base) (state : State) :
    { b with rebuilding := false, candidate := some state }.Sound
      serializedSize verifiedTo base := by
  have hiff : ∀ l m,
      { b with rebuilding := false, candidate := some state }.Holds l m ↔ b.Holds l m := by
    intro l m
    constructor
    · intro hl
      cases hl with
      | buffered h => exact .buffered h
      | requested h => exact .requested h
      | queued h => exact .queued h
      | applying h => exact .applying h
    · intro hl
      cases hl with
      | buffered h => exact .buffered h
      | requested h => exact .requested h
      | queued h => exact .queued h
      | applying h => exact .applying h
  constructor
  · intro height hbase hnext
    obtain ⟨l, m, hl, hlh, hhl⟩ := hb.covered height hbase hnext
    exact ⟨l, m, (hiff l m).mpr hl, hlh, hhl⟩
  · exact hb.bytes
  · exact hb.chunks
  · exact hb.task
  · intro l m hl
    exact hb.fits l m ((hiff l m).mp hl)
  · exact hb.next
  · exact fun h => nomatch h

/-- The background task is done with its chunk. -/
theorem Sound.applied (hb : b.Sound serializedSize verifiedTo b.cursor)
    (happ : b.applying = some (state, c))
    (later : State) (done : Nat) (timestamps : List Nat) :
    { b with
      applying := none
      cursor := b.cursor + done
      timestamps := timestamps
      candidate := some later }.Sound serializedSize verifiedTo
        (b.cursor + c.batches.length) := by
  have hof : ∀ l m, { b with
      applying := none
      cursor := b.cursor + done
      timestamps := timestamps
      candidate := some later }.Holds l m → b.Holds l m := by
    intro l m hl
    cases hl with
    | buffered h => exact .buffered h
    | requested h => exact .requested h
    | queued h => exact .queued h
    | applying h => cases h
  constructor
  · intro height hbase hnext
    obtain ⟨l, m, hl, hlh, hhl⟩ := hb.covered height (by omega) hnext
    refine ⟨l, m, ?_, hlh, hhl⟩
    cases hl with
    | buffered h => exact .buffered h
    | requested h => exact .requested h
    | queued h => exact .queued h
    | applying h =>
      obtain ⟨-, rfl⟩ := Prod.mk.inj (Option.some.inj (happ.symm.trans h))
      omega
  · exact hb.bytes
  · exact hb.chunks
  · intro _ _ h
    cases h
  · intro l m hl
    exact hb.fits l m (hof l m hl)
  · exact hb.next
  · intro hr
    exact nomatch happ.symm.trans (hb.early hr).2.1

end BlockSync

end Midwimble
