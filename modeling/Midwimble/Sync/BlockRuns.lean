import Midwimble.Chain.Solved
import Midwimble.Sync.Blocks

namespace Midwimble
open OrderedMap
set_option autoImplicit true

section Apply

variable [Primitives]

theorem applied_eq {blocks : List (Batch × BatchHeader)}
    (h : (applyChunk now blocks state ts).error = none) :
    (applyChunk now blocks state ts).applied = blocks.length := by
  induction blocks generalizing state ts with
  | nil => rfl
  | cons e rest ih =>
    rw [applyChunk] at h ⊢
    split at h
    · cases h
    · rename_i hheight
      rw [if_neg hheight]
      split at h
      · cases h
      · exact congrArg Nat.succ (ih h)

end Apply

namespace SyncSession
open BlockSync

variable {Peer : Type} [DecidableEq Peer] {serializedSize : Batch → Nat}
  {s next : SyncSession Peer}

/-- An answer to a request in flight, with blocks of the verified headers. -/
def accepts (s : SyncSession Peer) : Event Peer → Bool
  | .batches peer start batches stored =>
    s.blocks.inFlight[start]?.any fun f =>
      f.peer = peer ∧ (batches.take f.count).isEmpty = false ∧
        matchesHeaders (batches.take f.count) (stored.take (batches.take f.count).length)
  | _ => false

theorem onBatches_eq_some {peer : Peer} {start : Nat} {batches : List Batch}
    {stored : List BatchHeader}
    (h : s.onBatches serializedSize peer start batches stored = some next) :
    (next = s ∧ s.schedules (.batches peer start batches stored) = false ∧
      s.accepts (.batches peer start batches stored) = false) ∨
    (∃ f, s.blocks.inFlight[start]? = some f ∧
      s.accepts (.batches peer start batches stored) = false ∧
      s.schedules (.batches peer start batches stored) = true ∧
      next = { s with blocks := { s.blocks with
        inFlight := s.blocks.inFlight.erase start
        retry := s.blocks.retry ++ [(start, f.count)]
        excluded := insert peer s.blocks.excluded } }) ∨
    (∃ f got headers, s.blocks.inFlight[start]? = some f ∧ got = batches.take f.count ∧
      s.schedules (.batches peer start batches stored) = true ∧
      0 < got.length ∧ headers.length = got.length ∧
      s.accepts (.batches peer start batches stored) = true ∧
      next = { s with blocks := (accept serializedSize
        { s.blocks with inFlight := s.blocks.inFlight.erase start } peer start f.count got
        headers).tryApplyNext }) := by
  rw [onBatches] at h
  cases hreq : s.blocks.inFlight[start]? with
  | none =>
    rw [hreq] at h
    refine .inl ⟨(Option.some.inj h).symm, ?_, ?_⟩
    · rw [schedules, hreq]
      rfl
    · rw [accepts, hreq]
      rfl
  | some f =>
    rw [hreq] at h
    dsimp only at h
    by_cases hpeer : f.peer = peer
    · have hschedules : s.schedules (.batches peer start batches stored) = true := by
        rw [schedules, hreq]
        exact decide_eq_true hpeer
      rw [if_neg (not_not.mpr hpeer)] at h
      split at h
      · rw [refuse] at h
        split at h
        · cases h
        · refine .inr (.inl ⟨f, rfl, ?_, hschedules, (Option.some.inj h).symm⟩)
          rename_i hbad _
          rw [accepts, hreq]
          refine decide_eq_false fun hgood => ?_
          rcases hbad with hbad | hbad
          · rw [hgood.2.1] at hbad
            cases hbad
          · exact hbad hgood.2.2
      · rename_i hgood
        rw [not_or, not_not] at hgood
        obtain ⟨hne, hmatch⟩ := hgood
        refine .inr (.inr ⟨f, _, stored.take (batches.take f.count).length, rfl, rfl, hschedules,
          ?_, ?_, ?_, (Option.some.inj h).symm⟩)
        · rw [List.length_pos_iff]
          simpa only [List.isEmpty_iff] using hne
        · exact (of_decide_eq_true hmatch).1
        · rw [accepts, hreq]
          simpa only [Option.any_some, decide_eq_true_eq] using
            ⟨hpeer, Bool.eq_false_iff.mpr hne, hmatch⟩
    · rw [if_pos hpeer] at h
      refine .inl ⟨(Option.some.inj h).symm, ?_, ?_⟩
      · rw [schedules, hreq]
        exact decide_eq_false hpeer
      · rw [accepts, hreq]
        exact decide_eq_false fun hgood => hpeer hgood.1

/-- What holds of a session before it sends requests. -/
structure Ready (serializedSize : Batch → Nat) (s : SyncSession Peer) : Prop where
  sound : s.blocks.Sound serializedSize s.verifiedTo s.blocks.cursor
  ahead : s.blocks.Ahead
  height : s.verifiedTo < 2 ^ 64

omit [DecidableEq Peer] in
theorem Ready.alike {d : BlockSync Peer} (hs : s.Ready serializedSize)
    (hd : d.Sound serializedSize s.verifiedTo s.blocks.cursor) (h : s.blocks.Alike d) :
    { s with blocks := d }.Ready serializedSize := by
  refine ⟨?_, hs.ahead.alike h, hs.height⟩
  dsimp only
  rwa [h.cursor]

omit [DecidableEq Peer] in
theorem ready_tryApplyNext {b : BlockSync Peer}
    (hb : b.Sound serializedSize s.verifiedTo b.cursor) (hheight : s.verifiedTo < 2 ^ 64) :
    { s with blocks := b.tryApplyNext }.Ready serializedSize := by
  obtain ⟨hsound, hcur, hahead⟩ := hb.tryApplyNext
  refine ⟨?_, hahead, hheight⟩
  dsimp only
  rwa [hcur]

variable [Primitives]

/-- Nothing is buffered where an answer goes, nor inside a chunk that turns out invalid by
another peer. -/
def BufferClear (s : SyncSession Peer) : Event Peer → Prop
  | .batches peer start batches stored =>
    s.accepts (.batches peer start batches stored) = true → s.blocks.buffer[start]? = none
  | .applied now => ∀ state chunk, s.blocks.applying = some (state, chunk) →
    (s.outcome now state chunk).error ≠ none →
      ∀ k c, s.blocks.buffer[k]? = some c → c.source ≠ chunk.source →
        s.blocks.cursor + chunk.batches.length ≤ k
  | _ => True

theorem ready_onBatchesApplied {now : Nat} (hs : s.Ready serializedSize)
    (hclear : s.BufferClear (.applied now)) (h : s.onBatchesApplied now = some next) :
    next.Ready serializedSize := by
  rw [onBatchesApplied] at h
  cases happ : s.blocks.applying with
  | none =>
    rw [happ] at h
    cases h
  | some task =>
    obtain ⟨state, chunk⟩ := task
    rw [happ] at h
    dsimp only at h
    have hzip : (chunk.batches.zip chunk.headers).length = chunk.batches.length := by
      rw [List.length_zip, hs.sound.task state chunk happ, Nat.min_self]
    have hsound := hs.sound.applied happ (s.outcome now state chunk).state
      (s.outcome now state chunk).applied (s.outcome now state chunk).timestamps
    cases herr : (s.outcome now state chunk).error with
    | none =>
      rw [herr] at h
      obtain rfl := Option.some.inj h
      have hall : (s.outcome now state chunk).applied = chunk.batches.length :=
        (applied_eq herr).trans hzip
      apply ready_tryApplyNext _ hs.height
      dsimp only
      rwa [hall] at hsound ⊢
    | some e =>
      rw [herr] at h
      dsimp only at h
      split at h
      · cases h
      · obtain rfl := Option.some.inj h
        obtain ⟨hcount, hto⟩ := hs.sound.fits _ _ (.applying happ)
        obtain ⟨hr, hcur⟩ := hsound.refetch
          (fun k c hk => hclear state chunk happ (by rw [herr]; exact nofun) k c hk)
          (by dsimp only; omega) hto hs.height
        rw [← hcur] at hr
        exact ready_tryApplyNext hr hs.height

theorem ready_receive (event : Event Peer) (hs : s.Ready serializedSize)
    (hclear : s.BufferClear event) (h : s.receive serializedSize event = some next) :
    next.Ready serializedSize := by
  cases event with
  | batches peer start batches stored =>
    rcases onBatches_eq_some h with ⟨rfl, -⟩ | ⟨f, hreq, -, -, rfl⟩ |
      ⟨f, got, headers, hreq, rfl, -, hgot, hheaders, haccepts, rfl⟩
    · exact hs
    · have hsound := hs.sound.moved
        (fun k m hk => ⟨m, Nat.le_refl m, (holds_requeue hreq _).mpr hk⟩)
        fun k m hk => (holds_requeue hreq (insert peer s.blocks.excluded)).mp hk
      exact hs.alike hsound ⟨rfl, rfl, rfl, rfl⟩
    · apply ready_tryApplyNext _ hs.height
      exact hs.sound.accept peer hreq (hclear haccepts) hgot (List.length_take_le _ _) hheaders
  | applied now => exact ready_onBatchesApplied hs hclear h
  | forkState state =>
    obtain ⟨hreb, h⟩ := Option.ite_none_right_eq_some.mp h
    obtain rfl := Option.some.inj h
    apply ready_tryApplyNext _ hs.height
    obtain ⟨-, happ, -⟩ := hs.sound.early hreb
    exact hs.sound.derived state
  | verified count =>
    obtain ⟨hmax, h⟩ := Option.ite_none_right_eq_some.mp h
    obtain rfl := Option.some.inj h
    exact ⟨hs.sound.mono_verified (Nat.le_add_right _ _), hs.ahead, hmax⟩
  | tick expired =>
    obtain rfl := Option.some.inj h
    obtain ⟨hsound, halike⟩ := hs.sound.expireAll s.peer (l := expired)
    exact hs.alike hsound halike
  | unavailable peer lost =>
    obtain ⟨-, h⟩ := Option.ite_none_left_eq_some.mp h
    obtain ⟨-, h⟩ := Option.ite_none_right_eq_some.mp h
    obtain rfl := Option.some.inj h
    obtain ⟨hsound, halike⟩ := hs.sound.requeueAll (l := lost)
    exact hs.alike (hsound.exclude _) ⟨halike.1, halike.2, halike.3, halike.4⟩

/-- What holds of a session between events. -/
structure Kept (serializedSize : Batch → Nat) (s : SyncSession Peer) : Prop extends
    Ready serializedSize s where
  rested : s.blocks.applying = none → s.blocks.Rested s.verifiedTo

/-- The condition under which the download loses nothing: beside `BufferClear`, no request is
sent in place of a longer one for the same start. -/
def Untangled (serializedSize : Batch → Nat) (s : SyncSession Peer)
    (event : List (Peer × Nat) × Event Peer) : Prop :=
  s.BufferClear event.2 ∧
    (s.schedules event.2 = true → ∀ next ∈ s.receive serializedSize event.2,
      SendsApart event.1 next.peer next.verifiedTo (next.blocks.rounds next.verifiedTo)
        next.blocks)

omit [Primitives] in
theorem kept_schedule {tips : List (Peer × Nat)} (hs : s.Ready serializedSize)
    (hapart : SendsApart tips s.peer s.verifiedTo (s.blocks.rounds s.verifiedTo) s.blocks) :
    (s.scheduleBatchRequests tips).Kept serializedSize :=
  ⟨hs.alike (hs.sound.scheduleLoop hapart) alike_scheduleLoop,
    fun _ => rested_scheduleLoop (Nat.le_refl _)⟩

theorem kept_forkState {state : State} (hs : s.Kept serializedSize)
    (h : s.receive serializedSize (.forkState state) = some next) :
    next.Kept serializedSize := by
  refine ⟨ready_receive (.forkState state) hs.toReady trivial h, fun happ => ?_⟩
  obtain ⟨hreb, h⟩ := Option.ite_none_right_eq_some.mp h
  obtain rfl := Option.some.inj h
  obtain ⟨-, hidle, -, hearly⟩ := hs.sound.early hreb
  have hself := tryApplyNext_eq_self (fun k c hfirst => ?_) happ
  · rw [hself]
    intro hsize hbytes
    have hrest := nextRange_eq_none.mp (hs.rested hidle hsize hbytes)
    exact nextRange_eq_none.mpr hrest
  · have hk := (head?_toList hfirst).1
    have hge := hearly _ _ (.buffered hk)
    have hpos := (hs.sound.chunks k c hk).nonempty
    dsimp only
    omega

theorem kept_step {event : List (Peer × Nat) × Event Peer} (hs : s.Kept serializedSize)
    (hok : s.Untangled serializedSize event) (h : s.step serializedSize event = some next) :
    next.Kept serializedSize := by
  obtain ⟨hclear, hapart⟩ := hok
  obtain ⟨got, hgot, rfl⟩ := Option.map_eq_some_iff.mp h
  have hready := ready_receive event.2 hs.toReady hclear hgot
  split
  · rename_i hschedules
    exact kept_schedule hready (hapart hschedules got hgot)
  · rename_i hquiet
    obtain ⟨tips, event⟩ := event
    cases event with
    | batches peer start batches stored =>
      rcases onBatches_eq_some hgot with ⟨rfl, -⟩ | ⟨-, -, -, hschedules, -⟩ |
        ⟨-, -, -, -, -, hschedules, -⟩
      · exact hs
      · exact absurd hschedules hquiet
      · exact absurd hschedules hquiet
    | forkState state => exact kept_forkState hs hgot
    | applied now => exact absurd rfl hquiet
    | verified count => exact absurd rfl hquiet
    | tick expired => exact absurd rfl hquiet
    | unavailable peer lost => exact absurd rfl hquiet

omit [Primitives] in
theorem kept_start {peer : Peer} {verifiedTo fork : Nat} {timestamps : List Nat}
    {candidate : Option State} {tips : List (Peer × Nat)}
    (h : start peer verifiedTo fork timestamps candidate tips = some s) :
    s.Kept serializedSize := by
  obtain ⟨⟨hfork, hmax⟩, h⟩ := Option.ite_none_right_eq_some.mp h
  obtain rfl := Option.some.inj h
  apply kept_schedule
  · refine ⟨sound_new (Nat.le_of_lt hfork), fun _ _ k c hk => ?_, hmax⟩
    simp [new] at hk
  · apply sendsApart_of_fresh rfl
    intro k f hk
    simp [new] at hk

/-- The session could apply the block at the cursor but does not have it. -/
structure Waits (s : SyncSession Peer) : Prop where
  idle : s.blocks.applying = none
  ready : s.blocks.candidate.isSome
  behind : s.blocks.cursor < s.verifiedTo

omit [DecidableEq Peer] [Primitives] in
theorem Kept.asked (hs : s.Kept serializedSize) (hwaits : s.Waits)
    (hroom : s.blocks.bufferedBytes < maxBufferBytes)
    (hfree : s.blocks.inFlight.size < maxBatchRequestsInFlight) :
    ∃ k f, s.blocks.inFlight[k]? = some f ∧ k ≤ s.blocks.cursor ∧
      s.blocks.cursor < k + f.count := by
  obtain ⟨hretry, hnext⟩ := nextRange_eq_none.mp (hs.rested hwaits.idle hfree hroom)
  have hlt : s.blocks.cursor < s.blocks.nextRequest := by
    have := hwaits.behind
    have := hs.height
    simp only [batchLookaheadBlocks] at hnext
    omega
  obtain ⟨k, n, hk, hkc, hck⟩ := hs.sound.covered _ (Nat.le_refl _) hlt
  cases hk with
  | @buffered k c h =>
    have := hs.ahead hwaits.idle hwaits.ready k c h
    omega
  | requested h => exact ⟨k, _, h, hkc, hck⟩
  | queued h =>
    rw [hretry] at h
    cases h
  | applying h => exact nomatch hwaits.idle.symm.trans h

theorem outstanding_step {event : List (Peer × Nat) × Event Peer}
    (hquiet : ∀ now, event.2 ≠ .applied now) (h : s.step serializedSize event = some next) :
    next.blocks.outstanding + (if s.accepts event.2 then 1 else 0) ≤ s.blocks.outstanding := by
  obtain ⟨got, hgot, rfl⟩ := Option.map_eq_some_iff.mp h
  have hsend : (if s.schedules event.2 then got.scheduleBatchRequests event.1 else
      got).blocks.outstanding ≤ got.blocks.outstanding := by
    split
    · exact outstanding_scheduleLoop
    · exact Nat.le_refl _
  refine Nat.le_trans (Nat.add_le_add_right hsend _) ?_
  obtain ⟨tips, event⟩ := event
  cases event with
  | batches peer start batches stored =>
    rcases onBatches_eq_some hgot with ⟨rfl, -, hno⟩ | ⟨f, hreq, hno, -, rfl⟩ |
      ⟨f, got, headers, hreq, rfl, -, hpos, -, haccepts, rfl⟩
    · rw [hno]
      exact Nat.le_refl _
    · rw [hno]
      have heq := outstanding_requeue (b := s.blocks) (k := start)
      rw [requeue_eq hreq] at heq
      exact Nat.le_of_eq heq
    · rw [if_pos haccepts, outstanding_tryApplyNext]
      exact outstanding_accept peer hreq hpos (List.length_take_le _ _)
  | applied now => exact absurd rfl (hquiet now)
  | forkState state =>
    obtain ⟨hreb, hgot⟩ := Option.ite_none_right_eq_some.mp hgot
    obtain rfl := Option.some.inj hgot
    exact Nat.le_of_eq outstanding_tryApplyNext
  | verified count =>
    obtain ⟨hmax, hgot⟩ := Option.ite_none_right_eq_some.mp hgot
    obtain rfl := Option.some.inj hgot
    exact Nat.le_refl _
  | tick expired =>
    obtain rfl := Option.some.inj hgot
    exact Nat.le_of_eq outstanding_expireAll
  | unavailable peer lost =>
    obtain ⟨-, hgot⟩ := Option.ite_none_left_eq_some.mp hgot
    obtain ⟨-, hgot⟩ := Option.ite_none_right_eq_some.mp hgot
    obtain rfl := Option.some.inj hgot
    exact Nat.le_of_eq outstanding_requeueAll

/-- Whether the background task comes back. -/
def Event.applies : Event Peer → Bool
  | .applied _ => true
  | _ => false

/-- How many of the answers to come hold blocks asked for, until a chunk has been applied. -/
def answered (serializedSize : Batch → Nat) :
    SyncSession Peer → List (List (Peer × Nat) × Event Peer) → Nat
  | _, [] => 0
  | s, event :: events =>
    if event.2.applies then 0
    else
      match s.step serializedSize event with
      | none => 0
      | some next =>
        (if s.accepts event.2 then 1 else 0) + answered serializedSize next events

theorem answered_le {events : List (List (Peer × Nat) × Event Peer)} :
    s.answered serializedSize events ≤ s.blocks.outstanding := by
  induction events generalizing s with
  | nil => exact Nat.zero_le _
  | cons event events ih =>
    rw [answered]
    split
    · exact Nat.zero_le _
    · rename_i hquiet
      cases hnext : s.step serializedSize event with
      | none => exact Nat.zero_le _
      | some next =>
        have hstep := outstanding_step (fun now he => hquiet (by rw [he]; rfl)) hnext
        have := ih (s := next)
        dsimp only
        omega

/-- What holds of the block download at every moment: no height is lost, the buffer is as large
as its chunks, and the session does not wait for a height nobody was asked for. -/
structure Complete (serializedSize : Batch → Nat) (s : SyncSession Peer) : Prop where
  covered : ∀ height, s.blocks.cursor ≤ height → height < s.blocks.nextRequest →
    s.blocks.Covered height
  bytes : s.blocks.bufferedBytes =
    valueSum (fun c => (c.batches.map serializedSize).sum) s.blocks.buffer
  /-- With room for it, the block waited for is in flight unless every request is. -/
  asked : s.Waits → s.blocks.bufferedBytes < maxBufferBytes →
    s.blocks.inFlight.size < maxBatchRequestsInFlight →
      ∃ k f, s.blocks.inFlight[k]? = some f ∧ k ≤ s.blocks.cursor ∧ s.blocks.cursor < k + f.count
  /-- So many answers at most come before a chunk is applied. -/
  answered : ∀ events, s.answered serializedSize events ≤ s.blocks.outstanding

theorem Kept.complete (hs : s.Kept serializedSize) : s.Complete serializedSize where
  covered := hs.sound.covered
  bytes := hs.sound.bytes.trans
    (valueSum_congr fun k c hk => (hs.sound.chunks k c hk).bytes)
  asked := hs.asked
  answered _ := answered_le

/-- Every step of a run meets a condition on the state before it. -/
def Meets (serializedSize : Batch → Nat)
    (condition : SyncSession Peer → List (Peer × Nat) × Event Peer → Prop) :
    SyncSession Peer → List (List (Peer × Nat) × Event Peer) → Prop
  | _, [] => True
  | s, event :: events =>
    condition s event ∧
      ∀ next ∈ s.step serializedSize event, Meets serializedSize condition next events

theorem Kept.along {events : List (List (Peer × Nat) × Event Peer)}
    (hs : s.Kept serializedSize)
    (hrun : s.Meets serializedSize (Untangled serializedSize) events) :
    s.Along serializedSize (Complete serializedSize) events := by
  induction events generalizing s with
  | nil => exact hs.complete
  | cons event events ih =>
    obtain ⟨hok, hrest⟩ := hrun
    refine ⟨hs.complete, fun next hnext => ?_⟩
    exact ih (kept_step hs hok hnext) (hrest next hnext)

/-- Block download loses no height in a run without tangled answers. -/
theorem download_loses_nothing {peer : Peer} {verifiedTo fork : Nat} {timestamps : List Nat}
    {candidate : Option State} {tips : List (Peer × Nat)}
    (h : start peer verifiedTo fork timestamps candidate tips = some s)
    (events : List (List (Peer × Nat) × Event Peer))
    (hrun : s.Meets serializedSize (Untangled serializedSize) events) :
    s.Along serializedSize (Complete serializedSize) events :=
  (kept_start h).along hrun

/-- The condition on the requests, checked. -/
def sendsApart (tips : List (Peer × Nat)) (session : Peer) (verifiedTo : Nat) :
    (fuel : Nat) → BlockSync Peer → Bool
  | 0, _ => true
  | fuel + 1, b =>
    match b.nextRange verifiedTo with
    | none => true
    | some (range, next) =>
      (b.inFlight[range.1]?.all fun f => f.count ≤ range.2) &&
        sendsApart tips session verifiedTo fuel (next.send (next.pickPeer tips session range) range)

omit [Primitives] in
theorem sendsApart_of_check {tips : List (Peer × Nat)} {session : Peer} {verifiedTo fuel : Nat}
    {b : BlockSync Peer} (h : sendsApart tips session verifiedTo fuel b = true) :
    SendsApart tips session verifiedTo fuel b := by
  induction fuel generalizing b with
  | zero => trivial
  | succ fuel ih =>
    intro _ range next hnext
    rw [sendsApart, hnext, Bool.and_eq_true] at h
    refine ⟨fun f hf => ?_, ih h.2⟩
    have hall := h.1
    rw [hf] at hall
    exact of_decide_eq_true hall

/-- Answers come where nothing is buffered, chunks apply, and requests are sent apart. -/
def untangled (serializedSize : Batch → Nat) (s : SyncSession Peer) :
    List (List (Peer × Nat) × Event Peer) → Bool
  | [] => true
  | event :: events =>
    (match event.2 with
      | .batches _ start _ _ => s.blocks.buffer[start]?.isNone
      | .applied now => s.blocks.applying.all fun a => (s.outcome now a.1 a.2).error.isNone
      | _ => true) &&
    ((s.receive serializedSize event.2).all fun next =>
      sendsApart event.1 next.peer next.verifiedTo (next.blocks.rounds next.verifiedTo)
        next.blocks) &&
    ((s.step serializedSize event).all fun next => untangled serializedSize next events)

theorem meets_of_untangled {events : List (List (Peer × Nat) × Event Peer)}
    (h : s.untangled serializedSize events = true) :
    s.Meets serializedSize (Untangled serializedSize) events := by
  induction events generalizing s with
  | nil => trivial
  | cons event events ih =>
    rw [untangled, Bool.and_eq_true, Bool.and_eq_true] at h
    obtain ⟨⟨hclear, hapart⟩, hrest⟩ := h
    refine ⟨⟨?_, fun _ next hnext => ?_⟩, fun next hnext => ?_⟩
    · obtain ⟨tips, event⟩ := event
      cases event with
      | batches peer start batches stored =>
        exact fun _ => Option.isNone_iff_eq_none.mp hclear
      | applied now =>
        intro state chunk happ herror
        dsimp only at hclear
        rw [happ] at hclear
        exact absurd (Option.isNone_iff_eq_none.mp hclear) herror
      | _ => trivial
    · rw [Option.mem_def.mp hnext] at hapart
      exact sendsApart_of_check hapart
    · rw [Option.mem_def.mp hnext] at hrest
      exact ih hrest

end SyncSession

namespace SyncSession

section Answered

/-- A block on no chain, and the headers at the heights it is served for. -/
def strayBlock : Batch :=
  ⟨1, 1, .empty, none, ⟨0, 0⟩, 0, 0, 0, none, [], none, none, 0⟩

def strayAnswer (peer start count : Nat) : Event Nat :=
  .batches peer start (List.replicate count strayBlock)
    ((List.range count).map fun i => ⟨start + i, 1, 1, ⟨0, 0⟩, 0, 0, 0, 1, none, 0, none⟩)

/-- An answer of one block. -/
def shortAnswer (peer height : Nat) (batch : Batch) : Event Nat :=
  .batches peer height [batch] [⟨height, 0, 0, batch.extension, 0, 0, 0, 0, none, 0, none⟩]

local instance answeredWords : Primitives := racedPrimitives

def answeredStart : Option (SyncSession Nat) :=
  start 0 130 1 [genesisTimestamp] (some racedFirst) [(1, 1000)]

/-- The first two heights come one block at a time, the second from another peer, and what is asked
for further on comes in between. -/
def answeredEvents : List (List (Nat × Nat) × Event Nat) :=
  [([(1, 1000), (2, 1000)], shortAnswer 0 1 oldBlock), ([(1, 1000)], strayAnswer 1 65 10),
    ([(1, 1000)], .applied oldBlock.timestamp), ([(1, 1000)], shortAnswer 2 2 oldTop),
    ([(1, 1000)], .applied oldTop.timestamp)]

theorem answered_untangled :
    answeredStart.all (untangled (fun _ => 292) · answeredEvents) = true := by
  decide +kernel

/-- Two blocks are applied, and the rest of what was answered in part is asked for again. -/
theorem download_loses_nothing_answered :
    ∃ s, answeredStart = some s ∧
      (answeredEvents.foldlM (SyncSession.step fun _ => 292) s).map (fun s =>
        (s.blocks.cursor, s.blocks.bufferedBytes,
          s.blocks.inFlight.toList.map fun e => (e.1, e.2.peer, e.2.count))) =
        some (3, 2920, [(3, 0, 62), (75, 1, 54), (129, 0, 1)]) ∧
      s.Along (fun _ => 292) (Complete fun _ => 292) answeredEvents := by
  obtain ⟨s, h, hlast⟩ := Option.bind_eq_some_iff.mp (show (answeredStart.bind fun s =>
    (answeredEvents.foldlM (SyncSession.step fun _ => 292) s).map fun s =>
      (s.blocks.cursor, s.blocks.bufferedBytes,
        s.blocks.inFlight.toList.map fun e => (e.1, e.2.peer, e.2.count))) =
      some (3, 2920, [(3, 0, 62), (75, 1, 54), (129, 0, 1)]) by decide +kernel)
  have hrun := answered_untangled
  rw [h] at hrun
  have halong := download_loses_nothing h answeredEvents (meets_of_untangled hrun)
  exact ⟨s, h, hlast, halong⟩

end Answered

section Tangled

/-- Two requests time out; peer 2 answers in part, with invalid blocks, and while peer 3 is
asked for the rest, peer 4 is asked for the same heights from the cursor on. -/
def tangledEvents : List (List (Nat × Nat) × Event Nat) :=
  [([(2, 1000)], .tick [65, 1]), ([(3, 1000)], strayAnswer 2 1 10), ([(4, 1000)], .applied 0),
    ([(3, 1000)], strayAnswer 3 11 20), ([(5, 1000)], strayAnswer 4 1 10),
    ([(5, 1000)], strayAnswer 5 11 20)]

/-- Both answers for the heights from 11 on are counted, and one is buffered. -/
theorem download_loses_chunk :
    letI := Primitives.mixing
    ((start 0 129 1 [] (some { State.genesis with height := 1 }) [(1, 1000)]).bind fun s =>
      tangledEvents.foldlM (SyncSession.step fun _ => 292) s).map (fun s =>
        (s.blocks.bufferedBytes,
          valueSum (fun c => (c.batches.map fun _ => 292).sum) s.blocks.buffer)) =
      some (11680, 5840) := by
  decide +kernel

end Tangled

end SyncSession

end Midwimble
