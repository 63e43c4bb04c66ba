import Midwimble.Core.Bootstrap
import Midwimble.Finality.CheckedLinks

namespace Midwimble
open Bootstrap
set_option autoImplicit true

variable [Primitives]

/-- The bytes of the set of parts an event completes, if it completes one. -/
def Bootstrap.completes (env : BootstrapEnv) (s : Bootstrap) : SyncEvent → Option Bytes
  | .message peer (.snapshotPart checkpointId part total data) =>
    if checkpointId = env.trusted ∧ some peer = s.source ∧ total ≠ 0 ∧
        ((filePart s.parts part total data).all Option.isSome) then
      some (assemble (filePart s.parts part total data))
    else none
  | _ => none

/-- Every set of parts completed before the deadline is the encoding of some snapshot. -/
def Bootstrap.Decodes (env : BootstrapEnv) : Bootstrap → List (Bool × SyncEvent) → Prop
  | _, [] => True
  | s, (late, e) :: events =>
    late = true ∨ ((∀ bytes, s.completes env e = some bytes → (env.decode bytes).isSome) ∧
      ∀ s', s.step env e = .waiting s' → Decodes env s' events)

namespace Bootstrap

/-- A part of the trusted checkpoint's snapshot that `peer` sent. -/
def Sent (env : BootstrapEnv) (events : List (Bool × SyncEvent)) (peer : PeerId)
    (data : Bytes) : Prop :=
  ∃ part total, (false, .message peer (.snapshotPart env.trusted part total data)) ∈ events

/-- A snapshot put together from parts one peer sent. -/
def ServedBy (env : BootstrapEnv) (events : List (Bool × SyncEvent)) (peer : PeerId)
    (snapshot : Snapshot) : Prop :=
  ∃ parts : List Bytes, env.decode parts.flatten = some snapshot ∧
    ∀ data ∈ parts, Sent env events peer data

/-- A peer whose record of the trusted checkpoint, or whose snapshot, fails verification. -/
def Caught (env : BootstrapEnv) (events : List (Bool × SyncEvent)) (peer : PeerId) : Prop :=
  (∃ list r e, (false, .message peer (.anchors list)) ∈ events ∧ r ∈ list ∧
    r.checkpoint.id = env.trusted ∧ checkRecord env r = .error (.invalid e)) ∨
  ∃ snapshot e, ServedBy env events peer snapshot ∧ snapshot.verify env.trusted = .error e

/-- What holds of the loop's variables after these events. -/
structure Sound (env : BootstrapEnv) (events : List (Bool × SyncEvent)) (s : Bootstrap) :
    Prop where
  parts : ∀ data, some data ∈ s.parts → ∃ peer, s.source = some peer ∧ Sent env events peer data
  idle : s.source = none → s.parts = []
  unsourced : s.record = none → s.source = none
  banned : ∀ p ∈ s.banned, Caught env events p.1

/-- What an end of the loop establishes. -/
def Backed (env : BootstrapEnv) (events : List (Bool × SyncEvent)) : Progress → Prop
  | .waiting s => Sound env events s
  | .failed s _ => ∀ p ∈ s.banned, Caught env events p.1
  | .imported s snapshot state => (∀ p ∈ s.banned, Caught env events p.1) ∧
    snapshot.verify env.trusted = .ok state ∧ env.importSnapshot snapshot state = .ok () ∧
    ∃ peer, ServedBy env events peer snapshot

omit [Primitives] in
theorem Sent.append (h : Sent env events peer data) (more : List (Bool × SyncEvent)) :
    Sent env (events ++ more) peer data := by
  obtain ⟨part, total, hmem⟩ := h
  exact ⟨part, total, List.mem_append_left more hmem⟩

theorem Caught.append (h : Caught env events peer) (more : List (Bool × SyncEvent)) :
    Caught env (events ++ more) peer := by
  cases h with
  | inl hrecord =>
    obtain ⟨list, r, e, hmem, hr⟩ := hrecord
    exact .inl ⟨list, r, e, List.mem_append_left more hmem, hr⟩
  | inr hsnapshot =>
    obtain ⟨snapshot, e, ⟨parts, hdecode, hsent⟩, hverify⟩ := hsnapshot
    exact .inr ⟨snapshot, e, ⟨parts, hdecode, fun d hd => (hsent d hd).append more⟩, hverify⟩

theorem Sound.append (h : Sound env events s) (more : List (Bool × SyncEvent)) :
    Sound env (events ++ more) s where
  parts data hd := by
    obtain ⟨peer, hsource, hsent⟩ := h.parts data hd
    exact ⟨peer, hsource, hsent.append more⟩
  idle := h.idle
  unsourced := h.unsourced
  banned p hp := (h.banned p hp).append more

omit [Primitives] in
theorem askAnchors_frame (s : Bootstrap) (peer : PeerId) :
    (s.askAnchors peer).record = s.record ∧ (s.askAnchors peer).source = s.source ∧
      (s.askAnchors peer).parts = s.parts ∧ (s.askAnchors peer).banned = s.banned := by
  unfold askAnchors
  split <;> exact ⟨rfl, rfl, rfl, rfl⟩

omit [Primitives] in
theorem askAll_frame (s : Bootstrap) (connected : List PeerId) :
    (connected.foldl askAnchors s).record = s.record ∧
      (connected.foldl askAnchors s).source = s.source ∧
      (connected.foldl askAnchors s).parts = s.parts ∧
      (connected.foldl askAnchors s).banned = s.banned := by
  induction connected generalizing s with
  | nil => exact ⟨rfl, rfl, rfl, rfl⟩
  | cons peer connected ih =>
    obtain ⟨hr, hs, hp, hb⟩ := askAnchors_frame s peer
    rw [List.foldl_cons, ← hr, ← hs, ← hp, ← hb]
    exact ih _

omit [Primitives] in
theorem retry_frame (env : BootstrapEnv) (s : Bootstrap) (connected : List PeerId)
    (random : Option PeerId) :
    (s.retry env connected random).record = s.record ∧
      (s.retry env connected random).parts = s.parts ∧
      (s.retry env connected random).banned = s.banned ∧
      (s.retry env connected random).source =
        if s.record.isSome ∧ s.source.isNone then random else s.source := by
  obtain ⟨hr, hs, hp, hb⟩ := askAll_frame s connected
  unfold retry
  simp only [hr, hs]
  split <;> split <;> simp_all [send]

theorem Sound.retry (h : Sound env events s) (connected : List PeerId)
    (random : Option PeerId) : Sound env events (s.retry env connected random) := by
  obtain ⟨hr, hp, hb, hs⟩ := retry_frame env s connected random
  by_cases hpick : s.record.isSome ∧ s.source.isNone
  · rw [if_pos hpick] at hs
    have hparts := h.idle (Option.isNone_iff_eq_none.mp hpick.2)
    refine ⟨fun data hd => ?_, fun _ => by rw [hp, hparts], fun hn => ?_,
      by rw [hb]; exact h.banned⟩
    · rw [hp, hparts] at hd
      exact absurd hd List.not_mem_nil
    · rw [hr] at hn
      simp [hn] at hpick
  · rw [if_neg hpick] at hs
    refine ⟨?_, ?_, ?_, by rw [hb]; exact h.banned⟩
    · rw [hp, hs]
      exact h.parts
    · rw [hp, hs]
      exact h.idle
    · rw [hr, hs]
      exact h.unsourced

theorem Sound.onAnchors (h : Sound env events s) (hnone : s.record = none)
    (he : (false, .message peer (.anchors list)) ∈ events) :
    Sound env events (s.onAnchors env peer list) := by
  unfold Bootstrap.onAnchors
  cases hfind : list.find? fun r => r.checkpoint.id = env.trusted with
  | none => exact h
  | some r =>
    have hid : r.checkpoint.id = env.trusted := by simpa using List.find?_some hfind
    cases hcheck : checkRecord env r with
    | ok checked =>
      simp only [hcheck]
      have hparts := h.idle (h.unsourced hnone)
      refine ⟨fun data hd => ?_, fun hn => by simp at hn, fun hn => by simp at hn, h.banned⟩
      simp [hparts] at hd
    | error fault =>
      cases fault with
      | policy e =>
        simp only [hcheck]
        exact h
      | invalid e =>
        simp only [hcheck]
        refine ⟨h.parts, h.idle, h.unsourced, fun p hp => ?_⟩
        cases List.mem_cons.mp hp with
        | inl heq =>
          rw [heq]
          exact .inl ⟨list, r, e, he, List.mem_of_find?_eq_some hfind, hid, hcheck⟩
        | inr hold => exact h.banned p hold

omit [Primitives] in
theorem mem_filePart {parts : List (Option Bytes)}
    (h : some x ∈ filePart parts part total data) : x = data ∨ some x ∈ parts := by
  unfold filePart at h
  cases List.mem_or_eq_of_mem_set h with
  | inl hold =>
    split at hold
    · exact absurd (List.eq_of_mem_replicate hold) (by simp)
    · exact .inr hold
  | inr hnew => exact .inl (Option.some.inj hnew)

omit [Primitives] in
theorem findIdx?_isNone_eq_none {parts : List (Option Bytes)} :
    parts.findIdx? Option.isNone = none ↔ parts.all Option.isSome = true := by
  rw [List.findIdx?_eq_none_iff, List.all_eq_true]
  simp

/-- Filing a part the source sent, and what a whole set of them leads to. -/
theorem Sound.onPart (h : Sound env events s) (hsource : s.source = some peer)
    (he : (false, .message peer (.snapshotPart env.trusted part total data)) ∈ events) :
    Backed env events (s.onPart env peer part total data) := by
  have hfiled : ∀ x, some x ∈ filePart s.parts part total data → Sent env events peer x := by
    intro x hx
    cases mem_filePart hx with
    | inl heq => exact heq ▸ ⟨part, total, he⟩
    | inr hold =>
      obtain ⟨p, hp, hsent⟩ := h.parts x hold
      obtain rfl := Option.some.inj (hsource.symm.trans hp)
      exact hsent
  unfold Bootstrap.onPart
  split
  · exact h
  · cases hnext : (filePart s.parts part total data).findIdx? Option.isNone with
    | some next =>
      simp only [hnext]
      refine ⟨fun x hx => ⟨peer, hsource, hfiled x hx⟩, fun hn => ?_, h.unsourced, h.banned⟩
      exact absurd (hsource.symm.trans hn) (by simp)
    | none =>
      simp only [hnext, onSnapshot]
      have hserved : ∀ {snapshot : Snapshot},
          env.decode (assemble (filePart s.parts part total data)) = some snapshot →
            ServedBy env events peer snapshot := by
        intro snapshot hdecode
        refine ⟨_, hdecode, fun x hx => hfiled x ?_⟩
        obtain ⟨o, ho, hx⟩ := List.mem_filterMap.mp hx
        exact hx ▸ ho
      cases hdecode : env.decode (assemble (filePart s.parts part total data)) with
      | none => exact h.banned
      | some snapshot =>
        cases hverify : snapshot.verify env.trusted with
        | ok state =>
          cases himport : env.importSnapshot snapshot state with
          | ok u =>
            simp only [hverify, himport]
            exact ⟨h.banned, hverify, himport, peer, hserved hdecode⟩
          | error e =>
            simp only [hverify, himport]
            exact h.banned
        | error e =>
          simp only [hverify]
          refine ⟨fun x hx => by simp at hx, fun _ => rfl, fun _ => rfl, fun p hp => ?_⟩
          cases List.mem_cons.mp hp with
          | inl heq =>
            rw [heq]
            exact .inr ⟨snapshot, e, hserved hdecode, hverify⟩
          | inr hold => exact h.banned p hold

theorem Sound.step (h : Sound env events s) (he : (false, e) ∈ events) :
    Backed env events (s.step env e) := by
  cases e with
  | tick connected random => exact h.retry connected random
  | message peer message =>
    cases message with
    | anchors list =>
      simp only [Bootstrap.step, Backed]
      by_cases hnone : s.record.isNone
      · rw [if_pos hnone]
        exact h.onAnchors (Option.isNone_iff_eq_none.mp hnone) he
      · rw [if_neg hnone]
        exact h
    | snapshotPart checkpointId part total data =>
      simp only [Bootstrap.step]
      by_cases hours : checkpointId = env.trusted ∧ some peer = s.source
      · rw [if_pos hours]
        obtain ⟨rfl, hsource⟩ := hours
        exact h.onPart hsource.symm he
      · rw [if_neg hours]
        exact h
    | other => exact h

theorem Sound.run (h : Sound env seen s) (events : List (Bool × SyncEvent)) :
    Backed env (seen ++ events) (s.run env events) := by
  induction events generalizing s seen with
  | nil => exact h.append []
  | cons ev events ih =>
    obtain ⟨late, e⟩ := ev
    unfold Bootstrap.run
    cases late with
    | true =>
      rw [if_pos rfl]
      exact (h.append _).banned
    | false =>
      rw [if_neg (by decide)]
      have hstep := (h.append [(false, e)]).step (e := e) (by simp)
      have hseen : seen ++ (false, e) :: events = (seen ++ [(false, e)]) ++ events := by simp
      rw [hseen]
      cases hs : s.step env e with
      | waiting s' =>
        rw [hs] at hstep
        exact ih hstep
      | failed s' err =>
        rw [hs] at hstep
        exact fun p hp => (hstep p hp).append events
      | imported s' snapshot state =>
        rw [hs] at hstep
        obtain ⟨hbanned, hverify, himport, peer, parts, hdecode, hsent⟩ := hstep
        exact ⟨fun p hp => (hbanned p hp).append events, hverify, himport, peer, parts, hdecode,
          fun x hx => (hsent x hx).append events⟩

theorem sound_start (env : BootstrapEnv) (record : Option EvidencedRecord) :
    Sound env [] (start record) where
  parts _ hd := absurd hd List.not_mem_nil
  idle _ := rfl
  unsourced _ := rfl
  banned _ hp := absurd hp List.not_mem_nil

/-- A step ends on bytes that do not decode exactly when it completes a set of them. -/
theorem step_undecodable_iff (env : BootstrapEnv) (s : Bootstrap) (e : SyncEvent) :
    (∃ s', Bootstrap.step env s e = .failed s' .undecodable) ↔
      ∃ bytes, s.completes env e = some bytes ∧ env.decode bytes = none := by
  cases e with
  | tick connected random => simp [Bootstrap.step, completes]
  | message peer message =>
    cases message with
    | anchors list => simp [Bootstrap.step, completes]
    | other => simp [Bootstrap.step, completes]
    | snapshotPart checkpointId part total data =>
      simp only [Bootstrap.step, completes]
      by_cases hours : checkpointId = env.trusted ∧ some peer = s.source
      · rw [if_pos hours]
        unfold Bootstrap.onPart
        by_cases hzero : total = 0
        · simp [hzero]
        rw [if_neg hzero]
        cases hnext : (filePart s.parts part total data).findIdx? Option.isNone with
        | some next =>
          have hall : ¬ (filePart s.parts part total data).all Option.isSome = true := by
            rw [← findIdx?_isNone_eq_none, hnext]
            simp
          simp only [hnext, hall]
          simp
        | none =>
          have hall := findIdx?_isNone_eq_none.mp hnext
          rw [if_pos ⟨hours.1, hours.2, hzero, hall⟩]
          simp only [hnext, onSnapshot, Option.some.injEq, exists_eq_left']
          cases env.decode (assemble (filePart s.parts part total data)) with
          | none => simp
          | some snapshot =>
            cases hverify : snapshot.verify env.trusted with
            | ok state =>
              cases himport : env.importSnapshot snapshot state <;> simp [hverify, himport]
            | error e => simp [hverify]
      · rw [if_neg hours, if_neg fun hall => hours ⟨hall.1, hall.2.1⟩]
        simp

/-- The loop ends on undecodable bytes exactly when a set completed in time does not decode. -/
theorem run_undecodable_iff (events : List (Bool × SyncEvent)) (s : Bootstrap) :
    (∀ s', s.run env events ≠ .failed s' .undecodable) ↔ s.Decodes env events := by
  induction events generalizing s with
  | nil => simp [Bootstrap.run, Decodes]
  | cons ev events ih =>
    obtain ⟨late, e⟩ := ev
    unfold Bootstrap.run Decodes
    cases late with
    | true => simp
    | false =>
      have hbad := step_undecodable_iff env s e
      simp only [Bool.false_eq_true, if_false, false_or]
      cases hs : s.step env e with
      | waiting s' =>
        have hgood : ∀ bytes, s.completes env e = some bytes → (env.decode bytes).isSome := by
          intro bytes hb
          rw [Option.isSome_iff_ne_none]
          intro hn
          obtain ⟨x, hx⟩ := hbad.mpr ⟨bytes, hb, hn⟩
          simp [hs] at hx
        simp only [ih s', Progress.waiting.injEq, forall_eq']
        exact ⟨fun hd => ⟨hgood, hd⟩, And.right⟩
      | failed s' err =>
        simp only [reduceCtorEq, false_imp_iff, implies_true, and_true]
        constructor
        · intro hne bytes hb
          rw [Option.isSome_iff_ne_none]
          intro hn
          obtain ⟨x, hx⟩ := hbad.mpr ⟨bytes, hb, hn⟩
          exact hne x (hs ▸ hx)
        · intro hgood x hx
          obtain ⟨bytes, hb, hn⟩ := hbad.mp ⟨x, by rw [hs, hx]⟩
          simpa [hn] using hgood bytes hb
      | imported s' snapshot state =>
        simp only [reduceCtorEq, ne_eq, not_false_eq_true, implies_true, false_imp_iff,
          and_true, true_iff]
        intro bytes hb
        rw [Option.isSome_iff_ne_none]
        intro hn
        obtain ⟨x, hx⟩ := hbad.mpr ⟨bytes, hb, hn⟩
        simp [hs] at hx

end Bootstrap

/-- The loop's variables as the first pass finds them, where the node's own record verifies. -/
def bootstrapStart (env : BootstrapEnv) (records : List EvidencedRecord) : Option Bootstrap :=
  match records.find? fun r => r.checkpoint.id = env.trusted with
  | none => some (.start none)
  | some r =>
    match checkRecord env r with
    | .error _ => none
    | .ok r => some (.start (some r))

theorem bootstrapFromCheckpoint_eq (env : BootstrapEnv) (records : List EvidencedRecord)
    (events : List (Bool × SyncEvent)) :
    (∃ fault, bootstrapStart env records = none ∧
      bootstrapFromCheckpoint env records events = .failed (.start none) (.localRecord fault)) ∨
    ∃ record, bootstrapStart env records = some (.start record) ∧
      bootstrapFromCheckpoint env records events = (Bootstrap.start record).run env events := by
  unfold bootstrapStart bootstrapFromCheckpoint
  cases hfind : records.find? fun r => r.checkpoint.id = env.trusted with
  | none => exact .inr ⟨none, rfl, rfl⟩
  | some r =>
    cases hcheck : checkRecord env r with
    | error fault => exact .inl ⟨fault, by simp [hcheck]⟩
    | ok checked => exact .inr ⟨some checked, by simp [hcheck]⟩

omit [Primitives] in
/-- A node that trusts `walkedRecord`'s checkpoint, whose decoder refuses what it is sent. -/
def garbledEnv : BootstrapEnv where
  trusted := 0
  finality := oneDeep
  decode _ := none
  importSnapshot _ _ := .ok ()

omit [Primitives] in
theorem walkedRecord_checked : letI := Primitives.words
    ∃ r, checkRecord garbledEnv walkedRecord = .ok r := by
  letI := Primitives.words
  have hok : (checkRecord garbledEnv walkedRecord).toBool = true := by decide +kernel
  cases hcheck : checkRecord garbledEnv walkedRecord with
  | ok r => exact ⟨r, rfl⟩
  | error fault => simp [hcheck, Except.toBool] at hok

omit [Primitives] in
/-- One part of one byte from the source ends checkpoint sync with an error. -/
theorem bootstrap_ended_by_garbage : letI := Primitives.words
    ∃ s, bootstrapFromCheckpoint garbledEnv [walkedRecord]
      [(false, .tick [7] (some 7)), (false, .message 7 (.snapshotPart 0 0 1 [0]))] =
        .failed s .undecodable := by
  letI := Primitives.words
  obtain ⟨r, hr⟩ := walkedRecord_checked
  have hid : walkedRecord.checkpoint.id = 0 := by decide +kernel
  have hfind : [walkedRecord].find? (fun r => r.checkpoint.id = garbledEnv.trusted) =
      some walkedRecord := by simp [garbledEnv, hid]
  simp only [bootstrapFromCheckpoint, hfind, hr]
  exact ⟨_, rfl⟩

/-- Whatever peers send and whenever: checkpoint sync ends on a peer's bytes exactly when a set
of parts completed in time does not decode; it bans only peers caught with a record or a
snapshot that fails verification; and it imports only a snapshot verified for the trusted
checkpoint, put together from parts of one peer. -/
theorem bootstrap_survives_iff (env : BootstrapEnv) (records : List EvidencedRecord)
    (events : List (Bool × SyncEvent)) :
    ((∀ s, bootstrapFromCheckpoint env records events ≠ .failed s .undecodable) ↔
      ∀ s ∈ bootstrapStart env records, s.Decodes env events) ∧
    (∀ p ∈ (bootstrapFromCheckpoint env records events).state.banned, Caught env events p.1) ∧
    (∀ s snapshot state, bootstrapFromCheckpoint env records events = .imported s snapshot state →
      snapshot.verify env.trusted = .ok state ∧ env.importSnapshot snapshot state = .ok () ∧
        ∃ peer, ServedBy env events peer snapshot) := by
  cases bootstrapFromCheckpoint_eq env records events with
  | inl hlocal =>
    obtain ⟨fault, hnone, heq⟩ := hlocal
    simp [hnone, heq, Progress.state, Bootstrap.start]
  | inr hrun =>
    obtain ⟨record, hstart, heq⟩ := hrun
    have hbacked := (sound_start env record).run events
    rw [List.nil_append] at hbacked
    rw [hstart, heq]
    refine ⟨?_, ?_, ?_⟩
    · rw [run_undecodable_iff]
      simp
    · intro p hp
      cases hprogress : (Bootstrap.start record).run env events with
      | waiting s =>
        rw [hprogress] at hbacked hp
        exact hbacked.banned p hp
      | failed s e =>
        rw [hprogress] at hbacked hp
        exact hbacked p hp
      | imported s snapshot state =>
        rw [hprogress] at hbacked hp
        exact hbacked.1 p hp
    · intro s snapshot state himported
      rw [himported] at hbacked
      exact hbacked.2

end Midwimble
