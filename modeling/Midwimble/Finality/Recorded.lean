import Midwimble.Finality.Floor

namespace Midwimble
set_option autoImplicit true

namespace FinalityNode

variable {node next : FinalityNode} {event : Event} {events : List Event}

/-- The stored record does not go back, and a checkpoint gives way to a higher one only. -/
structure Advances (node next : FinalityNode) : Prop where
  floor : node.stored.floor ≤ next.stored.floor
  checkpoint : node.stored.floor = next.stored.floor →
    next.stored.checkpointId = node.stored.checkpointId ∧
      next.stored.retainFrom = node.stored.retainFrom
  prunedBelow : node.stored.prunedBelow ≤ next.stored.prunedBelow

/-- Between refreshes the stored floor is the tracker's, so nothing below that is rewritten. -/
def Agrees (node : FinalityNode) : Prop :=
  node.setting = none → node.stored.floor = node.tracker.floor ∧
    ∀ firstHeight, node.Accepts firstHeight → node.tracker.floor ≤ firstHeight

/-- What is written was made from a record that still stands: its floor is the stored one, and it
prunes at least as far. -/
def Undisturbed (node : FinalityNode) : Event → Prop
  | .set => ∀ info ∈ node.setting, node.stored.prunedBelow ≤ info.prunedBelow
  | .write i => ∀ job ∈ node.jobs[i]?, ∀ read ∈ job.read,
      read.floor = node.stored.floor ∧
        node.stored.prunedBelow ≤ max read.prunedBelow (min job.height read.floor)
  | _ => True

/-- What a prune has read is the stored record, or one with a lower floor. -/
def ReadFrom (stored read : FinalityInfo) : Prop :=
  read.floor < stored.floor ∨ read.floor = stored.floor ∧
    read.checkpointId = stored.checkpointId ∧ read.retainFrom = stored.retainFrom

/-- How the stored record, the tracker and the reads of prunes stand to each other. -/
structure Consistent (node : FinalityNode) : Prop where
  agrees : node.setting = none → node.stored.floor = node.tracker.floor
  setting : ∀ info ∈ node.setting,
    info.floor = node.tracker.floor ∧ node.stored.floor < info.floor
  reads : ∀ job ∈ node.jobs, ∀ read ∈ job.read, ReadFrom node.stored read

theorem Advances.refl (h : next.stored = node.stored) : node.Advances next := by
  constructor
  · exact (congrArg FinalityInfo.floor h).ge
  · exact fun _ => ⟨congrArg FinalityInfo.checkpointId h, congrArg FinalityInfo.retainFrom h⟩
  · exact (congrArg FinalityInfo.prunedBelow h).ge

theorem Consistent.sound (h : node.Consistent) : node.Agrees := by
  intro hsetting
  refine ⟨h.agrees hsetting, ?_⟩
  intro firstHeight haccepts
  exact (h.agrees hsetting).symm.trans_le haccepts.1

theorem consistent_start (cfg : FinalityConfig) (info : FinalityInfo) (bodies : Finset Nat)
    (base : Option SnapshotBase) : (start cfg info bodies base).Consistent where
  agrees _ := rfl
  setting _ h := nomatch h
  reads _ h := nomatch h

theorem Consistent.pruned (h : node.Consistent) {job : PruneJob} {read : FinalityInfo}
    (hread : ReadFrom node.stored read) (hfloor : read.floor = node.stored.floor)
    (hpruned : node.stored.prunedBelow ≤ max read.prunedBelow (min job.height read.floor))
    (i : Nat) (hnext : next =
      { node.pruneBodies job.height read with jobs := node.jobs.eraseIdx i }) :
    next.Consistent ∧ node.Advances next := by
  obtain ⟨-, hid, hretain⟩ := hread.resolve_left hfloor.not_lt
  subst hnext
  constructor
  · constructor
    · exact fun hsetting => hfloor.trans (h.agrees hsetting)
    · intro info hinfo
      obtain ⟨htracker, hlt⟩ := h.setting info hinfo
      exact ⟨htracker, hfloor.trans_lt hlt⟩
    · intro other hother r hr
      have hold := h.reads other (List.mem_of_mem_eraseIdx hother) r hr
      unfold ReadFrom pruneBodies
      dsimp only
      rw [hfloor, hid, hretain]
      exact hold
  · exact ⟨hfloor.ge, fun _ => ⟨hid, hretain⟩, hpruned⟩

variable [Primitives]

theorem step_refresh (node : FinalityNode) (tables : ChainTables) (state : State) :
    node.step (.refresh tables state) =
      if node.setting.isSome then none
      else some { node with
        tracker := (node.tracker.refresh tables node.stored state).1
        setting := (node.tracker.refresh tables node.stored state).2 } := rfl

/-- An undisturbed step keeps a consistent node so, and loses nothing that was stored. -/
theorem Consistent.step (h : node.Consistent) (hu : node.Undisturbed event)
    (hstep : node.step event = some next) : next.Consistent ∧ node.Advances next := by
  cases event with
  | insert record =>
    obtain ⟨-, hstep⟩ := Option.ite_none_left_eq_some.mp hstep
    cases hstep
    have hfloor := node.tracker.insertVerified_floor record
    refine ⟨⟨?_, ?_, h.reads⟩, .refl rfl⟩
    · exact fun hsetting => (h.agrees hsetting).trans hfloor.symm
    · intro info hinfo
      obtain ⟨htracker, hlt⟩ := h.setting info hinfo
      exact ⟨htracker.trans hfloor.symm, hlt⟩
  | refresh tables state =>
    rw [step_refresh] at hstep
    obtain ⟨hidle, hstep⟩ := Option.ite_none_left_eq_some.mp hstep
    have hfloor := h.agrees (Option.not_isSome_iff_eq_none.mp hidle)
    rcases node.tracker.refresh_cases tables node.stored state with
      he | ⟨height, id, finalized, retainFrom, hlt, -, he⟩
    · rw [he] at hstep
      cases hstep
      exact ⟨⟨fun _ => hfloor, fun _ hinfo => (nomatch hinfo), h.reads⟩, .refl rfl⟩
    · rw [he] at hstep
      cases hstep
      refine ⟨⟨fun hsetting => (nomatch hsetting), ?_, h.reads⟩, .refl rfl⟩
      intro info hinfo
      cases hinfo
      exact ⟨rfl, hfloor.trans_lt hlt⟩
  | set =>
    obtain ⟨info, hinfo, rfl⟩ := Option.map_eq_some_iff.mp hstep
    obtain ⟨htracker, hlt⟩ := h.setting info hinfo
    constructor
    · refine ⟨fun _ => htracker, fun _ hnone => (nomatch hnone), ?_⟩
      intro job hjob read hread
      have hold : job ∈ node.jobs := by
        dsimp only at hjob
        split at hjob
        · rcases List.mem_append.mp hjob with hjob | hjob
          · exact hjob
          · rw [List.mem_singleton.mp hjob] at hread
            cases hread
        · exact hjob
      left
      rcases h.reads job hold read hread with hbelow | ⟨hbelow, -⟩
      · exact hbelow.trans hlt
      · exact hbelow.trans_lt hlt
    · exact ⟨hlt.le, fun heq => absurd heq hlt.ne, hu info hinfo⟩
  | commit firstHeight count =>
    obtain ⟨-, hstep⟩ := Option.ite_none_left_eq_some.mp hstep
    cases hstep
    exact ⟨⟨h.agrees, h.setting, h.reads⟩, .refl rfl⟩
  | read i =>
    obtain ⟨job, hjob, rfl⟩ := Option.map_eq_some_iff.mp hstep
    refine ⟨⟨h.agrees, h.setting, ?_⟩, .refl rfl⟩
    intro other hother r hr
    rcases List.mem_or_eq_of_mem_set hother with hother | rfl
    · exact h.reads other hother r hr
    · cases hr
      exact .inr ⟨rfl, rfl, rfl⟩
  | write i =>
    obtain ⟨job, hjob, hstep⟩ := Option.bind_eq_some_iff.mp hstep
    obtain ⟨read, hread, hstep⟩ := Option.bind_eq_some_iff.mp hstep
    obtain ⟨hfloor, hpruned⟩ := hu job hjob read hread
    exact h.pruned (h.reads job (List.mem_of_getElem? hjob) read hread) hfloor hpruned i
      (Option.some.inj hstep).symm

omit [Primitives] in
theorem undisturbed_write {i : Nat} (h : node.Consistent)
    (hadvances : ∀ job ∈ node.jobs[i]?, ∀ read ∈ job.read, node.Advances
      { node.pruneBodies job.height read with jobs := node.jobs.eraseIdx i }) :
    node.Undisturbed (.write i) := by
  intro job hjob read hread
  obtain ⟨hfloor, -, hpruned⟩ := hadvances job hjob read hread
  rcases h.reads job (List.mem_of_getElem? hjob) read hread with hbelow | ⟨heq, -⟩
  · exact absurd hfloor (Nat.not_le.mpr hbelow)
  · exact ⟨heq, hpruned⟩

theorem Consistent.undisturbed (h : node.Consistent)
    (hadvances : ∀ next ∈ node.step event, node.Advances next) : node.Undisturbed event := by
  cases event with
  | set =>
    intro info hinfo
    exact (hadvances _ (Option.map_eq_some_iff.mpr ⟨info, hinfo, rfl⟩)).prunedBelow
  | write i =>
    apply undisturbed_write h
    intro job hjob read hread
    apply hadvances
    exact Option.bind_eq_some_iff.mpr ⟨job, hjob, Option.bind_eq_some_iff.mpr ⟨read, hread, rfl⟩⟩
  | _ => trivial

/-- Along a run the record advances at every step, and agrees with the tracker between refreshes. -/
def Recorded : FinalityNode → List Event → Prop
  | node, [] => node.Agrees
  | node, event :: events =>
    node.Agrees ∧ ∀ next ∈ node.step event, node.Advances next ∧ Recorded next events

/-- Every step of a run is undisturbed. -/
def AllUndisturbed : FinalityNode → List Event → Prop
  | _, [] => True
  | node, event :: events =>
    node.Undisturbed event ∧ ∀ next ∈ node.step event, AllUndisturbed next events

omit [Primitives] in
instance decidableUndisturbed (node : FinalityNode) :
    (event : Event) → Decidable (node.Undisturbed event)
  | .set => inferInstanceAs (Decidable (∀ info ∈ node.setting, _ ≤ _))
  | .write i =>
    inferInstanceAs (Decidable (∀ job ∈ node.jobs[i]?, ∀ read ∈ job.read, _ = _ ∧ _ ≤ _))
  | .insert _ => inferInstanceAs (Decidable True)
  | .refresh _ _ => inferInstanceAs (Decidable True)
  | .commit _ _ => inferInstanceAs (Decidable True)
  | .read _ => inferInstanceAs (Decidable True)

instance decidableAllUndisturbed :
    (node : FinalityNode) → (events : List Event) → Decidable (node.AllUndisturbed events)
  | _, [] => inferInstanceAs (Decidable True)
  | node, event :: events =>
    have := fun next => decidableAllUndisturbed next events
    inferInstanceAs (Decidable (node.Undisturbed event ∧ ∀ next ∈ node.step event, _))

theorem Consistent.recorded_iff (h : node.Consistent) :
    node.Recorded events ↔ node.AllUndisturbed events := by
  induction events generalizing node with
  | nil => exact ⟨fun _ => trivial, fun _ => h.sound⟩
  | cons event events ih =>
    constructor
    · rintro ⟨-, hrest⟩
      have hu := h.undisturbed fun next hnext => (hrest next hnext).1
      exact ⟨hu, fun next hnext => (ih (h.step hu hnext).1).mp (hrest next hnext).2⟩
    · rintro ⟨hu, hrest⟩
      refine ⟨h.sound, fun next hnext => ?_⟩
      obtain ⟨hnode, hadvances⟩ := h.step hu hnext
      exact ⟨hadvances, (ih hnode).mpr (hrest next hnext)⟩

/-- The recorded finality never goes back, and is the tracker's after every refresh, if and only if
every write is made from a record that still stands. -/
theorem finality_recorded (cfg : FinalityConfig) (info : FinalityInfo) (bodies : Finset Nat)
    (base : Option SnapshotBase) (events : List Event) :
    (start cfg info bodies base).Recorded events ↔
      (start cfg info bodies base).AllUndisturbed events :=
  (consistent_start cfg info bodies base).recorded_iff

/-- A second checkpoint is finalized between the read and the write of the first one's prune. -/
def lostEvents : List Event :=
  [.insert (FinalityTracker.floodRecord 100), .refresh FinalityTracker.floodTables
      FinalityTracker.floodTip, .set, .read 0, .insert (FinalityTracker.floodRecord 200),
    .refresh FinalityTracker.floodTables FinalityTracker.floodTip, .set, .write 0]

omit [Primitives] in
/-- The first prune writes the first checkpoint's floor over the second's. -/
theorem finality_lost :
    letI := FinalityTracker.heightWords
    ¬ (start ⟨100, 4, true⟩ .default ∅ none).Recorded lostEvents := by
  let := FinalityTracker.heightWords
  rw [(consistent_start _ _ _ _).recorded_iff]
  decide +kernel

end FinalityNode

end Midwimble
