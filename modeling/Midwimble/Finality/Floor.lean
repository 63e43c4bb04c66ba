import Midwimble.Core.Finality
import Midwimble.Lib.OrderedMap

namespace Midwimble
set_option autoImplicit true

theorem lastHighest_mem (h : lastHighest cs = some c) : c ∈ cs := by
  cases cs with
  | nil => cases h
  | cons b cs =>
    cases h
    induction cs generalizing b with
    | nil => exact List.mem_cons_self
    | cons d cs ih =>
      rw [List.foldl_cons]
      rcases List.mem_cons.mp (ih (if d.1 ≥ b.1 then d else b)) with h | h
      · rw [h]
        split
        · exact List.mem_cons_of_mem _ List.mem_cons_self
        · exact List.mem_cons_self
      · exact List.mem_cons_of_mem _ (List.mem_cons_of_mem _ h)

namespace FinalityTracker

variable {t : FinalityTracker} {id : Bytes32} {record : AnchorRecord}

theorem evict_floor (t : FinalityTracker) : t.evict.floor = t.floor := by
  unfold evict
  split <;> rfl

/-- A record is not among those dropped: enough others come before it, if any are. -/
def Spares (t : FinalityTracker) (id : Bytes32) (record : AnchorRecord) : Prop :=
  t.records.size ≤ maxRecords ∨ id ∈ t.retained ∨
    t.records.size - maxRecords ≤ t.evictable.countP fun e =>
      evictionOrder e < evictionOrder (t.evictionKey id record)

theorem evictionKey_id (t : FinalityTracker) (id : Bytes32) (record : AnchorRecord) :
    (t.evictionKey id record).2.2 = id := by
  unfold evictionKey
  dsimp only
  split <;> rfl

theorem evict_keeps (hr : t.records[id]? = some record)
    (h : t.Spares id record) : t.evict.records[id]? = some record := by
  unfold evict
  split
  · exact hr
  · rename_i hsize
    have hkept : ∀ e ∈ (KeySort.sortBy evictionOrder t.evictable).take
        (t.records.size - maxRecords), e.2.2 ≠ id := by
      rintro e he rfl
      have hevictable : e ∈ t.evictable :=
        (KeySort.sortBy_perm evictionOrder t.evictable).mem_iff.mp (List.mem_of_mem_take he)
      obtain ⟨⟨id, r⟩, hmem, rfl⟩ := List.mem_map.mp hevictable
      obtain ⟨hmem, hfree⟩ := List.mem_filter.mp hmem
      rw [evictionKey_id] at hr h
      rw [Std.ExtTreeMap.mem_toList_iff_getElem?_eq_some.mp hmem] at hr
      obtain rfl := Option.some.inj hr
      rcases h with hle | hretained | hcount
      · exact hsize hle
      · exact of_decide_eq_true hfree hretained
      · have hnot := KeySort.not_mem_take_sortBy evictionOrder hcount
        exact absurd he hnot
    have hfold := OrderedMap.getElem?_foldl_erase (m := t.records) hkept
    rw [← hr, ← hfold]

/-- What is known of every record as the floor is recomputed. -/
def standings (t : FinalityTracker) (tables : ChainTables) (state : State) :
    List (Bytes32 × Nat × Standing) :=
  t.records.toList.map fun (id, record) =>
    (id, record.checkpoint.mwHeight, t.standing record tables state)

theorem mem_standings (hr : t.records[id]? = some record)
    (tables : ChainTables) (state : State) :
    (id, record.checkpoint.mwHeight, t.standing record tables state) ∈
      t.standings tables state :=
  List.mem_map.mpr ⟨(id, record), Std.ExtTreeMap.mem_toList_iff_getElem?_eq_some.mpr hr, rfl⟩

/-- The records at or below the floor that agree with the chain. -/
def staleIds (t : FinalityTracker) (tables : ChainTables) (state : State) : List Bytes32 :=
  ((t.standings tables state).filter fun (id, h, s) =>
    h ≤ t.floor ∧ s ≠ .conflict ∧ id ∉ t.retained).map Prod.fst

theorem not_stale (hr : t.records[id]? = some record) (hf : t.floor < record.checkpoint.mwHeight)
    (tables : ChainTables) (state : State) : id ∉ t.staleIds tables state := by
  intro hid
  obtain ⟨⟨id, h, s⟩, he, rfl⟩ := List.mem_map.mp hid
  obtain ⟨he, hstale⟩ := List.mem_filter.mp he
  obtain ⟨⟨id', r⟩, hmem, heq⟩ := List.mem_map.mp he
  simp only [Prod.mk.injEq] at heq
  obtain ⟨rfl, rfl, rfl⟩ := heq
  rw [Std.ExtTreeMap.mem_toList_iff_getElem?_eq_some.mp hmem] at hr
  obtain rfl := Option.some.inj hr
  exact absurd (of_decide_eq_true hstale).1 (Nat.not_le.mpr hf)

/-- What is left of the standings without the stale records. -/
def remaining (t : FinalityTracker) (tables : ChainTables) (state : State) :
    List (Bytes32 × Nat × Standing) :=
  (t.standings tables state).filter fun (id, _, _) => id ∉ t.staleIds tables state

def lowestConflict (t : FinalityTracker) (tables : ChainTables) (state : State) : Nat :=
  (((t.remaining tables state).filter fun (_, _, s) => s = .conflict).map
    fun (_, h, _) => h).min?.getD (2 ^ 64 - 1)

/-- The checkpoints that could be finalized. -/
def candidates (t : FinalityTracker) (tables : ChainTables) (state : State) :
    List (Nat × Bytes32) :=
  ((t.remaining tables state).filter fun (_, h, s) =>
    s = .final ∧ h < t.lowestConflict tables state).map fun (id, h, _) => (h, id)

theorem lowestConflict_le (hr : t.records[id]? = some record)
    (hf : t.floor < record.checkpoint.mwHeight)
    (hc : t.standing record tables state = .conflict) :
    t.lowestConflict tables state ≤ record.checkpoint.mwHeight := by
  have hmem := mem_standings hr tables state
  rw [hc] at hmem
  have hfilter : record.checkpoint.mwHeight ∈
      ((t.remaining tables state).filter fun (_, _, s) => s = .conflict).map
        fun (_, h, _) => h := by
    refine List.mem_map.mpr ⟨_, List.mem_filter.mpr ⟨List.mem_filter.mpr ⟨hmem, ?_⟩, ?_⟩, rfl⟩
    · exact decide_eq_true (not_stale hr hf tables state)
    · exact decide_eq_true rfl
  obtain ⟨m, hm⟩ := Option.isSome_iff_exists.mp (List.isSome_min?_of_mem hfilter)
  unfold lowestConflict
  rw [hm, Option.getD_some]
  exact (List.min?_eq_some_iff.mp hm).2 _ hfilter

theorem candidate_lt (h : c ∈ t.candidates tables state) :
    c.1 < t.lowestConflict tables state := by
  obtain ⟨e, he, rfl⟩ := List.mem_map.mp h
  exact (of_decide_eq_true (List.mem_filter.mp he).2).2

/-- The tracker once its stale records are forgotten. -/
def withoutStale (t : FinalityTracker) (tables : ChainTables) (state : State) : FinalityTracker :=
  { t with
    tip := state.height
    records := t.records.filter fun id _ => id ∉ t.staleIds tables state }

theorem refresh_eq (t : FinalityTracker) (tables : ChainTables) (info : FinalityInfo)
    (state : State) : t.refresh tables info state =
      match lastHighest (t.candidates tables state) with
      | none => (t.withoutStale tables state, none)
      | some (height, id) =>
        if height ≤ t.floor then (t.withoutStale tables state, none)
        else
          let finalized := (KeySort.sortBy finalizedOrder (t.finalized ++ [(height, id)])).destutter
            (· ≠ ·)
          let finalized := finalized.drop
            (finalized.length - max t.cfg.retainedCheckpoints 1)
          let retainFrom := ((finalized.map Prod.fst).min?).getD height
          ({ t.withoutStale tables state with floor := height, finalized := finalized },
            some { info with floor := height, checkpointId := some id, retainFrom := retainFrom }) :=
  rfl

theorem refresh_cases (t : FinalityTracker) (tables : ChainTables) (info : FinalityInfo)
    (state : State) :
    t.refresh tables info state = (t.withoutStale tables state, none) ∨
      ∃ height id finalized retainFrom, t.floor < height ∧
        height < t.lowestConflict tables state ∧
        t.refresh tables info state =
          ({ t.withoutStale tables state with floor := height, finalized := finalized },
            some { info with
              floor := height, checkpointId := some id, retainFrom := retainFrom }) := by
  rw [refresh_eq]
  split
  · exact .inl rfl
  · rename_i height id hbest
    split
    · exact .inl rfl
    · rename_i hfloor
      exact .inr ⟨height, id, _, _, Nat.lt_of_not_le hfloor, candidate_lt (lastHighest_mem hbest),
        rfl⟩

theorem refresh_keeps (hr : t.records[id]? = some record)
    (hf : t.floor < record.checkpoint.mwHeight) (tables : ChainTables) (info : FinalityInfo)
    (state : State) : (t.refresh tables info state).1.records[id]? = some record := by
  have hkept : (t.withoutStale tables state).records[id]? = some record :=
    OrderedMap.getElem?_filter_eq_some.mpr ⟨hr, decide_eq_true (not_stale hr hf tables state)⟩
  rcases t.refresh_cases tables info state with h | ⟨_, _, _, _, -, -, h⟩
  · rw [h]
    exact hkept
  · rw [h]
    exact hkept

theorem le_refresh_floor (t : FinalityTracker) (tables : ChainTables) (info : FinalityInfo)
    (state : State) : t.floor ≤ (t.refresh tables info state).1.floor := by
  rcases t.refresh_cases tables info state with h | ⟨_, _, _, _, hlt, -, h⟩
  · rw [h]
    exact Nat.le_refl _
  · rw [h]
    exact hlt.le

theorem refresh_floor_lt (hr : t.records[id]? = some record)
    (hc : t.standing record tables state = .conflict) (hf : t.floor < record.checkpoint.mwHeight)
    (info : FinalityInfo) :
    (t.refresh tables info state).1.floor < record.checkpoint.mwHeight := by
  rcases t.refresh_cases tables info state with h | ⟨_, _, _, _, -, hlt, h⟩
  · rw [h]
    exact hf
  · rw [h]
    exact hlt.trans_le (lowestConflict_le hr hf hc)

/-- What happens to a tracker: a verified record comes in, or the floor is recomputed. -/
inductive Event
  | insert (record : AnchorRecord)
  | refresh (tables : ChainTables) (info : FinalityInfo) (state : State)

variable [Primitives]

def apply (t : FinalityTracker) : Event → FinalityTracker
  | .insert record => t.insertVerified record
  | .refresh tables info state => (t.refresh tables info state).1

def run (t : FinalityTracker) (events : List Event) : FinalityTracker := events.foldl apply t

theorem insertVerified_floor (t : FinalityTracker) (record : AnchorRecord) :
    (t.insertVerified record).floor = t.floor := by
  unfold insertVerified
  dsimp only
  split
  · rfl
  · exact evict_floor _

theorem le_apply_floor (t : FinalityTracker) (event : Event) : t.floor ≤ (t.apply event).floor := by
  cases event with
  | insert record => exact (t.insertVerified_floor record).ge
  | refresh tables info state => exact t.le_refresh_floor tables info state

theorem le_run_floor (t : FinalityTracker) (events : List Event) :
    t.floor ≤ (t.run events).floor := by
  induction events generalizing t with
  | nil => exact Nat.le_refl _
  | cons event events ih => exact (t.le_apply_floor event).trans (ih (t.apply event))

/-- A property of every event of a run, on the tracker it finds. -/
def Along (P : FinalityTracker → Event → Prop) : FinalityTracker → List Event → Prop
  | _, [] => True
  | t, event :: events => P t event ∧ Along P (t.apply event) events

/-- A record conflicts with the chain a refresh is made on. -/
def ConflictsOn (record : AnchorRecord) (t : FinalityTracker) : Event → Prop
  | .insert _ => True
  | .refresh tables _ state => t.standing record tables state = .conflict

/-- A record is not the one dropped for another that comes in. -/
def SparesOn (record : AnchorRecord) (t : FinalityTracker) : Event → Prop
  | .insert other => other.checkpoint.id ∈ t.records ∨
      Spares { t with records := t.records.insert other.checkpoint.id other }
        record.checkpoint.id record
  | .refresh _ _ _ => True

theorem insertVerified_keeps {other : AnchorRecord}
    (hr : t.records[record.checkpoint.id]? = some record)
    (hs : t.SparesOn record (.insert other)) :
    (t.insertVerified other).records[record.checkpoint.id]? = some record := by
  unfold insertVerified
  dsimp only
  split
  · exact hr
  · rename_i hnew
    apply evict_keeps _ (hs.resolve_left hnew)
    refine OrderedMap.getElem?_insert_eq_some.mpr (.inr ⟨?_, hr⟩)
    intro heq
    exact hnew (OrderedMap.mem_iff_exists.mpr ⟨record, heq ▸ hr⟩)

theorem apply_keeps (hr : t.records[record.checkpoint.id]? = some record)
    (hf : t.floor < record.checkpoint.mwHeight) (hs : t.SparesOn record event) :
    (t.apply event).records[record.checkpoint.id]? = some record := by
  cases event with
  | insert other => exact insertVerified_keeps hr hs
  | refresh tables info state => exact refresh_keeps hr hf tables info state

theorem run_keeps {events : List Event} (hr : t.records[record.checkpoint.id]? = some record)
    (hf : (t.run events).floor < record.checkpoint.mwHeight)
    (hs : t.Along (SparesOn record) events) :
    (t.run events).records[record.checkpoint.id]? = some record := by
  induction events generalizing t with
  | nil => exact hr
  | cons event events ih =>
    have hlt := (t.le_run_floor (event :: events)).trans_lt hf
    exact ih (apply_keeps hr hlt hs.1) hf hs.2

theorem run_floor_lt {events : List Event}
    (hr : t.records[record.checkpoint.id]? = some record)
    (hf : t.floor < record.checkpoint.mwHeight) (hs : t.Along (SparesOn record) events)
    (hc : t.Along (ConflictsOn record) events) :
    (t.run events).floor < record.checkpoint.mwHeight := by
  induction events generalizing t with
  | nil => exact hf
  | cons event events ih =>
    have hnext : (t.apply event).floor < record.checkpoint.mwHeight := by
      cases event with
      | insert other => exact (t.insertVerified_floor other).trans_lt hf
      | refresh tables info state => exact refresh_floor_lt hr hc.1 hf info
    exact ih (apply_keeps hr hf hs.1) hnext hs.2 hc.2

theorem insert_new (hnew : record.checkpoint.id ∉ t.records)
    (hs : t.SparesOn record (.insert record)) :
    (t.insertVerified record).records[record.checkpoint.id]? = some record := by
  unfold insertVerified
  dsimp only
  rw [if_neg hnew]
  exact evict_keeps (OrderedMap.getElem?_insert_eq_some.mpr (.inl ⟨rfl, rfl⟩))
    (hs.resolve_left hnew)

theorem Along.append {P : FinalityTracker → Event → Prop} {before after : List Event} :
    t.Along P (before ++ after) ↔ t.Along P before ∧ (t.run before).Along P after := by
  induction before generalizing t with
  | nil => exact ⟨fun h => ⟨trivial, h⟩, And.right⟩
  | cons event before ih => exact (and_congr_right fun _ => ih).trans and_assoc.symm

/-- The floor never falls, and stays below a record that came in and conflicts, as long as the
record is spared. -/
theorem floor_below_conflict (cfg : FinalityConfig) (info : FinalityInfo)
    (before since after : List Event) (record : AnchorRecord) :
    let t := (new cfg info).run before
    let u := t.run (.insert record :: since)
    t.floor ≤ u.floor ∧ u.floor ≤ (u.run after).floor ∧
      (record.checkpoint.id ∉ t.records →
        t.Along (SparesOn record) (.insert record :: since ++ after) →
          u.floor < record.checkpoint.mwHeight → u.Along (ConflictsOn record) after →
            (u.run after).floor < record.checkpoint.mwHeight) := by
  intro t u
  refine ⟨t.le_run_floor _, u.le_run_floor _, ?_⟩
  intro hnew hspared hfloor hconflict
  obtain ⟨hsince, hafter⟩ := Along.append.mp hspared
  have hheld : ((t.apply (.insert record)).run since).records[record.checkpoint.id]? =
      some record :=
    run_keeps (insert_new hnew hsince.1) hfloor hsince.2
  exact run_floor_lt hheld hfloor hafter hconflict

omit [Primitives] in
/-- Words under a hash that reads off what follows a checkpoint's network. -/
@[reducible] def heightWords : Primitives :=
  { Primitives.words with blake3 := fun data => wordOf (data.drop 77) }

/-- A tip far above every record. -/
def floodTip : State := { State.genesis with height := 1000 }

omit [Primitives] in
def floodHeader : BatchHeader := ⟨0, 0, 0, ⟨0, 0⟩, 0, 0, 0, 0, none, 0, none⟩

omit [Primitives] in
/-- A chain of like headers, each block adding one to its work. -/
def floodTables : ChainTables := ⟨fun _ => some floodHeader, fun h => some (h + 1), none⟩

omit [Primitives] in
/-- A checkpoint of that chain. -/
def floodRecord (h : Nat) : AnchorRecord := ⟨⟨1, 0, h, 0, 0, h, 0⟩⟩

omit [Primitives] in
/-- A checkpoint of another chain. -/
def forkRecord : AnchorRecord := ⟨⟨1, 0, 1, 1, 0, 1, 0⟩⟩

omit [Primitives] in
/-- As many checkpoints above the other chain's as the node keeps. -/
def floodInserts : List Event := (List.range maxRecords).map fun i => .insert (floodRecord (i + 2))

def floodRefresh : Event := .refresh floodTables .default floodTip

theorem along_conflicts {events : List Event} (h : ∀ e ∈ events, ∀ t : FinalityTracker,
    t.ConflictsOn record e) : t.Along (ConflictsOn record) events := by
  induction events generalizing t with
  | nil => trivial
  | cons event events ih =>
    obtain ⟨he, hes⟩ := List.forall_mem_cons.mp h
    exact ⟨he t, ih hes⟩

theorem flood_conflicts (t : FinalityTracker) :
    t.Along (ConflictsOn forkRecord) (floodInserts ++ [floodRefresh]) := by
  apply along_conflicts
  intro e he t
  rcases List.mem_append.mp he with he | he
  · obtain ⟨i, -, rfl⟩ := List.mem_map.mp he
    trivial
  · rw [List.mem_singleton.mp he]
    rfl

omit [Primitives] in
theorem floor_below_conflict_lone :
    letI := heightWords
    (((new ⟨100, 4, false⟩ .default).run [.insert forkRecord]).run [floodRefresh]).floor < 1 := by
  let := heightWords
  refine (floor_below_conflict ⟨100, 4, false⟩ .default [] [] [floodRefresh] forkRecord).2.2
    ?_ ⟨?_, trivial, trivial⟩ ?_ ⟨rfl, trivial⟩
  · exact Std.ExtTreeMap.not_mem_empty
  · exact .inr (.inl (by decide +kernel))
  · decide +kernel

omit [Primitives] in
/-- Checkpoints of the node's own chain push the other chain's out, and the floor passes it. -/
theorem floor_passes_conflict :
    letI := heightWords
    let t := (new ⟨100, 4, false⟩ .default).run [floodRefresh]
    let u := t.run [.insert forkRecord]
    forkRecord.checkpoint.id ∉ t.records ∧
      u.records[forkRecord.checkpoint.id]? = some forkRecord ∧
      u.floor < forkRecord.checkpoint.mwHeight ∧
      u.Along (ConflictsOn forkRecord) (floodInserts ++ [floodRefresh]) ∧
      (u.run (floodInserts ++ [floodRefresh])).floor = maxRecords + 1 := by
  let := heightWords
  exact ⟨by decide +kernel, by decide +kernel, by decide +kernel, flood_conflicts _,
    by decide +kernel⟩

end FinalityTracker

end Midwimble
