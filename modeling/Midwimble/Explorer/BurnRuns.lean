import Midwimble.Explorer.BurnReads

namespace Midwimble
open OrderedMap Database
set_option autoImplicit true

namespace BurnSync

variable {s : BurnSync} {db : Database}

theorem drop_cases (s : BurnSync) (db : Database) :
    s.index.rows = [] ∧ s.drop db = { s with phase := .bisecting 1 (max s.tip 1) } ∨
    s.index.rows ≠ [] ∧ s.drop db = { s with index := .default } ∨
    (∃ header, s.index.rows ≠ [] ∧ s.index.end - 1 < s.tip ∧
      db.loadHeader (s.index.end - 1) = some header ∧
        s.index.hashes.getLast? = some header.extension.finalHash ∧
          s.drop db = { s with phase := .reading }) ∨
    s.index.rows ≠ [] ∧ s.drop db = { s with index := s.index.pop } := by
  by_cases hrows : s.index.rows = []
  · left
    rw [drop, if_pos hrows]
    exact ⟨hrows, rfl⟩
  right
  rw [drop, if_neg hrows]
  cases hlast : s.index.hashes.getLast? with
  | none => exact .inl ⟨hrows, rfl⟩
  | some hash =>
    right
    simp only
    split
    · rename_i hfound
      obtain ⟨hlt, hany⟩ := hfound
      obtain ⟨header, hload, hhash⟩ := (Option.any_eq_true _ _).mp hany
      exact .inl ⟨header, hrows, hlt, hload, by rw [of_decide_eq_true hhash], rfl⟩
    · exact .inr ⟨hrows, rfl⟩

/-- Everything a turn of the loop that reads blocks can do. -/
theorem read_cases (s : BurnSync) (db : Database) :
    (s.tip ≤ s.index.end ∨
      s.index.rows ≠ [] ∧ ∀ r, (s.records db).head? = some r → r.height ≠ s.index.end) ∧
        s.read db = { s with phase := .done } ∨
    (s.index.end < s.tip ∧ s.index.rows = [] ∧ s.records db = []) ∧
      s.read db = { s with index := { s.index with
        start := satAdd64 s.index.end Burn.readChunk } } ∨
    ∃ first rest b, s.index.end < s.tip ∧ s.records db = first :: rest ∧
      (first.height = s.index.end ∨ s.index.rows = []) ∧
        b = (first :: rest).foldl .push { s.index with
          start := if first.height ≠ s.index.end then first.height else s.index.start } ∧
          s.read db = { s with index := b } := by
  rw [read]
  by_cases hlt : s.index.end < s.tip
  · simp only [if_pos hlt]
    cases hrecords : s.records db with
    | nil =>
      by_cases hrows : s.index.rows = []
      · right
        left
        refine ⟨⟨hlt, hrows, rfl⟩, ?_⟩
        simp only [hrows, ne_eq, not_true_eq_false, if_false]
      · left
        refine ⟨.inr ⟨hrows, fun r hr => (nomatch hr)⟩, ?_⟩
        simp only [hrows, ne_eq, not_false_eq_true, if_true]
    | cons first rest =>
      by_cases hgap : first.height ≠ s.index.end ∧ s.index.rows ≠ []
      · left
        refine ⟨.inr ⟨hgap.2, ?_⟩, ?_⟩
        · intro r hr
          obtain rfl := Option.some.inj hr
          exact hgap.1
        · simp only [if_pos hgap]
      · right
        right
        refine ⟨first, rest, _, hlt, rfl, ?_, rfl, ?_⟩
        · rwa [not_and_or, not_not, not_not] at hgap
        · simp only [if_neg hgap]
  · left
    refine ⟨.inl (Nat.le_of_not_lt hlt), ?_⟩
    rw [if_neg hlt]

end BurnSync

variable [Primitives] {db db' : Database} {chain blocks : List Batch} {low base : Nat}
  {s : BurnSync}

/-- No two of these blocks share an id, and fewer bonds sign them than a row's signer tells
apart. -/
structure ToldApart (blocks : List Batch) : Prop where
  ids : Set.InjOn (fun b : Batch => b.extension.finalHash) {b | b ∈ blocks}
  room : (signingBonds blocks).card < 2 ^ 32

namespace BurnSync

theorem read_pushes (hapart : ToldApart blocks) (hm : Mirrors db chain low base)
    (hsub : chain ⊆ blocks) (h : s.index.ReadFrom db (signingBonds blocks))
    (hlt : s.index.end < s.tip) (hrecords : s.records db = first :: rest)
    (hat : first.height = s.index.end ∨ s.index.rows = [])
    (hb : b = (first :: rest).foldl .push { s.index with
      start := if first.height ≠ s.index.end then first.height else s.index.start }) :
    b.ReadFrom db (signingBonds blocks) ∧ b.hashes ≠ [] ∧ s.index.end < b.end ∧ b.end ≤ s.tip := by
  have hread := hrecords
  rw [records, hm.blockRecords] at hread
  obtain ⟨hle, hstop, -, hrun⟩ := hm.storedRecords_cons hread
  have htip : satAdd64 s.index.end (min (s.tip - s.index.end) Burn.readChunk) ≤ s.tip := by
    unfold satAdd64
    omega
  obtain ⟨from', hfrom, hend⟩ : ∃ b' : BurnIndex, b'.ReadFrom db (signingBonds blocks) ∧
      b'.end = first.height ∧ b = (first :: rest).foldl .push b' := by
    by_cases hgap : first.height ≠ s.index.end
    · have hrows : s.index.rows = [] := hat.resolve_left hgap
      refine ⟨_, h.restart hrows first.height, ?_, ?_⟩
      · rw [BurnIndex.end, hrows]
        rfl
      · rw [hb, if_pos hgap]
    · rw [not_not] at hgap
      refine ⟨s.index, h, hgap.symm, ?_⟩
      rw [hb, if_neg (not_not.mpr hgap)]
  obtain ⟨hend, rfl⟩ := hend
  rw [← hend] at hrun
  obtain ⟨hnew, hknown, hstop'⟩ := hfrom.pushes hapart.room hm hsub rfl hrun
  refine ⟨hnew, hknown, ?_, ?_⟩
  · omega
  · omega

/-- The rows were all read from one database, that of the chain at some time. -/
structure Copied (s : BurnSync) (blocks : List Batch) (low base : Nat) : Prop where
  source : ∃ db chain, Mirrors db chain low base ∧ chain ⊆ blocks ∧
    s.index.ReadFrom db (signingBonds blocks)
  empty : ∀ lo hi, s.phase = .bisecting lo hi → s.index.rows = []

/-- The blocks the next turn reads right above the rows follow the newest row's block. -/
def Linked (s : BurnSync) (db : Database) : Prop :=
  s.phase = .reading → s.index.rows ≠ [] → s.index.end < s.tip →
    ∀ r, (s.records db).head? = some r → r.height = s.index.end →
      ∃ header, db.loadHeader (s.index.end - 1) = some header ∧
        s.index.hashes.getLast? = some header.extension.finalHash

/-- A turn keeps the rows one database's, when what it reads follows them. -/
theorem Copied.step (hapart : ToldApart blocks) (hm : Mirrors db chain low base)
    (hsub : chain ⊆ blocks) (h : s.Copied blocks low base) (hlinked : s.Linked db) :
    (s.step db).Copied blocks low base := by
  obtain ⟨db', others, hm', hsub', hfrom⟩ := h.source
  rw [BurnSync.step]
  cases hphase : s.phase with
  | dropping =>
    have hnone : ∀ lo hi, s.phase = .bisecting lo hi → False := by
      intro lo hi hp
      rw [hphase] at hp
      cases hp
    rcases s.drop_cases db with ⟨hrows, hd⟩ | ⟨-, hd⟩ | ⟨header, -, -, -, -, hd⟩ | ⟨hrows, hd⟩
    · simp only [hd]
      exact ⟨⟨db', others, hm', hsub', hfrom⟩, fun _ _ _ => hrows⟩
    · simp only [hd]
      exact ⟨⟨db', others, hm', hsub', .default⟩, fun lo hi hp => (hnone lo hi hp).elim⟩
    · simp only [hd]
      exact ⟨⟨db', others, hm', hsub', hfrom⟩, fun _ _ hp => nomatch hp⟩
    · simp only [hd]
      exact ⟨⟨db', others, hm', hsub', hfrom.pop hrows⟩, fun lo hi hp => (hnone lo hi hp).elim⟩
  | bisecting lo hi =>
    have hrows := h.empty lo hi hphase
    simp only [bisect]
    split
    · exact ⟨⟨db', others, hm', hsub', hfrom⟩, fun _ _ _ => hrows⟩
    · have hhashes := hfrom.hashes_nil hrows
      rw [← hhashes]
      exact ⟨⟨db', others, hm', hsub', hfrom.restart hrows _⟩, fun _ _ _ => hrows⟩
  | reading =>
    have hnone : ∀ lo hi, s.phase = .bisecting lo hi → False := by
      intro lo hi hp
      rw [hphase] at hp
      cases hp
    rcases s.read_cases db with ⟨-, hr⟩ | ⟨⟨-, hrows, -⟩, hr⟩ |
      ⟨first, rest, b, hlt, hrecords, hat, hb, hr⟩
    · simp only [hr]
      exact ⟨⟨db', others, hm', hsub', hfrom⟩, fun _ _ hp => nomatch hp⟩
    · simp only [hr]
      exact ⟨⟨db', others, hm', hsub', hfrom.restart hrows _⟩, fun _ _ _ => hrows⟩
    · simp only [hr]
      have hnow : s.index.ReadFrom db (signingBonds blocks) := by
        by_cases hrows : s.index.rows = []
        · exact hfrom.of_nil hrows
        · obtain ⟨header, hload, hlast⟩ := hlinked hphase hrows hlt first
            (by rw [hrecords]; rfl) (hat.resolve_right hrows)
          exact hfrom.relink hapart.ids hrows hm' hm hsub' hsub hload hlast
      obtain ⟨hnew, -⟩ := read_pushes hapart hm hsub hnow hlt hrecords hat hb
      exact ⟨⟨db, chain, hm, hsub, hnew⟩, fun lo hi hp => (hnone lo hi hp).elim⟩
  | done => exact h

/-- While blocks are read, the newest row's is the one stored at its height. -/
def Joined (s : BurnSync) (db : Database) : Prop :=
  s.phase = .reading → s.index.rows ≠ [] →
    ∃ header, db.loadHeader (s.index.end - 1) = some header ∧
      s.index.hashes.getLast? = some header.extension.finalHash

omit [Primitives] in
theorem Joined.linked (h : s.Joined db) : s.Linked db :=
  fun hphase hrows _ _ _ _ => h hphase hrows

theorem Joined.step (hapart : ToldApart blocks) (hm : Mirrors db chain low base)
    (hsub : chain ⊆ blocks) (hc : s.Copied blocks low base) (h : s.Joined db) :
    (s.step db).Joined db := by
  rw [BurnSync.step]
  cases hphase : s.phase with
  | dropping =>
    have hnot : s.phase ≠ .reading := by
      rw [hphase]
      exact fun hp => nomatch hp
    rcases s.drop_cases db with ⟨-, hd⟩ | ⟨-, hd⟩ | ⟨header, -, -, hload, hlast, hd⟩ | ⟨-, hd⟩
    · simp only [hd]
      exact fun hp => nomatch hp
    · simp only [hd]
      exact fun hp => absurd hp hnot
    · simp only [hd]
      exact fun _ _ => ⟨header, hload, hlast⟩
    · simp only [hd]
      exact fun hp => absurd hp hnot
  | bisecting lo hi =>
    have hrows := hc.empty lo hi hphase
    simp only [bisect]
    split
    · exact fun _ hne => absurd hrows hne
    · exact fun _ hne => absurd hrows hne
  | reading =>
    rcases s.read_cases db with ⟨-, hr⟩ | ⟨⟨-, hrows, -⟩, hr⟩ |
      ⟨first, rest, b, hlt, hrecords, hat, hb, hr⟩
    · simp only [hr]
      exact fun hp => nomatch hp
    · simp only [hr]
      exact fun _ hne => absurd hrows hne
    · simp only [hr]
      obtain ⟨db', others, hm', hsub', hfrom⟩ := hc.source
      have hnow : s.index.ReadFrom db (signingBonds blocks) := by
        by_cases hrows : s.index.rows = []
        · exact hfrom.of_nil hrows
        · obtain ⟨header, hload, hlast⟩ := h hphase hrows
          exact hfrom.relink hapart.ids hrows hm' hm hsub' hsub hload hlast
      obtain ⟨hnew, hknown, -⟩ := read_pushes hapart hm hsub hnow hlt hrecords hat hb
      exact fun _ hrows => hnew.newest hrows hknown
  | done => exact h

theorem Joined.commit {added : List Batch} (hm : Mirrors db chain low base)
    (hm' : Mirrors db' (chain.take first ++ added) low base) (h : s.Joined db)
    (hspared : s.phase = .reading → s.index.rows ≠ [] → s.index.end ≤ first)
    (hc : s.Copied blocks low base) : s.Joined db' := by
  intro hphase hrows
  obtain ⟨header, hload, hlast⟩ := h hphase hrows
  have hle := hspared hphase hrows
  obtain ⟨_, _, _, _, hfrom⟩ := hc.source
  obtain ⟨_, hend, -⟩ := hfrom.last hrows
  refine ⟨header, ?_, hlast⟩
  rw [hm.loadHeader] at hload
  rw [hm'.loadHeader, ← hload]
  split
  · rename_i hlow
    rw [if_pos hlow] at hload
    obtain ⟨b, hb, -⟩ := Option.map_eq_some_iff.mp hload
    have hlt := (List.getElem?_eq_some_iff.mp hb).1
    have htake : s.index.end - 1 < (chain.take first).length := by
      rw [List.length_take]
      omega
    rw [List.getElem?_append_left htake, List.getElem?_take_of_lt (by omega)]
  · rfl

/-- How far a call has come while nothing is committed. -/
structure Level (s : BurnSync) (db : Database) (blocks : List Batch) (low base : Nat) : Prop where
  copied : s.Copied blocks low base
  tip_le : s.tip ≤ u64Max
  stored : s.phase ≠ .dropping → s.index.ReadFrom db (signingBonds blocks)
  below : s.phase = .reading ∨ s.phase = .done → s.index.rows ≠ [] →
    s.index.end ≤ s.tip ∧ s.index.hashes ≠ []
  finished : s.phase = .done → ∀ k, s.index.end ≤ k → k < s.tip → db.record k = none

theorem Level.of_stored {b : BurnIndex} {tip : Nat} {phase : SyncPhase}
    (hm : Mirrors db chain low base) (hsub : chain ⊆ blocks)
    (htip : tip ≤ u64Max) (hstored : b.ReadFrom db (signingBonds blocks))
    (hempty : ∀ lo hi, phase = .bisecting lo hi → b.rows = [])
    (hbelow : b.rows ≠ [] → b.end ≤ tip ∧ b.hashes ≠ [])
    (hfinished : phase = .done → ∀ k, b.end ≤ k → k < tip → db.record k = none) :
    (BurnSync.mk b tip phase).Level db blocks low base :=
  ⟨⟨⟨db, chain, hm, hsub, hstored⟩, hempty⟩, htip, fun _ => hstored, fun _ => hbelow, hfinished⟩

theorem Level.dropping {b : BurnIndex} {tip : Nat} (htip : tip ≤ u64Max)
    (h : (BurnSync.mk b tip .dropping).Copied blocks low base) :
    (BurnSync.mk b tip .dropping).Level db blocks low base := by
  refine ⟨h, htip, fun hne => absurd rfl hne, ?_, fun hdone => nomatch hdone⟩
  rintro (hp | hp)
  · cases hp
  · cases hp

theorem none_above (htip : s.tip ≤ u64Max) (hm : Mirrors db chain low base)
    (h : s.index.ReadFrom db (signingBonds blocks))
    (hstop : s.tip ≤ s.index.end ∨
      s.index.rows ≠ [] ∧ ∀ r, (s.records db).head? = some r → r.height ≠ s.index.end)
    (hk : s.index.end ≤ k) (hk' : k < s.tip) : db.record k = none := by
  rcases hstop with hge | ⟨hrows, hhead⟩
  · omega
  obtain ⟨r, hend, -, hr, -⟩ := h.last hrows
  obtain ⟨hlow, -⟩ := hm.record_isSome.mp (Option.isSome_iff_exists.mpr ⟨r, hr⟩)
  apply Option.not_isSome_iff_eq_none.mp
  intro hsome
  obtain ⟨-, hlt⟩ := hm.record_isSome.mp hsome
  -- A stored height above would make the one right above the rows stored, and read.
  obtain ⟨q, hq⟩ : ∃ q, db.record s.index.end = some q := by
    apply Option.isSome_iff_exists.mp
    rw [hm.record_isSome]
    omega
  have hread : s.index.end < satAdd64 s.index.end
      (min (s.tip - s.index.end) Burn.readChunk) := by
    unfold satAdd64 Burn.readChunk
    unfold u64Max at htip
    omega
  apply hhead q ?_ (record_height hq)
  rw [records, hm.blockRecords, Database.storedRecords_cons hq hread]
  rfl

theorem Level.step (hapart : ToldApart blocks) (hm : Mirrors db chain low base)
    (hsub : chain ⊆ blocks) (h : s.Level db blocks low base) :
    (s.step db).Level db blocks low base := by
  obtain ⟨db', others, hm', hsub', hfrom⟩ := h.copied.source
  have htip := h.tip_le
  cases hphase : s.phase with
  | dropping =>
    have hcopied := h.copied.step hapart hm hsub fun hp => by
      rw [hphase] at hp
      cases hp
    have hstep : s.step db = s.drop db := by rw [BurnSync.step, hphase]
    rw [hstep] at hcopied ⊢
    rcases s.drop_cases db with ⟨hrows, hd⟩ | ⟨-, hd⟩ |
      ⟨header, hrows, hlt, hload, hlast, hd⟩ | ⟨-, hd⟩
    · rw [hd]
      apply Level.of_stored hm hsub htip (hfrom.of_nil hrows) fun _ _ _ => hrows
      · exact fun hne => absurd hrows hne
      · exact fun hdone => nomatch hdone
    · rw [hd] at hcopied ⊢
      rw [hphase] at hcopied ⊢
      exact .dropping htip hcopied
    · rw [hd]
      have hnow := hfrom.relink hapart.ids hrows hm' hm hsub' hsub hload hlast
      apply Level.of_stored hm hsub htip hnow
      · exact fun _ _ hp => nomatch hp
      · intro _
        obtain ⟨_, hend, -⟩ := hfrom.last hrows
        refine ⟨by show s.index.end ≤ s.tip; omega, ?_⟩
        intro hnil
        rw [hnil] at hlast
        cases hlast
      · exact fun hdone => nomatch hdone
    · rw [hd] at hcopied ⊢
      rw [hphase] at hcopied ⊢
      exact .dropping htip hcopied
  | bisecting lo hi =>
    have hrows := h.copied.empty lo hi hphase
    have hstored := h.stored (by rw [hphase]; exact fun hp => nomatch hp)
    have hstep : s.step db = s.bisect db lo hi := by rw [BurnSync.step, hphase]
    rw [hstep, bisect]
    simp only
    split
    · apply Level.of_stored hm hsub htip hstored fun _ _ _ => hrows
      · exact fun hne => absurd hrows hne
      · intro hdone
        split at hdone
        · cases hdone
        · cases hdone
    · have hhashes := hstored.hashes_nil hrows
      rw [← hhashes]
      apply Level.of_stored hm hsub htip (hstored.restart hrows _)
      · exact fun _ _ _ => hrows
      · exact fun hne => absurd hrows hne
      · exact fun hdone => nomatch hdone
  | reading =>
    have hstored := h.stored (by rw [hphase]; exact fun hp => nomatch hp)
    have hbelow := h.below (.inl hphase)
    have hnone : ∀ lo hi, s.phase = .bisecting lo hi → False := by
      intro lo hi hp
      rw [hphase] at hp
      cases hp
    have hgoing : s.phase ≠ .done := by
      rw [hphase]
      exact fun hp => nomatch hp
    have hstep : s.step db = s.read db := by rw [BurnSync.step, hphase]
    rw [hstep]
    rcases s.read_cases db with ⟨hstop, hr⟩ | ⟨⟨-, hrows, -⟩, hr⟩ |
      ⟨first, rest, b, hlt, hrecords, hat, hb, hr⟩
    · rw [hr]
      apply Level.of_stored hm hsub htip hstored
      · exact fun _ _ hp => nomatch hp
      · exact hbelow
      · intro _ k hk hk'
        exact none_above htip hm hstored hstop hk hk'
    · rw [hr]
      apply Level.of_stored hm hsub htip (hstored.restart hrows _)
      · exact fun _ _ _ => hrows
      · exact fun hne => absurd hrows hne
      · exact fun hdone => absurd hdone hgoing
    · rw [hr]
      obtain ⟨hnew, hknown, -, hend⟩ := read_pushes hapart hm hsub hstored hlt hrecords hat hb
      apply Level.of_stored hm hsub htip hnew fun lo hi hp => (hnone lo hi hp).elim
      · exact fun _ => ⟨hend, hknown⟩
      · exact fun hdone => absurd hdone hgoing
  | done =>
    have hstep : s.step db = s := by rw [BurnSync.step, hphase]
    rwa [hstep]

end BurnSync

/-- The rows are exactly the stored records of the heights from the first row's up to `tip`, one
for each height, and the hashes those of the newest rows. -/
structure BurnIndex.Exact (b : BurnIndex) (db : Database) (tip : Nat) : Prop where
  rows : List.Forall₂ (fun r row => Burn.Row.Shows row b.ids r) (db.storedRecords b.start tip)
    b.rows
  heights : (db.storedRecords b.start tip).map BlockRecord.height =
    List.range' b.start b.rows.length
  ids : b.ids.Nodup
  hashes : b.hashes <:+ (db.storedRecords b.start tip).map BlockRecord.hash
  known : b.rows ≠ [] → b.hashes ≠ []

omit [Primitives] in
theorem heights_storedRecords (h : ∀ k, start ≤ k → k < stop → (db.record k).isSome) :
    (db.storedRecords start stop).map BlockRecord.height = List.range' start (stop - start) := by
  have hall : ∀ k ∈ List.range' start (stop - start),
      (db.record k).map BlockRecord.height = some k := by
    intro k hk
    rw [List.mem_range'_1] at hk
    obtain ⟨r, hr⟩ := Option.isSome_iff_exists.mp (h k hk.1 (by omega))
    rw [hr, Option.map_some, record_height hr]
  rw [storedRecords, List.map_filterMap, List.filterMap_congr hall, List.filterMap_some]

namespace BurnSync

theorem Level.exact (h : s.Level db blocks low base) (hdone : s.phase = .done) :
    s.index.Exact db s.tip := by
  have hfrom := h.stored (by rw [hdone]; exact fun hp => nomatch hp)
  have hbelow := h.below (.inr hdone)
  have hall : db.storedRecords s.index.start s.tip =
      db.storedRecords s.index.start s.index.end := by
    have habove : db.storedRecords s.index.end s.tip = [] :=
      storedRecords_none (h.finished hdone)
    by_cases hrows : s.index.rows = []
    · have hend : s.index.end = s.index.start := by
        rw [BurnIndex.end, hrows]
        rfl
      rw [hend] at habove ⊢
      rw [habove, storedRecords_empty (Nat.le_refl _)]
    · rw [← storedRecords_append (Nat.le_add_right _ _) (hbelow hrows).1]
      exact (congrArg _ habove).trans (List.append_nil _)
  have hheights : (db.storedRecords s.index.start s.index.end).map BlockRecord.height =
      List.range' s.index.start s.index.rows.length := by
    rw [heights_storedRecords fun k hk hk' => hfrom.stored hk hk', BurnIndex.end,
      Nat.add_sub_cancel_left]
  rw [← hall] at hheights
  rw [BurnIndex.ReadFrom, ← hall] at hfrom
  exact ⟨hfrom.rows, hheights, hfrom.indexed.nodup, hfrom.hashes, fun hrows => (hbelow hrows).2⟩

/-- The loops still to go through, and at most how many turns of the present one. -/
def rank (s : BurnSync) : Nat × Nat :=
  match s.phase with
  | .dropping => (3, s.index.rows.length)
  | .bisecting lo hi => (2, hi - lo)
  | .reading => (1, s.tip - s.index.end)
  | .done => (0, 0)

theorem Level.rank_step (hapart : ToldApart blocks) (hm : Mirrors db chain low base)
    (hsub : chain ⊆ blocks) (h : s.Level db blocks low base) (hgoing : s.phase ≠ .done) :
    Prod.Lex (· < ·) (· < ·) (s.step db).rank s.rank := by
  have htip := h.tip_le
  rw [BurnSync.step]
  cases hphase : s.phase with
  | dropping =>
    have hrank : s.rank = (3, s.index.rows.length) := by rw [rank, hphase]
    rw [hrank]
    rcases s.drop_cases db with ⟨-, hd⟩ | ⟨hrows, hd⟩ | ⟨header, -, -, -, -, hd⟩ | ⟨hrows, hd⟩
    · simp only [hd]
      exact .left _ _ (by decide)
    · simp only [hd, rank, hphase]
      exact .right _ (List.length_pos_of_ne_nil hrows)
    · simp only [hd]
      exact .left _ _ (by decide)
    · simp only [hd, rank, hphase]
      apply Prod.Lex.right
      have hpos := List.length_pos_of_ne_nil hrows
      simp only [BurnIndex.pop, List.length_dropLast]
      omega
  | bisecting lo hi =>
    have hrank : s.rank = (2, hi - lo) := by rw [rank, hphase]
    rw [hrank]
    simp only [bisect]
    split
    · split
      · apply Prod.Lex.right
        omega
      · apply Prod.Lex.right
        omega
    · exact .left _ _ (by decide)
  | reading =>
    have hrank : s.rank = (1, s.tip - s.index.end) := by rw [rank, hphase]
    rw [hrank]
    rcases s.read_cases db with ⟨-, hr⟩ | ⟨⟨hlt, hrows, -⟩, hr⟩ |
      ⟨first, rest, b, hlt, hrecords, hat, hb, hr⟩
    · simp only [hr]
      exact .left _ _ (by decide)
    · simp only [hr, rank, hphase]
      apply Prod.Lex.right
      simp only [BurnIndex.end, hrows, List.length_nil] at hlt ⊢
      unfold satAdd64 Burn.readChunk
      unfold u64Max at htip
      omega
    · have hstored := h.stored (by rw [hphase]; intro hp; cases hp)
      obtain ⟨-, -, hmore, -⟩ := read_pushes hapart hm hsub hstored hlt hrecords hat hb
      simp only [hr, rank, hphase]
      apply Prod.Lex.right
      omega
  | done => exact absurd hphase hgoing

theorem Level.returns (hapart : ToldApart blocks) (hm : Mirrors db chain low base)
    (hsub : chain ⊆ blocks) (h : s.Level db blocks low base) :
    ∃ n, ((fun s => s.step db)^[n] s).phase = .done := by
  have hwf : WellFounded (Prod.Lex (· < ·) (· < ·) : Nat × Nat → Nat × Nat → Prop) :=
    WellFounded.prod_lex Nat.lt_wfRel.wf Nat.lt_wfRel.wf
  generalize hr : s.rank = r
  induction r using hwf.induction generalizing s with
  | _ r ih =>
    by_cases hdone : s.phase = .done
    · exact ⟨0, hdone⟩
    · obtain ⟨n, hn⟩ := ih _ (hr ▸ h.rank_step hapart hm hsub hdone) (h.step hapart hm hsub) rfl
      exact ⟨n + 1, hn⟩

theorem Level.turns (hapart : ToldApart blocks) (hm : Mirrors db chain low base)
    (hsub : chain ⊆ blocks) (h : s.Level db blocks low base) (n : Nat) :
    ((fun s => s.step db)^[n] s).Level db blocks low base := by
  induction n generalizing s with
  | zero => exact h
  | succ n ih => exact ih (h.step hapart hm hsub)

omit [Primitives] in
theorem tip_step (s : BurnSync) (db : Database) : (s.step db).tip = s.tip := by
  rw [step]
  split
  · rcases s.drop_cases db with ⟨-, hd⟩ | ⟨-, hd⟩ | ⟨header, -, -, -, -, hd⟩ | ⟨-, hd⟩
    · rw [hd]
    · rw [hd]
    · rw [hd]
    · rw [hd]
  · rw [bisect]
    split
    · rfl
    · rfl
  · rcases s.read_cases db with ⟨-, hr⟩ | ⟨-, hr⟩ | ⟨first, rest, b, -, -, -, -, hr⟩
    · rw [hr]
    · rw [hr]
    · rw [hr]
  · rfl

omit [Primitives] in
theorem tip_turns (s : BurnSync) (db : Database) (n : Nat) :
    ((fun s => s.step db)^[n] s).tip = s.tip := by
  induction n generalizing s with
  | zero => rfl
  | succ n ih => exact (ih _).trans (tip_step s db)

end BurnSync

namespace BurnNode

variable {node : BurnNode} {events : List Event}

/-- What the callers of `commit_chain` promise: the effects are those the blocks had when they
were applied on top of the blocks kept. -/
def Called (node : BurnNode) : Event → Prop
  | .commit firstHeight batches effects _ =>
    EffectsOf (node.chain.take firstHeight) batches effects
  | _ => True

/-- A turn reads blocks that follow the newest row's. -/
def Linked (node : BurnNode) : Event → Prop
  | .turn => node.tracker.Linked node.db
  | _ => True

/-- A property of each event of a run and the node it finds. -/
def Along (P : BurnNode → Event → Prop) : BurnNode → List Event → Prop
  | _, [] => True
  | node, e :: events => P node e ∧ Along P (node.step e) events

theorem Along.append {P : BurnNode → Event → Prop} {before after : List Event} :
    Along P node (before ++ after) ↔ Along P node before ∧ Along P (node.run before) after := by
  induction before generalizing node with
  | nil => exact ⟨fun h => ⟨trivial, h⟩, And.right⟩
  | cons e before ih => exact (and_congr_right fun _ => ih).trans and_assoc.symm

/-- The database is a chain's, and the rows were read from one database that was. -/
structure Tracks (node : BurnNode) (blocks : List Batch) (low base : Nat) : Prop where
  mirrors : Mirrors node.db node.chain low base
  known : node.chain ⊆ blocks
  copied : node.tracker.Copied blocks low base

theorem Tracks.step (hapart : ToldApart blocks) (h : node.Tracks blocks low base)
    (hcalled : node.Called e) (hlinked : node.Linked e) (hblocks : e.blocks ⊆ blocks) :
    (node.step e).Tracks blocks low base := by
  cases e with
  | commit firstHeight batches effects state =>
    simp only [BurnNode.step]
    cases hok : node.db.commitChain firstHeight batches effects state with
    | error e => exact h
    | ok db =>
      refine ⟨h.mirrors.commit hcalled hok, ?_, h.copied⟩
      apply List.append_subset.mpr
      exact ⟨fun b hb => h.known (List.mem_of_mem_take hb), hblocks⟩
  | sync tip =>
    simp only [BurnNode.step]
    split
    · exact ⟨h.mirrors, h.known, h.copied.source, fun _ _ hp => nomatch hp⟩
    · exact h
  | turn =>
    exact ⟨h.mirrors, h.known, h.copied.step hapart h.mirrors h.known hlinked⟩

theorem Tracks.run (hapart : ToldApart blocks) (h : node.Tracks blocks low base)
    (hcalled : Along Called node events) (hlinked : Along Linked node events)
    (hblocks : events.flatMap Event.blocks ⊆ blocks) :
    (node.run events).Tracks blocks low base := by
  induction events generalizing node with
  | nil => exact h
  | cons e events ih =>
    rw [List.flatMap_cons] at hblocks
    obtain ⟨hfirst, hrest⟩ := List.append_subset.mp hblocks
    exact ih (h.step hapart hcalled.1 hlinked.1 hfirst) hcalled.2 hlinked.2 hrest

/-- No commit replaces a block with a row while a call reads blocks. -/
def Spared (node : BurnNode) : Event → Prop
  | .commit firstHeight _ _ _ => node.tracker.phase = .reading → node.tracker.index.rows ≠ [] →
    node.tracker.index.end ≤ firstHeight
  | _ => True

theorem Tracks.start (hm : Mirrors node.db node.chain low base)
    (hnew : node.tracker = ⟨.default, started, .done⟩) (hsub : node.chain ⊆ blocks) :
    node.Tracks blocks low base := by
  refine ⟨hm, hsub, ⟨node.db, node.chain, hm, hsub, ?_⟩, ?_⟩
  · rw [hnew]
    exact .default
  · intro lo hi hp
    rw [hnew] at hp
    cases hp

theorem linked_of_spared (hapart : ToldApart blocks) (h : node.Tracks blocks low base)
    (hjoined : node.tracker.Joined node.db) (hcalled : Along Called node events)
    (hspared : Along Spared node events) (hblocks : events.flatMap Event.blocks ⊆ blocks) :
    Along Linked node events := by
  induction events generalizing node with
  | nil => trivial
  | cons e events ih =>
    rw [List.flatMap_cons] at hblocks
    obtain ⟨hfirst, hrest⟩ := List.append_subset.mp hblocks
    have hlinked : node.Linked e := by
      cases e with
      | commit => trivial
      | sync => trivial
      | turn => exact hjoined.linked
    have hnext : (node.step e).tracker.Joined (node.step e).db := by
      cases e with
      | commit firstHeight batches effects state =>
        simp only [BurnNode.step]
        cases hok : node.db.commitChain firstHeight batches effects state with
        | error e => exact hjoined
        | ok db =>
          exact hjoined.commit h.mirrors (h.mirrors.commit hcalled.1 hok) hspared.1 h.copied
      | sync tip =>
        simp only [BurnNode.step]
        split
        · exact fun hp => nomatch hp
        · exact hjoined
      | turn => exact hjoined.step hapart h.mirrors h.known h.copied
    exact ⟨hlinked, ih (h.step hapart hcalled.1 hlinked hfirst) hnext hcalled.2 hspared.2 hrest⟩

theorem run_turns (node : BurnNode) (n : Nat) : node.run (List.replicate n .turn) =
    { node with tracker := (fun s => s.step node.db)^[n] node.tracker } := by
  induction n generalizing node with
  | zero => rfl
  | succ n ih =>
    rw [List.replicate_succ, BurnNode.run, List.foldl_cons]
    exact ih _

theorem Tracks.sync (hapart : ToldApart blocks) (h : node.Tracks blocks low base)
    (hdone : node.tracker.phase = .done) (htip : tip ≤ u64Max) :
    (∃ n, (node.run (.sync tip :: List.replicate n .turn)).tracker.phase = .done) ∧
      ∀ n, (node.run (.sync tip :: List.replicate n .turn)).tracker.phase = .done →
        (node.run (.sync tip :: List.replicate n .turn)).tracker.index.Exact node.db tip := by
  have hrun : ∀ n, node.run (.sync tip :: List.replicate n .turn) = { node with
      tracker := (fun s => s.step node.db)^[n] (node.tracker.index.sync tip) } := by
    intro n
    have hstep : node.step (.sync tip) =
        { node with tracker := node.tracker.index.sync tip } := by
      rw [BurnNode.step, if_pos hdone]
    rw [BurnNode.run, List.foldl_cons, hstep]
    exact run_turns _ n
  have hlevel : (node.tracker.index.sync tip).Level node.db blocks low base := by
    apply BurnSync.Level.dropping htip
    exact ⟨h.copied.source, fun _ _ hp => nomatch hp⟩
  constructor
  · obtain ⟨n, hn⟩ := hlevel.returns hapart h.mirrors h.known
    exact ⟨n, by rw [hrun]; exact hn⟩
  · intro n hn
    rw [hrun] at hn ⊢
    have hexact := (hlevel.turns hapart h.mirrors h.known n).exact hn
    rwa [BurnSync.tip_turns] at hexact

end BurnNode

end Midwimble
