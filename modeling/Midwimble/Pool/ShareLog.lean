import Midwimble.Core.ShareLog
import Midwimble.Identity.Preimages
import Midwimble.Lib.OrderedMap

namespace Midwimble
set_option autoImplicit true

theorem length_addrKey (a : StealthAddress) : (addrKey a).length = 96 := by
  simp [addrKey]

theorem keyAddr_addrKey (a : StealthAddress) : keyAddr (addrKey a) = a := by
  have hscan : (addrKey a).take 32 = a.scan.toBytes := by
    rw [addrKey, List.append_assoc, List.take_left' (length_toBytes _)]
  have hrest : (addrKey a).drop 32 = a.spend.toBytes ++ a.recovery.toBytes := by
    rw [addrKey, List.append_assoc, List.drop_left' (length_toBytes _)]
  have hspend : ((addrKey a).drop 32).take 32 = a.spend.toBytes := by
    rw [hrest, List.take_left' (length_toBytes _)]
  have hrecovery : (addrKey a).drop 64 = a.recovery.toBytes := by
    rw [← List.drop_drop (i := 32) (j := 32), hrest, List.drop_left' (length_toBytes _)]
  have hword : ∀ x : Bytes32, wordOf x.toBytes = x := fun x => by
    have h := wordOf_toBytes x []
    rwa [List.append_nil] at h
  rw [keyAddr, hscan, hspend, hrecovery, hword, hword, hword]

theorem one_le_windowSize (t : Bytes32) (bits blocks : Nat) : 1 ≤ windowSize t bits blocks := by
  unfold windowSize
  dsimp only
  split
  · decide
  · exact Nat.le_max_right _ _

namespace ShareLog

/-- The number after a log's last share. -/
def nextAfter (entries : List ShareRecord) : Nat := (entries.getLast?.map (·.seq + 1)).getD 0

theorem loadOwners_eq {l : List (Bytes32 × Bytes)} (h : ∀ e ∈ l, e.2.length = 96)
    (log : ShareLog) : loadOwners l log = .ok { log with
      addresses := l.foldl (fun m e => m.insert e.1 (keyAddr e.2)) log.addresses } := by
  induction l generalizing log with
  | nil => rfl
  | cons e l ih =>
    obtain ⟨he, hl⟩ := List.forall_mem_cons.mp h
    rw [loadOwners, Fallible.bailIf_neg (not_not.mpr he), Fallible.bind_ok, ih hl]
    rfl

theorem loadShares_eq {l : List ShareRecord} (log : ShareLog)
    (h : ∀ s ∈ l, s.owner ∈ log.addresses) :
    loadShares (l.map fun s => (s.seq, s)) log =
      .ok ⟨log.entries ++ l, log.addresses, (l.getLast?.map (·.seq + 1)).getD log.nextSeq⟩ := by
  induction l generalizing log with
  | nil => simp [loadShares]
  | cons s l ih =>
    obtain ⟨hs, hl⟩ := List.forall_mem_cons.mp h
    have ih' := ih { log with nextSeq := s.seq + 1, entries := log.entries ++ [s] } hl
    rw [List.map_cons, loadShares, Fallible.bailIf_neg (by simp [hs]), Fallible.bind_ok, ih']
    cases hlast : l.getLast? <;> simp [List.getLast?_cons, hlast]

theorem load_eq {db : PoolDb} {entries : List ShareRecord}
    (hkeys : ∀ (o : Bytes32) (key : Bytes), db.owners[o]? = some key → key.length = 96)
    (hsorted : entries.Pairwise (·.seq < ·.seq))
    (hshares : ∀ (seq : Nat) s, db.shareRecords[seq]? = some s ↔ s ∈ entries ∧ s.seq = seq)
    (howners : ∀ s ∈ entries, s.owner ∈ db.owners) :
    ∃ addresses, load db = .ok ⟨entries, addresses, nextAfter entries⟩ ∧
      ∀ o : Bytes32, addresses[o]? = db.owners[o]?.map keyAddr := by
  have hlen : ∀ e ∈ db.owners.toList, e.2.length = 96 := fun e he =>
    hkeys e.1 e.2 (Std.ExtTreeMap.mem_toList_iff_getElem?_eq_some.mp he)
  have hread := OrderedMap.getElem?_foldl_toList (f := keyAddr) db.owners
  have hlist : db.shareRecords.toList = entries.map fun s => (s.seq, s) :=
    OrderedMap.toList_eq_map (hsorted.imp Nat.compare_eq_lt.mpr) hshares
  refine ⟨_, ?_, hread⟩
  rw [load, loadOwners_eq hlen, Fallible.bind_ok, hlist, loadShares_eq]
  · rfl
  · intro s hs
    have hmem := Std.ExtTreeMap.mem_iff_isSome_getElem?.mp (howners s hs)
    apply Std.ExtTreeMap.mem_iff_isSome_getElem?.mpr
    exact (congrArg Option.isSome (hread s.owner)).trans (by rw [Option.isSome_map, hmem])

theorem le_firstKept {l : List ShareRecord} (hf : b ≤ first) (hl : ∀ s ∈ l, b ≤ s.seq) :
    b ≤ firstKept keepFrom keep w first l := by
  induction l generalizing w first with
  | nil => exact hf
  | cons s l ih =>
    obtain ⟨hs, hl⟩ := List.forall_mem_cons.mp hl
    unfold firstKept
    split
    · exact hf
    · exact ih hs hl

theorem firstKept_le {l : List ShareRecord} (hs : l.Pairwise (·.seq > ·.seq))
    (hl : ∀ s ∈ l, s.seq ≤ first) : firstKept keepFrom keep w first l ≤ first := by
  induction l generalizing w first with
  | nil => exact Nat.le_refl _
  | cons s l ih =>
    obtain ⟨hsl, hs⟩ := List.pairwise_cons.mp hs
    obtain ⟨hsf, -⟩ := List.forall_mem_cons.mp hl
    unfold firstKept
    split
    · exact Nat.le_refl _
    · exact (ih hs fun t ht => (hsl t ht).le).trans hsf

theorem dropWhile_eq_filter {l : List ShareRecord} (hs : l.Pairwise (·.seq < ·.seq))
    (first : Nat) : (l.dropWhile fun s => s.seq < first) = l.filter fun s => first ≤ s.seq := by
  induction l with
  | nil => rfl
  | cons s l ih =>
    obtain ⟨hsl, hs⟩ := List.pairwise_cons.mp hs
    by_cases h : s.seq < first
    · rw [List.dropWhile_cons_of_pos (by simpa using h), ih hs,
        List.filter_cons_of_neg (by simpa using h)]
    · have hkeep : ∀ t ∈ l, first ≤ t.seq := fun t ht => (Nat.le_of_not_lt h).trans (hsl t ht).le
      rw [List.dropWhile_cons_of_neg (by simpa using h),
        List.filter_cons_of_pos (by simpa using h),
        List.filter_eq_self.mpr fun t ht => decide_eq_true (hkeep t ht)]

theorem prune_entries {log : ShareLog} (hs : log.entries.Pairwise (·.seq < ·.seq))
    (keepFrom keep : Nat) : (log.prune keepFrom keep).1.entries =
      log.entries.filter fun s => (log.prune keepFrom keep).2.1 ≤ s.seq :=
  dropWhile_eq_filter hs _

theorem le_prune_first {log : ShareLog} (hn : b ≤ log.nextSeq) (hl : ∀ s ∈ log.entries, b ≤ s.seq)
    (keepFrom keep : Nat) : b ≤ (log.prune keepFrom keep).2.1 :=
  le_firstKept hn fun s hs => hl s (List.mem_reverse.mp hs)

theorem prune_first_le {log : ShareLog} (hs : log.entries.Pairwise (·.seq < ·.seq))
    (hkeep : 0 < keep) (hlast : log.entries = older ++ [last]) (keepFrom : Nat) :
    (log.prune keepFrom keep).2.1 ≤ last.seq := by
  rw [hlast] at hs
  obtain ⟨holder, -, hlt⟩ := List.pairwise_append.mp hs
  have hfirst : firstKept keepFrom keep 0 log.nextSeq log.entries.reverse ≤ last.seq := by
    rw [hlast, List.reverse_append, List.reverse_singleton, List.singleton_append, firstKept,
      if_neg (by omega)]
    apply firstKept_le (List.pairwise_reverse.mpr holder)
    intro s hs
    exact (hlt s (List.mem_reverse.mp hs) last List.mem_cons_self).le
  exact hfirst

theorem prune_nextAfter {log : ShareLog} (hs : log.entries.Pairwise (·.seq < ·.seq))
    (hkeep : 0 < keep) (keepFrom : Nat) :
    nextAfter (log.prune keepFrom keep).1.entries = nextAfter log.entries := by
  rw [prune_entries hs]
  rcases List.eq_nil_or_concat' log.entries with hnil | ⟨older, last, hlast⟩
  · rw [hnil]
    rfl
  · have hle := prune_first_le hs hkeep hlast keepFrom
    rw [hlast, List.filter_append, List.filter_cons_of_pos (by simpa using hle)]
    simp [nextAfter]

theorem seq_lt_nextAfter {entries : List ShareRecord} (hs : entries.Pairwise (·.seq < ·.seq))
    (h : s ∈ entries) : s.seq < nextAfter entries := by
  rcases List.eq_nil_or_concat' entries with rfl | ⟨older, last, rfl⟩
  · exact nomatch h
  · obtain ⟨-, -, hlt⟩ := List.pairwise_append.mp hs
    have hnext : nextAfter (older ++ [last]) = last.seq + 1 := by simp [nextAfter]
    rw [hnext]
    rcases List.mem_append.mp h with h | h
    · exact Nat.lt_succ_of_lt (hlt s h last List.mem_cons_self)
    · rw [List.mem_singleton.mp h]
      exact Nat.lt_succ_self _

/-- What a prune keeps. -/
structure Pruned (log next : ShareLog) (first : Nat) (owners : Finset Bytes32) : Prop where
  mem_entries : ∀ s, s ∈ next.entries ↔ s ∈ log.entries ∧ first ≤ s.seq
  sorted : next.entries.Pairwise (·.seq < ·.seq)
  addresses : next.addresses = log.addresses.filter fun id _ => id ∈ owners
  mem_owners : ∀ o, o ∈ owners ↔ ∃ s ∈ next.entries, s.owner = o
  nextSeq : next.nextSeq = log.nextSeq
  nextAfter : nextAfter next.entries = ShareLog.nextAfter log.entries
  first_le : first ≤ log.nextSeq
  le_first : ∀ b ≤ log.nextSeq, (∀ s ∈ log.entries, b ≤ s.seq) → b ≤ first

theorem pruned {log : ShareLog} (hs : log.entries.Pairwise (·.seq < ·.seq))
    (hn : log.nextSeq = nextAfter log.entries) (hkeep : 0 < keep) (keepFrom : Nat) :
    Pruned log (log.prune keepFrom keep).1 (log.prune keepFrom keep).2.1
      (log.prune keepFrom keep).2.2 := by
  have hentries := prune_entries hs keepFrom keep
  constructor
  case mem_entries =>
    intro s
    rw [hentries, List.mem_filter, decide_eq_true_eq]
  case sorted =>
    rw [hentries]
    exact hs.filter _
  case addresses => rfl
  case mem_owners =>
    intro o
    exact List.mem_toFinset.trans List.mem_map
  case nextSeq => rfl
  case nextAfter => exact prune_nextAfter hs hkeep keepFrom
  case first_le =>
    rcases List.eq_nil_or_concat' log.entries with hnil | ⟨older, last, hlast⟩
    · apply le_of_eq
      unfold prune
      rw [hnil]
      rfl
    · have hmem : last ∈ log.entries := by
        rw [hlast]
        exact List.mem_append_right _ List.mem_cons_self
      rw [hn]
      exact (prune_first_le hs hkeep hlast keepFrom).trans (seq_lt_nextAfter hs hmem).le
  case le_first => exact fun b hb hl => le_prune_first hb hl keepFrom keep

end ShareLog

end Midwimble
