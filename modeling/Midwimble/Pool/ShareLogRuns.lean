import Midwimble.Pool.ShareLog

namespace Midwimble
set_option autoImplicit true

variable [Primitives]

namespace PoolStore

/-- What a store still owes a prune, from a share on and of some owners, is made. -/
structure Settles (p : PoolStore) (first : Nat) (owners : Set Bytes32) : Prop where
  shares : ∀ (seq : Nat) s, p.db.shareRecords[seq]? = some s → first ≤ seq → s ∈ p.log.entries
  owners : ∀ o ∈ p.db.owners, o ∈ owners → o ∈ p.log.addresses

/-- The share log on disk agrees with the one in memory, but for what pending prunes remove. -/
structure Consistent (miners : Set StealthAddress) (p : PoolStore) : Prop where
  sorted : p.log.entries.Pairwise (·.seq < ·.seq)
  nextSeq : p.log.nextSeq = ShareLog.nextAfter p.log.entries
  stored : ∀ s ∈ p.log.entries, p.db.shareRecords[s.seq]? = some s
  numbered : ∀ (seq : Nat) s, p.db.shareRecords[seq]? = some s → s.seq = seq
  owned : ∀ (seq : Nat) s, p.db.shareRecords[seq]? = some s → s.owner ∈ p.db.owners
  logged : ∀ s ∈ p.log.entries, s.owner ∈ p.log.addresses
  address : ∀ (o : Bytes32) a, p.log.addresses[o]? = some a → p.db.owners[o]? = some (addrKey a)
  mined : ∀ (o : Bytes32) key, p.db.owners[o]? = some key →
    ∃ a ∈ miners, key = addrKey a ∧ ownerOf key = o
  pendingFirst : ∀ due ∈ p.pending, due.firstKept ≤ p.log.nextSeq ∧
    ∀ s ∈ p.log.entries, due.firstKept ≤ s.seq
  live : p.pending ≠ [] → ∀ o ∈ p.log.addresses, ∃ s ∈ p.log.entries, s.owner = o
  settled : p.Settles 0 Set.univ ∨ ∃ due ∈ p.pending, p.Settles due.firstKept due.owners

/-- Every share on disk has its owner's address there, and the log loads: to the one in memory,
once no prune is pending. -/
structure Kept (p : PoolStore) : Prop where
  owned : ∀ (seq : Nat) s, p.db.shareRecords[seq]? = some s → s.owner ∈ p.db.owners
  loads : ∃ log, ShareLog.load p.db = .ok log
  same : p.pending = [] → ShareLog.load p.db = .ok p.log

/-- A prune of the disk finds no share it keeps that is of an owner it forgets. -/
def Timely (p : PoolStore) : Event → Prop
  | .pruneDb i => ∀ due ∈ p.pending[i]?, ∀ (seq : Nat) s, p.db.shareRecords[seq]? = some s →
      due.firstKept ≤ seq → s.owner ∈ due.owners
  | _ => True

/-- Every step of a list of events is timely. -/
def AllTimely : PoolStore → List Event → Prop
  | _, [] => True
  | p, event :: events => p.Timely event ∧ ∀ next ∈ p.step event, AllTimely next events

theorem Consistent.length_key {p : PoolStore} (h : p.Consistent miners) (o : Bytes32) (key : Bytes)
    (ho : p.db.owners[o]? = some key) : key.length = 96 := by
  obtain ⟨a, -, rfl, -⟩ := h.mined o key ho
  exact length_addrKey a

theorem Consistent.loads {p : PoolStore} (h : p.Consistent miners) :
    ∃ log, ShareLog.load p.db = .ok log ∧ log.entries.Pairwise (·.seq < ·.seq) ∧
      log.nextSeq = ShareLog.nextAfter log.entries ∧
      (∀ (seq : Nat) s, p.db.shareRecords[seq]? = some s ↔ s ∈ log.entries ∧ s.seq = seq) ∧
      ∀ o : Bytes32, log.addresses[o]? = p.db.owners[o]?.map keyAddr := by
  have hsorted : (p.db.shareRecords.toList.map Prod.snd).Pairwise (·.seq < ·.seq) := by
    rw [List.pairwise_map]
    apply Std.ExtTreeMap.ordered_keys_toList.imp_of_mem
    intro a b ha hb hlt
    rw [h.numbered a.1 a.2 (Std.ExtTreeMap.mem_toList_iff_getElem?_eq_some.mp ha),
      h.numbered b.1 b.2 (Std.ExtTreeMap.mem_toList_iff_getElem?_eq_some.mp hb)]
    exact Nat.compare_eq_lt.mp hlt
  have hmem : ∀ (seq : Nat) s, p.db.shareRecords[seq]? = some s ↔
      s ∈ p.db.shareRecords.toList.map Prod.snd ∧ s.seq = seq := by
    intro seq s
    constructor
    · intro hs
      exact ⟨List.mem_map.mpr ⟨(seq, s), Std.ExtTreeMap.mem_toList_iff_getElem?_eq_some.mpr hs,
        rfl⟩, h.numbered seq s hs⟩
    · rintro ⟨hs, rfl⟩
      obtain ⟨⟨seq, s⟩, he, rfl⟩ := List.mem_map.mp hs
      have hget := Std.ExtTreeMap.mem_toList_iff_getElem?_eq_some.mp he
      rwa [← h.numbered seq s hget] at hget
  obtain ⟨addresses, hload, hread⟩ := ShareLog.load_eq h.length_key hsorted hmem
    fun s hs => h.owned s.seq s ((hmem s.seq s).mpr ⟨hs, rfl⟩)
  exact ⟨_, hload, hsorted, rfl, hmem, hread⟩

theorem Consistent.same {p : PoolStore} (h : p.Consistent miners) (hpending : p.pending = []) :
    ShareLog.load p.db = .ok p.log := by
  have hsettles : p.Settles 0 Set.univ := by
    rcases h.settled with hs | ⟨due, hdue, -⟩
    · exact hs
    · rw [hpending] at hdue
      exact nomatch hdue
  have hmem : ∀ (seq : Nat) s, p.db.shareRecords[seq]? = some s ↔
      s ∈ p.log.entries ∧ s.seq = seq := by
    intro seq s
    constructor
    · intro hs
      exact ⟨hsettles.shares seq s hs (Nat.zero_le _), h.numbered seq s hs⟩
    · rintro ⟨hs, rfl⟩
      exact h.stored s hs
  obtain ⟨addresses, hload, hread⟩ := ShareLog.load_eq h.length_key h.sorted hmem
    fun s hs => h.owned s.seq s (h.stored s hs)
  have haddresses : addresses = p.log.addresses := by
    apply Std.ExtTreeMap.ext_getElem?
    intro o
    rw [hread]
    cases ho : p.log.addresses[o]? with
    | some a => rw [h.address o a ho, Option.map_some, keyAddr_addrKey]
    | none =>
      have hnone : o ∉ p.db.owners := by
        intro hdisk
        obtain ⟨a, ha⟩ := OrderedMap.mem_iff_exists.mp
          (hsettles.owners o hdisk (Set.mem_univ o))
        rw [ho] at ha
        cases ha
      rw [Std.ExtTreeMap.getElem?_eq_none hnone, Option.map_none]
  rw [hload, haddresses, ← h.nextSeq]

theorem Consistent.kept {p : PoolStore} (h : p.Consistent miners) : p.Kept where
  owned := h.owned
  loads := h.loads.imp fun _ hload => hload.1
  same := h.same

theorem consistent_fresh (miners : Set StealthAddress) : fresh.Consistent miners where
  sorted := List.Pairwise.nil
  nextSeq := rfl
  stored := fun _ h => nomatch h
  numbered := fun seq s h => by simp [fresh] at h
  owned := fun seq s h => by simp [fresh] at h
  logged := fun _ h => nomatch h
  address := fun o a h => by simp [fresh, ShareLog.empty] at h
  mined := fun o key h => by simp [fresh] at h
  pendingFirst := fun _ h => nomatch h
  live := fun h => absurd rfl h
  settled := .inl ⟨fun seq s h => by simp [fresh] at h, fun o h => by simp [fresh] at h⟩

/-- Miners whose owner ids tell them apart. -/
def DistinctOwners (miners : Set StealthAddress) : Prop :=
  Set.InjOn (fun miner => ownerOf (addrKey miner)) miners

/-- The owners on disk once a miner is credited. -/
def ownersWith (p : PoolStore) (miner : StealthAddress) : Std.ExtTreeMap Bytes32 Bytes :=
  if ownerOf (addrKey miner) ∈ p.log.addresses then p.db.owners
  else p.db.owners.insert (ownerOf (addrKey miner)) (addrKey miner)

theorem Consistent.ownersWith_eq_some {p : PoolStore} (h : p.Consistent miners)
    (hinj : DistinctOwners miners) {miner : StealthAddress} (hm : miner ∈ miners) {o : Bytes32}
    {key : Bytes} : (p.ownersWith miner)[o]? = some key ↔
      ownerOf (addrKey miner) = o ∧ addrKey miner = key ∨
        ownerOf (addrKey miner) ≠ o ∧ p.db.owners[o]? = some key := by
  unfold ownersWith
  split
  · rename_i hknown
    obtain ⟨a, ha⟩ := OrderedMap.mem_iff_exists.mp hknown
    have hdisk := h.address _ a ha
    obtain ⟨b, hb, hab, howner⟩ := h.mined _ _ hdisk
    rw [hab] at howner hdisk
    obtain rfl : b = miner := hinj hb hm howner
    by_cases ho : ownerOf (addrKey b) = o
    · subst ho
      simp [hdisk]
    · simp [ho]
  · exact OrderedMap.getElem?_insert_eq_some

theorem Consistent.mem_ownersWith {p : PoolStore} (h : p.Consistent miners)
    (hinj : DistinctOwners miners) {miner : StealthAddress} (hm : miner ∈ miners) {o : Bytes32} :
    o ∈ p.ownersWith miner ↔ ownerOf (addrKey miner) = o ∨ o ∈ p.db.owners := by
  simp only [OrderedMap.mem_iff_exists, h.ownersWith_eq_some hinj hm]
  constructor
  · rintro ⟨key, ⟨ho, -⟩ | ⟨-, hkey⟩⟩
    · exact .inl ho
    · exact .inr ⟨key, hkey⟩
  · intro ho
    by_cases hself : ownerOf (addrKey miner) = o
    · exact ⟨_, .inl ⟨hself, rfl⟩⟩
    · obtain ⟨key, hkey⟩ := ho.resolve_left hself
      exact ⟨key, .inr ⟨hself, hkey⟩⟩

omit [Primitives] in
theorem mem_insert_iff {t : Std.ExtTreeMap Bytes32 StealthAddress} {o k : Bytes32} :
    o ∈ t.insert k a ↔ k = o ∨ o ∈ t := by
  rw [Std.ExtTreeMap.mem_insert, Std.LawfulEqCmp.compare_eq_iff_eq]

omit [Primitives] in
theorem Settles.credit {p next : PoolStore} {share : ShareRecord} {known : Set Bytes32}
    (h : p.Settles first known)
    (hshares : next.db.shareRecords = p.db.shareRecords.insert share.seq share)
    (hentries : next.log.entries = p.log.entries ++ [share])
    (howners : ∀ o ∈ next.db.owners, share.owner = o ∨ o ∈ p.db.owners)
    (haddresses : next.log.addresses = p.log.addresses.insert share.owner miner) :
    next.Settles first known where
  shares seq s hs hfirst := by
    rw [hentries, List.mem_append, List.mem_singleton]
    rw [hshares] at hs
    rcases OrderedMap.getElem?_insert_eq_some.mp hs with ⟨-, rfl⟩ | ⟨-, hs⟩
    · exact .inr rfl
    · exact .inl (h.shares seq s hs hfirst)
  owners o ho ho' := by
    rw [haddresses, mem_insert_iff]
    exact (howners o ho).imp_right fun hdisk => h.owners o hdisk ho'

theorem Consistent.credit {p : PoolStore} (h : p.Consistent miners) (hinj : DistinctOwners miners)
    {miner : StealthAddress} (hm : miner ∈ miners) (share : ShareRecord)
    (hstep : p.step (.credit miner share) = some next) : next.Consistent miners := by
  cases hstep
  have hlt : ∀ s ∈ p.log.entries, s.seq < p.log.nextSeq := fun s hs => by
    rw [h.nextSeq]
    exact ShareLog.seq_lt_nextAfter h.sorted hs
  constructor
  case sorted =>
    apply List.pairwise_append.mpr ⟨h.sorted, List.pairwise_singleton _ _, ?_⟩
    intro s hs t ht
    rw [List.mem_singleton.mp ht]
    exact hlt s hs
  case nextSeq => simp [ShareLog.nextAfter]
  case stored =>
    intro s hs
    apply OrderedMap.getElem?_insert_eq_some.mpr
    rcases List.mem_append.mp hs with hs | hs
    · exact .inr ⟨(hlt s hs).ne', h.stored s hs⟩
    · rw [List.mem_singleton.mp hs]
      exact .inl ⟨rfl, rfl⟩
  case numbered =>
    intro seq s hs
    rcases OrderedMap.getElem?_insert_eq_some.mp hs with ⟨rfl, rfl⟩ | ⟨-, hs⟩
    · rfl
    · exact h.numbered seq s hs
  case owned =>
    intro seq s hs
    apply (h.mem_ownersWith hinj hm).mpr
    rcases OrderedMap.getElem?_insert_eq_some.mp hs with ⟨rfl, rfl⟩ | ⟨-, hs⟩
    · exact .inl rfl
    · exact .inr (h.owned seq s hs)
  case logged =>
    intro s hs
    apply mem_insert_iff.mpr
    rcases List.mem_append.mp hs with hs | hs
    · exact .inr (h.logged s hs)
    · rw [List.mem_singleton.mp hs]
      exact .inl rfl
  case address =>
    intro o a ha
    apply (h.ownersWith_eq_some hinj hm).mpr
    rcases OrderedMap.getElem?_insert_eq_some.mp ha with ⟨ho, rfl⟩ | ⟨hne, ha⟩
    · exact .inl ⟨ho, rfl⟩
    · exact .inr ⟨hne, h.address o a ha⟩
  case mined =>
    intro o key hkey
    rcases (h.ownersWith_eq_some hinj hm).mp hkey with ⟨ho, rfl⟩ | ⟨-, hkey⟩
    · exact ⟨miner, hm, rfl, ho⟩
    · exact h.mined o key hkey
  case pendingFirst =>
    intro due hdue
    obtain ⟨hnext, hentries⟩ := h.pendingFirst due hdue
    refine ⟨Nat.le_succ_of_le hnext, ?_⟩
    intro s hs
    rcases List.mem_append.mp hs with hs | hs
    · exact hentries s hs
    · rw [List.mem_singleton.mp hs]
      exact hnext
  case live =>
    intro hpending o ho
    rcases mem_insert_iff.mp ho with ho | ho
    · exact ⟨_, List.mem_append_right _ List.mem_cons_self, ho⟩
    · obtain ⟨s, hs, hso⟩ := h.live hpending o ho
      exact ⟨s, List.mem_append_left _ hs, hso⟩
  case settled =>
    rcases h.settled with hs | ⟨due, hdue, hs⟩
    · exact .inl (hs.credit rfl rfl (fun _ => (h.mem_ownersWith hinj hm).mp) rfl)
    · exact .inr ⟨due, hdue,
        hs.credit rfl rfl (fun _ => (h.mem_ownersWith hinj hm).mp) rfl⟩

theorem Consistent.job {p : PoolStore} (h : p.Consistent miners)
    (hstep : p.step (.job jobId height proof) = some next) : next.Consistent miners := by
  cases hstep
  exact ⟨h.sorted, h.nextSeq, h.stored, h.numbered, h.owned, h.logged, h.address, h.mined,
    h.pendingFirst, h.live, h.settled.imp (fun hs => ⟨hs.shares, hs.owners⟩)
      fun ⟨due, hdue, hs⟩ => ⟨due, hdue, hs.shares, hs.owners⟩⟩

/-- A prune in memory leaves the one on disk to settle the rest. -/
theorem Consistent.pruned {p : PoolStore} {left : ShareLog} (h : p.Consistent miners)
    (hp : ShareLog.Pruned p.log left first known) (job : Nat) :
    Consistent miners ⟨p.db, left, p.pending ++ [⟨first, job, known⟩]⟩ where
  sorted := hp.sorted
  nextSeq := hp.nextSeq.trans (h.nextSeq.trans hp.nextAfter.symm)
  stored s hs := h.stored s ((hp.mem_entries s).mp hs).1
  numbered := h.numbered
  owned := h.owned
  logged s hs := by
    obtain ⟨a, ha⟩ := OrderedMap.mem_iff_exists.mp (h.logged s ((hp.mem_entries s).mp hs).1)
    rw [OrderedMap.mem_iff_exists, hp.addresses]
    exact ⟨a, OrderedMap.getElem?_filter_eq_some.mpr
      ⟨ha, decide_eq_true ((hp.mem_owners _).mpr ⟨s, hs, rfl⟩)⟩⟩
  address o a ha := by
    rw [hp.addresses] at ha
    exact h.address o a (OrderedMap.getElem?_filter_eq_some.mp ha).1
  mined := h.mined
  pendingFirst due hdue := by
    rw [hp.nextSeq]
    rcases List.mem_append.mp hdue with hdue | hdue
    · obtain ⟨hnext, hentries⟩ := h.pendingFirst due hdue
      exact ⟨hnext, fun s hs => hentries s ((hp.mem_entries s).mp hs).1⟩
    · rw [List.mem_singleton.mp hdue]
      exact ⟨hp.first_le, fun s hs => ((hp.mem_entries s).mp hs).2⟩
  live _ o ho := by
    rw [OrderedMap.mem_iff_exists, hp.addresses] at ho
    obtain ⟨a, ha⟩ := ho
    exact (hp.mem_owners o).mp (of_decide_eq_true (OrderedMap.getElem?_filter_eq_some.mp ha).2)
  settled := by
    right
    refine ⟨_, List.mem_append_right _ List.mem_cons_self, ?_⟩
    constructor
    case shares =>
      intro seq s hs hfirst
      have hseq : s.seq = seq := h.numbered seq s hs
      have hlogged : s ∈ p.log.entries := by
        rcases h.settled with hold | ⟨due, hdue, hold⟩
        · exact hold.shares seq s hs (Nat.zero_le _)
        · obtain ⟨hnext, hentries⟩ := h.pendingFirst due hdue
          exact hold.shares seq s hs ((hp.le_first _ hnext hentries).trans hfirst)
      exact (hp.mem_entries s).mpr ⟨hlogged, hseq ▸ hfirst⟩
    case owners =>
      intro o _ ho
      obtain ⟨s, hs, rfl⟩ := (hp.mem_owners o).mp ho
      obtain ⟨a, ha⟩ := OrderedMap.mem_iff_exists.mp (h.logged s ((hp.mem_entries s).mp hs).1)
      rw [OrderedMap.mem_iff_exists, hp.addresses]
      exact ⟨a, OrderedMap.getElem?_filter_eq_some.mpr ⟨ha, decide_eq_true ho⟩⟩

theorem Consistent.prune {p : PoolStore} (h : p.Consistent miners)
    (hstep : p.step (.prune keepFrom target bits blocks recent jobId) = some next) :
    next.Consistent miners := by
  cases hstep
  have hkeep : 0 < satMul128 (windowSize target bits blocks) 4 := by
    have hsize := one_le_windowSize target bits blocks
    have hmax : 0 < u128Max := by decide
    unfold satMul128
    omega
  exact h.pruned (ShareLog.pruned h.sorted h.nextSeq hkeep keepFrom) _

theorem Consistent.pruneDb {p : PoolStore} (h : p.Consistent miners) (ht : p.Timely (.pruneDb i))
    (hstep : p.step (.pruneDb i) = some next) : next.Consistent miners := by
  obtain ⟨due, hdue, rfl⟩ := Option.map_eq_some_iff.mp hstep
  have hmem : due ∈ p.pending := List.mem_of_getElem? hdue
  have hkept := ht due hdue
  obtain ⟨hnext, hentries⟩ := h.pendingFirst due hmem
  constructor
  case sorted => exact h.sorted
  case nextSeq => exact h.nextSeq
  case stored =>
    intro s hs
    exact OrderedMap.getElem?_filter_eq_some.mpr ⟨h.stored s hs, decide_eq_true (hentries s hs)⟩
  case numbered =>
    intro seq s hs
    exact h.numbered seq s (OrderedMap.getElem?_filter_eq_some.mp hs).1
  case owned =>
    intro seq s hs
    obtain ⟨hs, hfirst⟩ := OrderedMap.getElem?_filter_eq_some.mp hs
    obtain ⟨key, hkey⟩ := OrderedMap.mem_iff_exists.mp (h.owned seq s hs)
    exact OrderedMap.mem_iff_exists.mpr ⟨key, OrderedMap.getElem?_filter_eq_some.mpr
      ⟨hkey, decide_eq_true (hkept seq s hs (of_decide_eq_true hfirst))⟩⟩
  case logged => exact h.logged
  case address =>
    intro o a ha
    obtain ⟨s, hs, rfl⟩ := h.live (List.ne_nil_of_mem hmem) o
      (OrderedMap.mem_iff_exists.mpr ⟨a, ha⟩)
    exact OrderedMap.getElem?_filter_eq_some.mpr ⟨h.address _ a ha,
      decide_eq_true (hkept s.seq s (h.stored s hs) (hentries s hs))⟩
  case mined =>
    intro o key hkey
    exact h.mined o key (OrderedMap.getElem?_filter_eq_some.mp hkey).1
  case pendingFirst =>
    intro other hother
    exact h.pendingFirst other (List.mem_of_mem_eraseIdx hother)
  case live =>
    intro hpending
    exact h.live fun hnil => hpending (by rw [hnil, List.eraseIdx_nil])
  case settled =>
    have hdisk : ∀ o ∈ p.db.owners.filter fun id _ => decide (id ∈ due.owners),
        o ∈ p.db.owners ∧ o ∈ due.owners := by
      intro o ho
      obtain ⟨key, hkey⟩ := OrderedMap.mem_iff_exists.mp ho
      obtain ⟨hkey, ho⟩ := OrderedMap.getElem?_filter_eq_some.mp hkey
      exact ⟨OrderedMap.mem_iff_exists.mpr ⟨key, hkey⟩, of_decide_eq_true ho⟩
    have hstill : ∀ {first known}, p.Settles first known →
        Settles ⟨Midwimble.pruneDb p.db due.firstKept due.firstJob due.owners, p.log,
          p.pending.eraseIdx i⟩ first known := by
      intro first known hs
      exact ⟨fun seq s hseq => hs.shares seq s (OrderedMap.getElem?_filter_eq_some.mp hseq).1,
        fun o ho => hs.owners o (hdisk o ho).1⟩
    rcases h.settled with hs | ⟨other, hother, hs⟩
    · exact .inl (hstill hs)
    · by_cases hrest : other ∈ p.pending.eraseIdx i
      · exact .inr ⟨other, hrest, hstill hs⟩
      · -- the prune made is the one that settles the rest
        obtain ⟨j, hj⟩ := List.mem_iff_getElem?.mp hother
        have hji : j = i := by
          by_contra hne
          exact hrest (List.mem_eraseIdx_iff_getElem?.mpr ⟨j, hne, hj⟩)
        rw [hji, hdue] at hj
        obtain rfl := Option.some.inj hj
        left
        constructor
        case shares =>
          intro seq s hseq _
          obtain ⟨hseq, hfirst⟩ := OrderedMap.getElem?_filter_eq_some.mp hseq
          exact hs.shares seq s hseq (of_decide_eq_true hfirst)
        case owners =>
          intro o ho _
          exact hs.owners o (hdisk o ho).1 (hdisk o ho).2

theorem Consistent.restart {p : PoolStore} (h : p.Consistent miners)
    (hstep : p.step .restart = some next) : next.Consistent miners := by
  obtain ⟨loaded, hload, hsorted, hnext, hmem, hread⟩ := h.loads
  rw [step, hload] at hstep
  cases hstep
  have haddress : ∀ (o : Bytes32) a, loaded.addresses[o]? = some a →
      p.db.owners[o]? = some (addrKey a) := by
    intro o a ha
    rw [hread, Option.map_eq_some_iff] at ha
    obtain ⟨key, hkey, rfl⟩ := ha
    obtain ⟨b, -, rfl, -⟩ := h.mined o key hkey
    rw [keyAddr_addrKey]
    exact hkey
  have hknown : ∀ o ∈ p.db.owners, o ∈ loaded.addresses := by
    intro o ho
    obtain ⟨key, hkey⟩ := OrderedMap.mem_iff_exists.mp ho
    exact OrderedMap.mem_iff_exists.mpr ⟨keyAddr key, by rw [hread, hkey, Option.map_some]⟩
  constructor
  case sorted => exact hsorted
  case nextSeq => exact hnext
  case stored => exact fun s hs => (hmem s.seq s).mpr ⟨hs, rfl⟩
  case numbered => exact h.numbered
  case owned => exact h.owned
  case logged =>
    intro s hs
    exact hknown _ (h.owned s.seq s ((hmem s.seq s).mpr ⟨hs, rfl⟩))
  case address => exact haddress
  case mined => exact h.mined
  case pendingFirst => exact fun _ hdue => nomatch hdue
  case live => exact fun hpending => absurd rfl hpending
  case settled => exact .inl ⟨fun seq s hs _ => ((hmem seq s).mp hs).1, fun o ho _ => hknown o ho⟩

/-- The miners credited over a list of events. -/
def credited (events : List Event) : Set StealthAddress :=
  {miner | ∃ share, Event.credit miner share ∈ events}

theorem Consistent.step {p : PoolStore} (h : p.Consistent miners) (hinj : DistinctOwners miners)
    (hm : credited [event] ⊆ miners) (ht : p.Timely event) (hstep : p.step event = some next) :
    next.Consistent miners := by
  cases event with
  | credit miner share => exact h.credit hinj (hm ⟨share, List.mem_cons_self⟩) share hstep
  | job jobId height proof => exact h.job hstep
  | prune keepFrom target bits blocks recent jobId => exact h.prune hstep
  | pruneDb i => exact h.pruneDb ht hstep
  | restart => exact h.restart hstep

omit [Primitives] in
theorem timely_pruneDb {p : PoolStore} (h : ∀ due ∈ p.pending[i]?,
    Kept ⟨Midwimble.pruneDb p.db due.firstKept due.firstJob due.owners, p.log,
      p.pending.eraseIdx i⟩) : p.Timely (.pruneDb i) := by
  intro due hdue seq s hs hfirst
  have howned := (h due hdue).owned seq s
    (OrderedMap.getElem?_filter_eq_some.mpr ⟨hs, decide_eq_true hfirst⟩)
  obtain ⟨key, hkey⟩ := OrderedMap.mem_iff_exists.mp howned
  exact of_decide_eq_true (OrderedMap.getElem?_filter_eq_some.mp hkey).2

theorem timely_of_kept {p : PoolStore} (h : ∀ next ∈ p.step event, next.Kept) : p.Timely event := by
  cases event with
  | pruneDb i =>
    apply timely_pruneDb
    intro due hdue
    apply h
    rw [step, Option.mem_def.mp hdue]
    rfl
  | _ => trivial

theorem Along.head {P : PoolStore → Prop} {p : PoolStore} (h : p.Along P events) : P p := by
  cases events with
  | nil => exact h
  | cons event events => exact h.1

theorem Consistent.along_iff {p : PoolStore} (h : p.Consistent miners)
    (hinj : DistinctOwners miners) (hm : credited events ⊆ miners) :
    p.Along Kept events ↔ p.AllTimely events := by
  induction events generalizing p with
  | nil => exact ⟨fun _ => trivial, fun _ => h.kept⟩
  | cons event events ih =>
    have hone : credited [event] ⊆ miners := by
      rintro miner ⟨share, hshare⟩
      exact hm ⟨share, List.mem_cons.mpr (.inl (List.mem_singleton.mp hshare))⟩
    have hrest : credited events ⊆ miners := by
      rintro miner ⟨share, hshare⟩
      exact hm ⟨share, List.mem_cons_of_mem _ hshare⟩
    constructor
    · rintro ⟨-, halong⟩
      have ht : p.Timely event := timely_of_kept fun next hnext => (halong next hnext).head
      exact ⟨ht, fun next hnext => (ih (h.step hinj hone ht hnext) hrest).mp (halong next hnext)⟩
    · rintro ⟨ht, hall⟩
      exact ⟨h.kept,
        fun next hnext => (ih (h.step hinj hone ht hnext) hrest).mpr (hall next hnext)⟩

omit [Primitives] in
def ownerPreimage (miner : StealthAddress) : Bytes :=
  domainPreimage (Bytes.ascii "midwimble.pool.owner.v1") [addrKey miner]

omit [Primitives] in
theorem ownerPreimage_inj (h : ownerPreimage a = ownerPreimage b) : a = b := by
  have hshort : ∀ a : StealthAddress,
      ∀ p ∈ [Bytes.ascii "midwimble.pool.owner.v1", addrKey a], p.length < 2 ^ 64 := by
    intro a
    simp only [List.mem_cons, List.not_mem_nil, or_false]
    rintro p (rfl | rfl)
    · decide
    · rw [length_addrKey]
      decide
  obtain ⟨-, hparts⟩ := domainPreimage_inj (hshort a) (hshort b) h
  rw [← keyAddr_addrKey a, (List.cons.inj hparts).1, keyAddr_addrKey]

theorem distinctOwners (hinj : Set.InjOn blake3 (ownerPreimage '' miners)) :
    DistinctOwners miners := by
  intro a ha b hb h
  exact ownerPreimage_inj (hinj (Set.mem_image_of_mem _ ha) (Set.mem_image_of_mem _ hb) h)

/-- In every run of a pool the share log on disk stays the one in memory if and only if every
prune of the disk is timely. -/
theorem share_log_kept {events : List Event}
    (hinj : Set.InjOn blake3 (ownerPreimage '' credited events)) :
    fresh.Along Kept events ↔ fresh.AllTimely events :=
  (consistent_fresh (credited events)).along_iff (distinctOwners hinj) subset_rfl

omit [Primitives] in
def someShare : ShareRecord := ⟨0, 0, 1, 0, 0, 0, none⟩

omit [Primitives] in
/-- Two miners are credited, the log is pruned in memory and then on disk, and the pool restarts. -/
def keptEvents : List Event :=
  [.credit ⟨0, 0, 0⟩ someShare, .credit ⟨1, 0, 0⟩ someShare, .prune 1 0 0 1 none 0, .pruneDb 0,
    .restart, .credit ⟨0, 0, 0⟩ someShare]

omit [Primitives] in
/-- A second miner is credited between a prune and its part on disk. -/
def lostEvents : List Event :=
  [.credit ⟨0, 0, 0⟩ someShare, .prune 1 0 0 1 none 0, .credit ⟨1, 0, 0⟩ someShare, .pruneDb 0]

omit [Primitives] in
/-- The hash tells the two miners apart. -/
theorem two_miners_apart {events : List Event}
    (htwo : ∀ miner ∈ credited events, miner = ⟨0, 0, 0⟩ ∨ miner = ⟨1, 0, 0⟩) :
    letI := Primitives.mixing
    Set.InjOn blake3 (ownerPreimage '' credited events) := by
  let := Primitives.mixing
  rintro _ ⟨a, ha, rfl⟩ _ ⟨b, hb, rfl⟩ h
  rcases htwo a ha with rfl | rfl <;> rcases htwo b hb with rfl | rfl
  · rfl
  · exact absurd h (by decide +kernel)
  · exact absurd h (by decide +kernel)
  · rfl

omit [Primitives] in
theorem share_log_kept_two :
    letI := Primitives.mixing
    (keptEvents.foldlM step fresh).map (fun p => p.log.entries.map ShareRecord.seq) =
        some [0, 1, 2] ∧
      fresh.Along Kept keptEvents := by
  let := Primitives.mixing
  have htwo : ∀ miner ∈ credited keptEvents, miner = ⟨0, 0, 0⟩ ∨ miner = ⟨1, 0, 0⟩ := by
    rintro miner ⟨share, hshare⟩
    simp only [keptEvents, List.mem_cons, List.not_mem_nil, or_false, Event.credit.injEq,
      reduceCtorEq, false_or] at hshare
    rcases hshare with h | h | h
    · exact .inl h.1
    · exact .inr h.1
    · exact .inl h.1
  have hkept := (share_log_kept (two_miners_apart htwo)).mpr ⟨trivial, fun _ hfirst =>
    ⟨trivial, fun _ hsecond => ⟨trivial, fun _ hprune => ⟨?_, fun _ _ => ⟨trivial, fun _ _ =>
      ⟨trivial, fun _ _ => trivial⟩⟩⟩⟩⟩⟩
  · exact ⟨by decide +kernel, hkept⟩
  · cases hfirst
    cases hsecond
    cases hprune
    intro due hdue seq s hs _
    cases hdue
    rcases OrderedMap.getElem?_insert_eq_some.mp hs with ⟨-, rfl⟩ | ⟨-, hs⟩
    · decide +kernel
    · rcases OrderedMap.getElem?_insert_eq_some.mp hs with ⟨-, rfl⟩ | ⟨-, hs⟩
      · decide +kernel
      · simp [fresh] at hs

omit [Primitives] in
/-- The second miner's share is left on disk without an address, under a hash that tells the two
miners apart. -/
theorem share_log_lost :
    letI := Primitives.mixing
    Set.InjOn blake3 (ownerPreimage '' credited lostEvents) ∧ ¬ fresh.Along Kept lostEvents := by
  let := Primitives.mixing
  constructor
  · refine two_miners_apart ?_
    rintro miner ⟨share, hshare⟩
    simp only [lostEvents, List.mem_cons, List.not_mem_nil, or_false, Event.credit.injEq,
      reduceCtorEq, false_or] at hshare
    exact hshare.imp And.left And.left
  · rintro ⟨-, h⟩
    obtain ⟨-, h⟩ := h _ rfl
    obtain ⟨-, h⟩ := h _ rfl
    obtain ⟨-, h⟩ := h _ rfl
    obtain ⟨log, hload⟩ := (h _ rfl).loads
    have hok := congrArg Except.isOk hload
    exact absurd (hok.trans rfl : _ = true) (by decide +kernel)

end PoolStore

end Midwimble
