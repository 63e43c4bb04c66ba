import Midwimble.Relay.Entries

namespace Midwimble
open Fallible Indexed
set_option autoImplicit true

/-- The links of a run, each with the hash it builds on. -/
def linksFrom : Bytes32 → List HeaderLink → List (Bytes32 × HeaderLink)
  | _, [] => []
  | prev, link :: rest => (prev, link) :: linksFrom link.finalHash rest

/-- What proof of work guarantees of relayed headers: one final hash, one header. -/
def NoClash (links : List (Bytes32 × HeaderLink)) : Prop :=
  ∀ x ∈ links, ∀ y ∈ links, x.2.finalHash = y.2.finalHash → x = y

theorem head?_append_cons (front : List RelayEntry) (e : RelayEntry) (rest rest' : List RelayEntry) :
    (front ++ e :: rest).head? = (front ++ e :: rest').head? := by
  cases front <;> rfl

variable [Primitives]

/-- An entry links to the one below it. -/
structure RelayEntry.Links (below e : RelayEntry) : Prop where
  height : e.height = below.height + 1
  prev : e.prev = below.hash
  chainWork : e.chainWork = satAdd128 below.chainWork e.work
  digest : e.digest = e.digestAfter below.digest

/-- An entry links to the one below it and, above the root's child, carries the target
midstate's difficulty rule gives it. -/
structure RelayEntry.Follows (below e : RelayEntry) : Prop extends below.Links e where
  target : below ≠ .root → e.work = calculateWork (midstateTarget e.height below.timestamp)

theorem follows_rises (h : es.IsChain RelayEntry.Follows) : Rises es :=
  h.imp fun _ _ hf => hf.height

theorem next_links (below : RelayEntry) (link : HeaderLink) (work : Nat) :
    below.Links (below.next link work) := ⟨rfl, rfl, rfl, rfl⟩

/-- The relay is the top of an unbroken chain from the root, within the window. -/
structure Relay.Shape (r : Relay) (full es : List RelayEntry) : Prop where
  holds : r.Holds es
  root : full.head? = some .root
  follows : full.IsChain RelayEntry.Follows
  window : es <:+ full
  nonempty : es ≠ []
  bounded : es.length ≤ relayWindow + 1

variable {r : Relay} {full es : List RelayEntry}

theorem Relay.Shape.rises (h : r.Shape full es) : Rises es :=
  follows_rises (h.follows.suffix h.window)

theorem Relay.Shape.values (h : r.Shape full es) : r.values = es := h.holds.values h.rises

theorem shape_genesis : Relay.genesis.Shape [.root] [.root] where
  holds := Keyed.insert keyed_empty (by simp)
  root := rfl
  follows := .singleton _
  window := List.suffix_refl _
  nonempty := by simp
  bounded := by simp

theorem tags_genesis : Relay.genesis.Tags [.root] := Tagged.insert tagged_empty (by simp)

/-- The entries the links of a run make, each on the one before. -/
def nextRun : RelayEntry → List HeaderLink → List RelayEntry
  | _, [] => []
  | last, link :: rest =>
    last.next link (calculateWork link.target) ::
      nextRun (last.next link (calculateWork link.target)) rest

theorem nextRun_links (last : RelayEntry) (links : List HeaderLink) :
    (nextRun last links).map (fun e => (e.prev, e.hash)) =
      (linksFrom last.hash links).map fun p => (p.1, p.2.finalHash) := by
  induction links generalizing last with
  | nil => rfl
  | cons link rest ih =>
    rw [nextRun, linksFrom, List.map_cons, List.map_cons, ih]
    rfl

theorem length_nextRun (last : RelayEntry) (links : List HeaderLink) :
    (nextRun last links).length = links.length := by
  induction links generalizing last with
  | nil => rfl
  | cons link rest ih => rw [nextRun, List.length_cons, ih, List.length_cons]

theorem linkRun_spec (h : Relay.linkRun r baseHeight latest i last links = .ok added) :
    (last :: added).IsChain RelayEntry.Follows ∧ added = nextRun last links ∧
      ∀ e ∈ added, ∀ k, r.heights[e.hash]? = some k → baseHeight < k := by
  induction links generalizing i last added with
  | nil =>
    simp only [Relay.linkRun, Except.ok.injEq] at h
    subst h
    exact ⟨.singleton _, rfl, by simp⟩
  | cons link rest ih =>
    simp only [Relay.linkRun, bind_eq_ok, bailIf_eq_ok, Except.ok.injEq] at h
    obtain ⟨_, hlow, _, hlate, _, htarget, _, hknown, more, hmore, rfl⟩ := h
    obtain ⟨hchain, hlinks, hfresh⟩ := ih hmore
    refine ⟨.cons_cons ⟨next_links _ _ _, ?_⟩ hchain, ?_, ?_⟩
    · intro hroot
      have ht : link.target = midstateTarget (last.height + 1) last.timestamp := by
        by_contra hne
        exact htarget ⟨by simpa [RelayEntry.isRoot] using hroot, hne⟩
      exact congrArg calculateWork ht
    · rw [nextRun, hlinks]
    · intro e he k hk
      rcases List.mem_cons.mp he with rfl | he
      · rw [hk] at hknown
        simpa using hknown
      · exact hfresh e he k hk

theorem checkRun_ok (h : Relay.checkRun r relayed blockTimestamp = .ok (base, added)) :
    relayed.headers.length ≠ 0 ∧ relayed.headers.length ≤ maxRelayHeadersPerBlock ∧
      r.byHash relayed.prev = some base ∧
      r.linkRun base.height (satAdd64 blockTimestamp relayMaxFuture) 0 base
        relayed.headers = .ok added := by
  simp only [Relay.checkRun, bind_eq_ok, bailIf_eq_ok, orBail_eq_ok] at h
  obtain ⟨_, hmin, _, hmax, b, hb, h⟩ := h
  split at h
  · simp only [bind_eq_ok, bailIf_eq_ok, Except.ok.injEq, Prod.mk.injEq] at h
    obtain ⟨_, -, _, -, a, ha, _, -, rfl, rfl⟩ := h
    exact ⟨hmin, Nat.le_of_not_gt hmax, hb, ha⟩
  · simp only [bind_eq_ok, bailIf_eq_ok, Except.ok.injEq, Prod.mk.injEq] at h
    obtain ⟨a, ha, _, -, rfl, rfl⟩ := h
    exact ⟨hmin, Nat.le_of_not_gt hmax, hb, ha⟩

theorem extend_ok (h : Relay.extend r relayed blockTimestamp = (.ok change, r')) :
    ∃ base added, r.checkRun relayed blockTimestamp = .ok (base, added) ∧
      r.replaceAbove base added = (change, r') := by
  unfold Relay.extend at h
  cases hc : r.checkRun relayed blockTimestamp with
  | error e => simp [hc] at h
  | ok p =>
    simp only [hc, Prod.mk.injEq, Except.ok.injEq] at h
    exact ⟨p.1, p.2, rfl, Prod.ext h.1 h.2⟩

theorem extend_error (h : Relay.extend r relayed blockTimestamp = (.error e, r')) : r' = r := by
  unfold Relay.extend at h
  cases hc : r.checkRun relayed blockTimestamp with
  | error e =>
    simp only [hc, Prod.mk.injEq] at h
    exact h.2.symm
  | ok p => simp [hc] at h

/-- Where a run attaches and what it makes of the relay. -/
structure Relay.Extended (r : Relay) (relayed : RelayHeaders) (full es : List RelayEntry)
    (change : RelayChange) (r' : Relay) where
  below : List RelayEntry
  stale : List RelayEntry
  kept : List RelayEntry
  base : RelayEntry
  replaced : List RelayEntry
  entries : es = stale ++ kept ++ base :: replaced
  chain : full = below ++ es
  attaches : r.byHash relayed.prev = some base
  added : change.added ≠ []
  few : change.added.length ≤ maxRelayHeadersPerBlock
  removed : change.removed = replaced ++ stale
  fork : change.forkFrom = if replaced.isEmpty then none else some base.height
  run : change.added = nextRun base relayed.headers
  fresh : ∀ e ∈ change.added, ∀ k, r.heights[e.hash]? = some k → base.height < k
  shape : r'.Shape (below ++ stale ++ kept ++ base :: change.added)
    (kept ++ base :: change.added)
  tags : r.Tags es → ((stale ++ kept ++ base :: change.added).map RelayEntry.hash).Nodup →
    r'.Tags (kept ++ base :: change.added)

/-- A successful extension keeps the relay's shape. -/
theorem Relay.Shape.extend (h : r.Shape full es)
    (hext : r.extend relayed blockTimestamp = (.ok change, r')) :
    Nonempty (r.Extended relayed full es change r') := by
  obtain ⟨base, added, hrun, hreplace⟩ := extend_ok hext
  obtain ⟨hmin, hmax, hbase, hlinkrun⟩ := checkRun_ok hrun
  obtain ⟨hchain, hlinks, hfresh⟩ := linkRun_spec hlinkrun
  have hlen : added.length = relayed.headers.length := by
    rw [hlinks, length_nextRun]
  obtain ⟨k, -, hk⟩ := Option.bind_eq_some_iff.mp hbase
  obtain ⟨lo, replaced, hes⟩ := List.append_of_mem ((h.holds k base).mp hk).1
  obtain ⟨below, hfull⟩ := h.window
  have hrises := h.rises
  have hholds := h.holds
  rw [hes] at hrises hholds
  obtain ⟨stale, kept, hlo, hchange, hkept, hbound, htags⟩ :=
    hholds.replaceAbove hrises (follows_rises hchain) (by
      have hfits : maxRelayHeadersPerBlock ≤ relayWindow := by decide
      omega)
  rw [hreplace] at hchange hkept htags
  subst hchange
  have hfollows := h.follows
  rw [← hfull, hes, ← List.append_assoc, List.isChain_split] at hfollows
  refine ⟨⟨below, stale, kept, base, replaced, by rw [hes, hlo], hfull.symm, hbase, ?_, ?_, rfl,
    rfl, hlinks, hfresh, ⟨hkept, ?_, ?_, ?_, by simp, hbound⟩, ?_⟩⟩
  · intro hnil
    have hnil : added = [] := hnil
    rw [hnil] at hlen
    exact hmin hlen.symm
  · exact hlen.trans_le hmax
  · have hroot := h.root
    rw [← hfull, hes, hlo, ← List.append_assoc, ← List.append_assoc] at hroot
    rw [← hroot]
    exact head?_append_cons _ _ _ _
  · have hjoined := List.isChain_split.mpr ⟨hfollows.1, hchain⟩
    rw [hlo] at hjoined
    simpa using hjoined
  · exact ⟨below ++ stale, by simp⟩
  · rw [hes]
    simpa only [hlo] using htags

section Extended

variable {r' : Relay} {change : RelayChange}

theorem Relay.Extended.full_eq (x : r.Extended relayed full es change r') :
    full = x.below ++ x.stale ++ x.kept ++ x.base :: x.replaced := by
  have h := x.chain.trans (congrArg (x.below ++ ·) x.entries)
  simpa using h

theorem Relay.Extended.rises (x : r.Extended relayed full es change r') (hs : r.Shape full es) :
    Rises (x.below ++ x.stale ++ x.kept ++ x.base :: x.replaced) := by
  rw [← x.full_eq]
  exact follows_rises hs.follows

end Extended

end Midwimble
