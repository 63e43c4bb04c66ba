import Mathlib.Data.Set.Function
import Midwimble.Core.Snapshot
import Midwimble.Identity.Preimages
import Midwimble.Relay.Invariant

namespace Midwimble
open Fallible Indexed
set_option autoImplicit true

/-- An entry's fields fit their types. -/
structure RelayEntry.Fits (e : RelayEntry) : Prop where
  height : e.height < 2 ^ 64
  timestamp : e.timestamp < 2 ^ 64
  work : e.work < 2 ^ 128
  chainWork : e.chainWork < 2 ^ 128

/-- What the root's digest hashes. -/
def rootPreimage : Bytes :=
  domainPreimage (Bytes.ascii "midwimble.relay-root.v1")
    [midstateBlockHash.toBytes, Bytes.le 8 midstateBlockHeight]

namespace RelayEntry

def digestPreimage (e : RelayEntry) (prevDigest : Bytes32) : Bytes :=
  domainPreimage (Bytes.ascii "midwimble.relay-entry.v1") (e.digestParts prevDigest)

theorem digestParts_short (e : RelayEntry) (prevDigest : Bytes32) :
    ∀ p ∈ Bytes.ascii "midwimble.relay-entry.v1" :: e.digestParts prevDigest,
      p.length < 2 ^ 64 := by
  simp only [digestParts, List.mem_cons, List.not_mem_nil, or_false]
  rintro p (rfl | rfl | rfl | rfl | rfl | rfl | rfl | rfl | rfl) <;> simp
  decide

theorem digestPreimage_inj {e e' : RelayEntry} (hf : e.Fits) (hf' : e'.Fits)
    (h : e.digestPreimage d = e'.digestPreimage d') :
    d = d' ∧ e.height = e'.height ∧ e.hash = e'.hash ∧ e.prev = e'.prev ∧
      e.stateRoot = e'.stateRoot ∧ e.timestamp = e'.timestamp ∧ e.work = e'.work ∧
      e.chainWork = e'.chainWork := by
  have hparts := (domainPreimage_inj (digestParts_short e d) (digestParts_short e' d') h).2
  simp only [digestParts, List.cons.injEq, and_true] at hparts
  obtain ⟨hd, hh, hx, hp, hs, ht, hw, hc⟩ := hparts
  exact ⟨toBytes_inj hd, Bytes.le_inj hf.height hf'.height hh, toBytes_inj hx, toBytes_inj hp,
    toBytes_inj hs, Bytes.le_inj hf.timestamp hf'.timestamp ht,
    Bytes.le_inj hf.work hf'.work hw, Bytes.le_inj hf.chainWork hf'.chainWork hc⟩

theorem digestPreimage_ne_root (e : RelayEntry) (d : Bytes32) :
    e.digestPreimage d ≠ rootPreimage := by
  intro h
  have hd := (domainPreimage_inj (digestParts_short e d) (by
    simp only [List.mem_cons, List.not_mem_nil, or_false]
    rintro p (rfl | rfl | rfl) <;> simp
    decide) h).1
  exact absurd hd (by decide)

end RelayEntry

section Bound

variable [Primitives]

namespace RelayEntry

/-- An entry that links to the one below it, in a place where hashes do not collide. -/
structure Authentic (hashed : Set Bytes) (below e : RelayEntry) : Prop extends
    below.Links e where
  fits : e.Fits
  mem : e.digestPreimage below.digest ∈ hashed

theorem Authentic.inj {hashed : Set Bytes} (hinj : Set.InjOn blake3 hashed)
    (h : Authentic hashed below e) (h' : Authentic hashed below' e')
    (hd : e.digest = e'.digest) : e = e' ∧ below.digest = below'.digest := by
  have hpre : e.digestPreimage below.digest = e'.digestPreimage below'.digest := by
    apply hinj h.mem h'.mem
    have hdd := hd
    rw [h.digest, h'.digest] at hdd
    exact hdd
  obtain ⟨hb, h1, h2, h3, h4, h5, h6, h7⟩ := digestPreimage_inj h.fits h'.fits hpre
  refine ⟨?_, hb⟩
  cases e
  cases e'
  simp_all

end RelayEntry

open RelayEntry

/-- An entry whose digest was hashed, or the root. -/
def Anchored (hashed : Set Bytes) (f : RelayEntry) : Prop :=
  (f = .root ∧ rootPreimage ∈ hashed) ∨ ∃ below, Authentic hashed below f

theorem Anchored.digest_ne {hashed : Set Bytes} (hinj : Set.InjOn blake3 hashed)
    (hf : Anchored hashed f) (h : Authentic hashed below e) (hlt : f.height < e.height) :
    e.digest ≠ f.digest := by
  intro hd
  rcases hf with ⟨rfl, hroot⟩ | ⟨below', hf⟩
  · refine digestPreimage_ne_root e below.digest (hinj h.mem hroot ?_)
    rw [h.digest] at hd
    exact hd
  · have he := (h.inj hinj hf hd).1
    rw [he] at hlt
    exact absurd hlt (Nat.lt_irrefl _)

theorem authentic_rises {hashed : Set Bytes} (h : es.IsChain (Authentic hashed)) : Rises es :=
  h.imp fun _ _ ha => ha.height

/-- Two chains from one anchored entry to one digest are one chain. -/
theorem authentic_unique {hashed : Set Bytes} (hinj : Set.InjOn blake3 hashed)
    (hf : Anchored hashed f) {a b : List RelayEntry} (ha : (f :: a).IsChain (Authentic hashed))
    (hb : (f :: b).IsChain (Authentic hashed))
    (hd : ((f :: a).getLast (List.cons_ne_nil _ _)).digest =
      ((f :: b).getLast (List.cons_ne_nil _ _)).digest) : a = b := by
  have hlast : ∀ {c : List RelayEntry} {e}, (f :: (c ++ [e])).IsChain (Authentic hashed) →
      (f :: c).IsChain (Authentic hashed) ∧
        Authentic hashed ((f :: c).getLast (List.cons_ne_nil _ _)) e ∧ f.height < e.height := by
    intro c e hc
    rw [← List.cons_append] at hc
    have hsplit := List.isChain_append.mp hc
    refine ⟨hsplit.1, hsplit.2.2 _ (List.getLast?_eq_some_getLast _) e rfl, ?_⟩
    exact (List.pairwise_cons.mp (authentic_rises hc).pairwise).1 e (by simp)
  induction a using List.reverseRecOn generalizing b with
  | nil =>
    induction b using List.reverseRecOn with
    | nil => rfl
    | append_singleton b e _ =>
      obtain ⟨-, he, hlt⟩ := hlast hb
      refine absurd ?_ (hf.digest_ne hinj he hlt)
      simpa using hd.symm
  | append_singleton a e ih =>
    obtain ⟨ha', he, hlt⟩ := hlast ha
    induction b using List.reverseRecOn with
    | nil =>
      refine absurd ?_ (hf.digest_ne hinj he hlt)
      simpa using hd
    | append_singleton b e' _ =>
      obtain ⟨hb', he', -⟩ := hlast hb
      have hdd : e.digest = e'.digest := by simpa using hd
      obtain ⟨hee, hbelow⟩ := he.inj hinj he' hdd
      rw [ih ha' hb' hbelow, hee]

/-- The digest preimages of a chain of entries, its first aside. -/
def entriesHashed (es : List RelayEntry) : List Bytes :=
  (es.zip es.tail).map fun p => p.2.digestPreimage p.1.digest

/-- The digest preimages a call of `extend` hashes. -/
def RelayCall.hashed (c : RelayCall) : List Bytes :=
  match c.relay.byHash c.relayed.prev with
  | none => []
  | some base => entriesHashed (base :: nextRun base c.relayed.headers)

/-- Every digest preimage genesis and the calls on it hash. -/
def runHashed (calls : List RelayCall) : List Bytes :=
  rootPreimage :: calls.flatMap RelayCall.hashed

theorem authentic_of_hashed {hashed : Set Bytes} (hl : es.IsChain RelayEntry.Links)
    (hf : ∀ e ∈ es.tail, e.Fits) (hs : ∀ x ∈ entriesHashed es, x ∈ hashed) :
    es.IsChain (Authentic hashed) := by
  induction es with
  | nil => exact .nil
  | cons below es ih =>
    cases es with
    | nil => exact .singleton below
    | cons e es =>
      obtain ⟨hlink, hrest⟩ := List.isChain_cons_cons.mp hl
      refine .cons_cons ⟨hlink, hf e List.mem_cons_self, hs _ List.mem_cons_self⟩ ?_
      exact ih hrest (fun x hx => hf x (List.mem_cons_of_mem _ hx))
        fun x hx => hs x (List.mem_cons_of_mem _ hx)

/-- A step of a chain that `extend` added. -/
structure Made (calls : List RelayCall) (below e : RelayEntry) : Prop where
  hashed : e.digestPreimage below.digest ∈ runHashed calls
  timestamp : e.timestamp < 2 ^ 64
  work : e.work < 2 ^ 128

theorem nextRun_made {last : RelayEntry} {links : List HeaderLink}
    (ht : ∀ l ∈ links, l.timestamp < 2 ^ 64)
    (hs : ∀ x ∈ entriesHashed (last :: nextRun last links), x ∈ runHashed calls) :
    (last :: nextRun last links).IsChain (Made calls) := by
  induction links generalizing last with
  | nil => exact .singleton last
  | cons link rest ih =>
    refine .cons_cons ⟨hs _ List.mem_cons_self, ht link List.mem_cons_self, ?_⟩ ?_
    · have hw := calculateWork_le link.target
      simp only [u128Max] at hw
      simp only [RelayEntry.next]
      omega
    · exact ih (fun l hl => ht l (List.mem_cons_of_mem _ hl))
        fun x hx => hs x (List.mem_cons_of_mem _ hx)

theorem Made.mono (hsub : ∀ x ∈ runHashed calls, x ∈ runHashed calls')
    (h : Made calls below e) : Made calls' below e := ⟨hsub _ h.hashed, h.timestamp, h.work⟩

theorem RelayRun.history (h : RelayRun calls r)
    (ht : ∀ c ∈ calls, ∀ l ∈ c.relayed.headers, l.timestamp < 2 ^ 64) :
    ∃ full es, r.Shape full es ∧ full.IsChain (Made calls) := by
  induction h with
  | genesis => exact ⟨_, _, shape_genesis, .singleton _⟩
  | @extend calls r relayed blockTimestamp change r' _ hext ih =>
    obtain ⟨full, es, hs, hm⟩ := ih fun c hc => ht c (List.mem_append_left _ hc)
    obtain ⟨x⟩ := hs.extend hext
    have hold : ∀ y ∈ runHashed calls, y ∈ runHashed (calls ++ [⟨r, relayed⟩]) := by
      intro y hy
      simp only [runHashed, List.flatMap_append, List.mem_cons, List.mem_append] at hy ⊢
      tauto
    have hnew : (x.base :: change.added).IsChain (Made (calls ++ [⟨r, relayed⟩])) := by
      rw [x.run]
      apply nextRun_made
      · exact ht ⟨r, relayed⟩ (by simp)
      · intro y hy
        simp only [runHashed, List.flatMap_append, List.mem_cons, List.mem_append,
          List.flatMap_cons, List.flatMap_nil, List.append_nil, RelayCall.hashed, x.attaches]
        exact .inr (.inr hy)
    have hm' := hm
    rw [x.full_eq, List.isChain_split] at hm'
    exact ⟨_, _, x.shape,
      List.isChain_split.mpr ⟨hm'.1.imp fun _ _ => Made.mono hold, hnew⟩⟩

/-- The entries of a run's relay are an authentic chain on an anchored entry. -/
theorem RelayRun.authentic (h : RelayRun calls r)
    (ht : ∀ c ∈ calls, ∀ l ∈ c.relayed.headers, l.timestamp < 2 ^ 64)
    (htip : r.tip.height < 2 ^ 64) {hashed : Set Bytes}
    (hsub : ∀ x ∈ runHashed calls, x ∈ hashed) :
    ∃ f es, r.Holds (f :: es) ∧ r.values = f :: es ∧ (f :: es).IsChain (Authentic hashed) ∧
      Anchored hashed f := by
  obtain ⟨full, es, hs, hm⟩ := h.history ht
  obtain ⟨below, hfull⟩ := hs.window
  have hrises := follows_rises hs.follows
  have htop : r.tip = full.getLast (hs.window.ne_nil hs.nonempty) := by
    rw [hs.holds.tip hs.rises hs.nonempty]
    exact hs.window.getLast hs.nonempty
  have hheight : ∀ e ∈ full, e.height < 2 ^ 64 := by
    intro e he
    obtain ⟨front, back, hsplit⟩ := List.append_of_mem he
    have hrise : Rises (front ++ e :: back) := hsplit ▸ hrises
    have hback : Rises (e :: back) := List.IsChain.right_of_append hrise
    have hlast : r.tip.height = e.height + back.length := by
      rw [htop, ← hback.getLast_height]
      simp only [hsplit]
      rw [List.getLast_append_of_ne_nil _ (List.cons_ne_nil e back)]
    omega
  have hauth : full.IsChain (Authentic hashed) := by
    have hfollows := List.isChain_iff_getElem.mp hs.follows
    have hmade := List.isChain_iff_getElem.mp hm
    refine List.isChain_iff_getElem.mpr fun i hi => ?_
    have hf := hfollows i hi
    have hd := hmade i hi
    exact ⟨hf.toLinks, ⟨hheight _ (List.getElem_mem _), hd.timestamp, hd.work,
      hf.chainWork ▸ satAdd128_lt _ _⟩, hsub _ hd.hashed⟩
  cases es with
  | nil => exact absurd rfl hs.nonempty
  | cons f es =>
    refine ⟨f, es, hs.holds, hs.values, hauth.suffix hs.window, ?_⟩
    cases below using List.reverseRecOn with
    | nil =>
      have hroot := hs.root
      rw [← hfull] at hroot
      exact .inl ⟨by simpa using hroot, hsub _ List.mem_cons_self⟩
    | append_singleton front below _ =>
      rw [← hfull, List.append_assoc] at hauth
      exact .inr ⟨below, (List.isChain_append_cons_cons.mp hauth).2.1⟩

theorem Snapshot.verify_relay {snapshot : Snapshot}
    (h : snapshot.verify trustedId = .ok state) :
    Relay.fromEntries snapshot.relay = .ok state.relay ∧
      state.relay.commitment = snapshot.parts.relayRoot := by
  simp only [Snapshot.verify, bind_eq_ok, Prod.exists] at h
  obtain ⟨_, -, tip, -, _, -, _, -, _, -, utxos, utxoSet, -, kernels, -, _, -, mmr, -, _, -,
    bonds, relay, hrelay, _, -, _, -, _, -, hstate⟩ := h
  simp only [Snapshot.bondsAndRelay, bind_eq_ok, bailIf_eq_ok, Except.ok.injEq, Prod.mk.injEq,
    not_not, ne_eq] at hrelay
  obtain ⟨_, -, rebuilt, hok, _, hroot, -, rfl⟩ := hrelay
  rw [← Except.ok.inj hstate]
  exact ⟨hok, hroot⟩

/-- What a relay's commitment binds: entries that rebuild a relay with the commitment of one reached
from genesis are its entries exactly when they start with its lowest one. -/
theorem relay_bound_by_base (h : RelayRun calls R)
    (hlinks : ∀ c ∈ calls, ∀ l ∈ c.relayed.headers, l.timestamp < 2 ^ 64)
    (htip : R.tip.height < 2 ^ 64) (hes : ∀ e ∈ es, e.Fits)
    (hinj : Set.InjOn blake3 {x | x ∈ runHashed calls ∨ x ∈ entriesHashed es}) :
    (∀ r, Relay.fromEntries es = .ok r → r.commitment = R.commitment →
      (es = R.values ∧ r.entries = R.entries ↔ es.head? = some R.base) ∧
      (NoClash (relayedLinks calls) → (r = R ↔ es.head? = some R.base))) ∧
    ∀ snapshot trustedId state, Snapshot.verify snapshot trustedId = .ok state →
      snapshot.relay = es → snapshot.parts.relayRoot = R.commitment →
      (state.relay.entries = R.entries ↔ es.head? = some R.base) := by
  have hsub : ∀ x ∈ runHashed calls,
      x ∈ {x | x ∈ runHashed calls ∨ x ∈ entriesHashed es} := fun x hx => .inl hx
  obtain ⟨f, rest, hholds, hvalues, hchain, hanchored⟩ := h.authentic hlinks htip hsub
  have hrises := authentic_rises hchain
  have hbase : R.base = f := hholds.base_eq hrises
  have hmain : ∀ r, Relay.fromEntries es = .ok r → r.commitment = R.commitment →
      (es = R.values ∧ r.entries = R.entries ↔ es.head? = some R.base) := by
    intro r hr hc
    obtain ⟨hne, -, hl, -, -⟩ := fromEntries_eq_ok.mp hr
    have hes' : es.IsChain (Authentic {x | x ∈ runHashed calls ∨ x ∈ entriesHashed es}) :=
      authentic_of_hashed hl (fun e he => hes e (List.mem_of_mem_tail he)) fun x hx => .inr hx
    obtain ⟨hrh, -⟩ := fromEntries_holds hr
    rw [hvalues, hbase]
    constructor
    · rintro ⟨rfl, -⟩
      rfl
    · intro hhead
      obtain ⟨a, rfl⟩ := List.head?_eq_some_iff.mp hhead
      rw [Relay.commitment, Relay.commitment, hrh.tip (links_rises hl) hne,
        hholds.tip hrises (List.cons_ne_nil _ _)] at hc
      rw [authentic_unique hinj hanchored hes' hchain hc] at hrh ⊢
      exact ⟨rfl, Keyed.unique hrh hholds⟩
  refine ⟨fun r hr hc => ⟨hmain r hr hc, fun hn => ?_⟩, ?_⟩
  · obtain ⟨_, es', hs, ht⟩ := h.shape hn
    rw [← hmain r hr hc]
    constructor
    · rintro rfl
      exact ⟨((fromEntries_holds hr).1.values
        (links_rises (fromEntries_eq_ok.mp hr).2.2.1)).symm, rfl⟩
    · rintro ⟨hv, -⟩
      rw [hs.values] at hv
      obtain ⟨hh, ht'⟩ := fromEntries_holds hr
      rw [hv] at hh ht'
      exact hh.eq hs.holds ht' ht
  · rintro snapshot trustedId state hv rfl hroot
    obtain ⟨hr, hc⟩ := Snapshot.verify_relay hv
    rw [← hmain _ hr (hc.trans hroot)]
    refine ⟨fun he => ⟨?_, he⟩, And.right⟩
    have hrv := (fromEntries_holds hr).1.values (links_rises (fromEntries_eq_ok.mp hr).2.2.1)
    rw [← hrv, Relay.values, he, Relay.values]

theorem values_genesis : Relay.genesis.values = [.root] := by
  rw [Relay.values]
  rfl

/-- The root with another state root, which its digest does not cover. -/
def rootWithState (stateRoot : Bytes32) : RelayEntry :=
  { RelayEntry.root with stateRoot := stateRoot }

omit [Primitives] in
/-- A list of one entry is bound by nothing but its digest field. -/
theorem relay_not_bound_by_tip :
    letI := Primitives.words
    ¬ ∀ calls R es r, RelayRun calls R →
      Set.InjOn blake3 {x | x ∈ runHashed calls ∨ x ∈ entriesHashed es} →
      Relay.fromEntries es = .ok r → r.commitment = R.commitment → r = R := by
  let := Primitives.words
  intro hall
  have hr := hall [] .genesis [rootWithState 1] _ .genesis (by simp [runHashed, entriesHashed])
    rfl rfl
  have he := congrArg Relay.values hr
  rw [values_genesis] at he
  exact absurd (congrArg (List.map RelayEntry.stateRoot) he) (by decide)

end Bound

section Branched

attribute [local instance] relayingWords

theorem branchedRelay_run :
    RelayRun [⟨.genesis, minedRun⟩, ⟨minedRelay, minedBranch⟩] branchedRelay := by
  obtain ⟨change, hext⟩ := branch_extends
  exact minedRelay_run.extend hext

theorem branched_apart {es : List RelayEntry} (hes : es ⊆ branchedRelay.values)
    (hhashed : entriesHashed es ⊆ entriesHashed branchedRelay.values) :
    (∀ e ∈ es, e.Fits) ∧ Set.InjOn blake3
      {x | x ∈ runHashed [⟨.genesis, minedRun⟩, ⟨minedRelay, minedBranch⟩] ∨
        x ∈ entriesHashed es} := by
  have hfits : ∀ e ∈ branchedRelay.values, e.height < 2 ^ 64 ∧ e.timestamp < 2 ^ 64 ∧
      e.work < 2 ^ 128 ∧ e.chainWork < 2 ^ 128 := by
    decide +kernel
  have happart : ∀ x ∈ runHashed [⟨.genesis, minedRun⟩, ⟨minedRelay, minedBranch⟩] ++
      entriesHashed branchedRelay.values,
      ∀ y ∈ runHashed [⟨.genesis, minedRun⟩, ⟨minedRelay, minedBranch⟩] ++
        entriesHashed branchedRelay.values, blake3 x = blake3 y → x = y := by
    decide +kernel
  constructor
  · intro e he
    obtain ⟨hheight, htimestamp, hwork, hchainWork⟩ := hfits e (hes he)
    exact ⟨hheight, htimestamp, hwork, hchainWork⟩
  · intro x hx y hy
    exact happart x (List.mem_append.mpr (hx.imp_right fun h => hhashed h)) y
      (List.mem_append.mpr (hy.imp_right fun h => hhashed h))

/-- The entries of the branched relay rebuild it; without the lowest they rebuild another relay
with its commitment. -/
theorem relay_bound_by_base_branched :
    (∀ r, Relay.fromEntries branchedRelay.values = .ok r →
      r.commitment = branchedRelay.commitment → r = branchedRelay) ∧
    ∃ r, Relay.fromEntries branchedRelay.values.tail = .ok r ∧
      r.commitment = branchedRelay.commitment ∧ r ≠ branchedRelay := by
  have hlinks : ∀ c ∈ [(⟨.genesis, minedRun⟩ : RelayCall), ⟨minedRelay, minedBranch⟩],
      ∀ l ∈ c.relayed.headers, l.timestamp < 2 ^ 64 := by
    decide +kernel
  have htip : branchedRelay.tip.height < 2 ^ 64 := by decide +kernel
  have hhead : branchedRelay.values.head? = some branchedRelay.base := by decide +kernel
  have hother : branchedRelay.values.tail.head? ≠ some branchedRelay.base := by decide +kernel
  have htail : ((Relay.fromEntries branchedRelay.values.tail).toOption.map Relay.commitment) =
      some branchedRelay.commitment := by
    decide +kernel
  constructor
  · intro r hr hc
    obtain ⟨hes, hinj⟩ := branched_apart (List.Subset.refl _) (List.Subset.refl _)
    exact (((relay_bound_by_base branchedRelay_run hlinks htip hes hinj).1 r hr hc).2
      mined_noClash).mpr hhead
  · obtain ⟨hes, hinj⟩ := branched_apart (List.tail_subset _) (by decide +kernel)
    cases hr : Relay.fromEntries branchedRelay.values.tail with
    | error e =>
      rw [hr] at htail
      cases htail
    | ok r =>
      rw [hr] at htail
      have hc := Option.some.inj htail
      refine ⟨r, rfl, hc, fun he => hother ?_⟩
      exact (((relay_bound_by_base branchedRelay_run hlinks htip hes hinj).1 r hr hc).2
        mined_noClash).mp he

end Branched

end Midwimble
