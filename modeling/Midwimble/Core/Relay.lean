import Std.Data.ExtTreeMap.Lemmas
import Midwimble.Core.ProofOfWork

namespace Midwimble
set_option autoImplicit true

def maxRelayHeadersPerBlock : Nat := 24 * 60
def relayWeightPerHeader : Nat := 4
def relayWindow : Nat := 2 * 24 * 60
def relayMaxFuture : Nat := 2 * maxFutureBlockTime

def midstateAsertTarget : Bytes32 :=
  0x0011ffffffffffffffffffffffffffffffffffffffffffffffffffffffffffff

def midstateAsertTime : Nat := 1772274770

/-- The target midstate's difficulty rule gives its header at `height`, whose parent is
stamped `parentTimestamp`. -/
def midstateTarget (height parentTimestamp : Nat) : Bytes32 :=
  let shift := match midstatePowAlgoAt height with
    | .walk => midstateWalkTargetShift
    | .blake3Chain => 0
  asertTarget midstateAsertTarget midstateAsertTime height parentTimestamp shift

/-- A midstate header, as one link of its chain. -/
structure HeaderLink where
  postTxMidstate : Bytes32
  stateRoot : Bytes32
  timestamp : Nat
  target : Bytes32
  nonce : Nat
  finalHash : Bytes32
  deriving DecidableEq

def HeaderLink.encode (l : HeaderLink) : Bytes :=
  l.postTxMidstate.toBytes ++ l.stateRoot.toBytes ++ Bytes.le 8 l.timestamp ++
    l.target.toBytes ++ Bytes.le 8 l.nonce ++ l.finalHash.toBytes

/-- A midstate header on the relay's chain. -/
structure RelayEntry where
  height : Nat
  hash : Bytes32
  prev : Bytes32
  stateRoot : Bytes32
  timestamp : Nat
  work : Nat
  chainWork : Nat
  /-- Commits to this entry and, through the previous digest, every entry before it. -/
  digest : Bytes32
  deriving DecidableEq

/-- Midstate headers a block relays: the entry the first builds on, then each header. -/
structure RelayHeaders where
  prev : Bytes32
  headers : List HeaderLink
  deriving DecidableEq

/-- What relaying changed. -/
structure RelayChange where
  added : List RelayEntry
  removed : List RelayEntry
  forkFrom : Option Nat
  deriving DecidableEq

/-- The last `relayWindow` midstate headers of the heaviest chain relayed so far. -/
structure Relay where
  entries : Std.ExtTreeMap Nat RelayEntry
  heights : Std.ExtTreeMap Bytes32 Nat
  deriving DecidableEq

variable [Primitives]

/-- The mining hash a midstate header commits its proof of work to. -/
def linkMiningHash (prev : Bytes32) (link : HeaderLink) : Bytes32 :=
  midstateHeaderHash prev link.postTxMidstate link.stateRoot link.timestamp link.target

namespace RelayEntry

/-- What an entry's digest hashes, after its domain. -/
def digestParts (e : RelayEntry) (prevDigest : Bytes32) : List Bytes :=
  [prevDigest.toBytes, Bytes.le 8 e.height, e.hash.toBytes, e.prev.toBytes,
    e.stateRoot.toBytes, Bytes.le 8 e.timestamp, Bytes.le 16 e.work, Bytes.le 16 e.chainWork]

def digestAfter (e : RelayEntry) (prevDigest : Bytes32) : Bytes32 :=
  hashDomain (Bytes.ascii "midwimble.relay-entry.v1") (e.digestParts prevDigest)

/-- The midstate block the genesis commits to. -/
def root : RelayEntry where
  height := midstateBlockHeight
  hash := midstateBlockHash
  prev := 0
  stateRoot := 0
  timestamp := 0
  work := 0
  chainWork := 0
  digest := hashDomain (Bytes.ascii "midwimble.relay-root.v1")
    [midstateBlockHash.toBytes, Bytes.le 8 midstateBlockHeight]

def isRoot (e : RelayEntry) : Bool := e = root

/-- The entry `link` makes on top of this one. -/
def next (e : RelayEntry) (link : HeaderLink) (work : Nat) : RelayEntry :=
  let n : RelayEntry :=
    { height := e.height + 1
      hash := link.finalHash
      prev := e.hash
      stateRoot := link.stateRoot
      timestamp := link.timestamp
      work := work
      chainWork := satAdd128 e.chainWork work
      digest := 0 }
  { n with digest := n.digestAfter e.digest }

end RelayEntry

namespace RelayHeaders

def weight (r : RelayHeaders) : Nat := min (relayWeightPerHeader * r.headers.length) u64Max

def encode (r : RelayHeaders) : Bytes :=
  r.prev.toBytes ++ Bytes.le 8 r.headers.length ++ r.headers.flatMap HeaderLink.encode

def hash (r : RelayHeaders) : Bytes32 :=
  hashDomain (Bytes.ascii "midwimble.relay-headers.v1") [r.encode]

/-- The proof of work of each header of a run, the first at `height` on `prev`. -/
def powJobs : (height : Nat) → (prev : Bytes32) → List HeaderLink → List PowJob
  | _, _, [] => []
  | height, prev, link :: rest =>
    ⟨midstatePowAlgoAt height, linkMiningHash prev link, link.nonce, link.finalHash⟩ ::
      powJobs (height + 1) link.finalHash rest

/-- Every header's proof of work. -/
def verifyPow (r : RelayHeaders) (firstHeight : Nat) : Result Unit :=
  match checkPowJobs (powJobs firstHeight r.prev r.headers) with
  | .ok () => .ok ()
  | .error (.bad i) => .error s!"relayed midstate header {i} fails its proof of work"
  | .error .abandoned => .error "relay verification abandoned"

end RelayHeaders

namespace Relay

def empty : Relay := ⟨∅, ∅⟩

def insert (r : Relay) (e : RelayEntry) : Relay :=
  ⟨r.entries.insert e.height e, r.heights.insert e.hash e.height⟩

def remove (r : Relay) (height : Nat) : Option RelayEntry × Relay :=
  match r.entries[height]? with
  | none => (none, r)
  | some e => (some e, ⟨r.entries.erase height, r.heights.erase e.hash⟩)

/-- Removes each height in turn, collecting what was there. -/
def removeAll (r : Relay) : List Nat → List RelayEntry × Relay
  | [] => ([], r)
  | h :: hs =>
    let (e, r) := r.remove h
    let (es, r) := r.removeAll hs
    (e.toList ++ es, r)

def insertAll (r : Relay) (es : List RelayEntry) : Relay := es.foldl insert r

/-- The relay before anything is relayed: the root alone. -/
def genesis : Relay := empty.insert .root

/-- Every entry, lowest first. -/
def values (r : Relay) : List RelayEntry := r.entries.toList.map Prod.snd

/-- The highest entry. A relay is never empty. -/
def tip (r : Relay) : RelayEntry := r.values.getLast?.getD .root

/-- The lowest entry kept. A relay is never empty. -/
def base (r : Relay) : RelayEntry := r.values.head?.getD .root

def get (r : Relay) (height : Nat) : Option RelayEntry := r.entries[height]?

def byHash (r : Relay) (hash : Bytes32) : Option RelayEntry :=
  r.heights[hash]?.bind fun h => r.entries[h]?

/-- What the state root commits to: the tip's digest, which chains through every entry. -/
def commitment (r : Relay) : Bytes32 := r.tip.digest

/-- The loop of `from_entries`: each further entry links to the one below. -/
def linkEntries (relay : Relay) (below : RelayEntry) : List RelayEntry → Result Relay
  | [] => .ok relay
  | e :: rest => do
    Fallible.bailIf (e.height ≠ below.height + 1 ∨ e.prev ≠ below.hash ∨
        e.chainWork ≠ satAdd128 below.chainWork e.work ∨ e.digest ≠ e.digestAfter below.digest)
      s!"relay entries do not form a chain at midstate height {e.height}"
    Fallible.bailIf (relay.heights.contains e.hash)
      s!"relay entry {hexEncode e.hash} appears twice"
    linkEntries (relay.insert e) e rest

/-- Rebuilds a relay from its entries, lowest first. Only the first is taken as given. -/
def fromEntries (entries : List RelayEntry) : Result Relay :=
  match entries with
  | [] => .error "a relay has at least one entry"
  | first :: rest => do
    Fallible.bailIf (entries.length > relayWindow + 1)
      s!"a relay holds at most {relayWindow + 1} entries"
    linkEntries (empty.insert first) first rest

/-- Work credited above the entry at `height`, each header for at most `cap`. -/
def creditedAbove (r : Relay) (height cap : Nat) : Nat :=
  (r.entries.toList.filter fun p => satAdd64 height 1 ≤ p.1).foldl
    (fun sum p => satAdd128 sum (min p.2.work cap)) 0

/-- The loop of `extend` over the relayed headers: the entries they add on `last`. -/
def linkRun (r : Relay) (baseHeight latest : Nat) : (i : Nat) → (last : RelayEntry) →
    List HeaderLink → Result (List RelayEntry)
  | _, _, [] => .ok []
  | i, last, link :: rest => do
    Fallible.bailIf (link.finalHash ≥ link.target)
      s!"relayed midstate header {i} misses its own target"
    Fallible.bailIf (link.timestamp > latest)
      s!"relayed midstate header {i} is timestamped {link.timestamp}, more than {relayMaxFuture}s past the block relaying it"
    Fallible.bailIf (!last.isRoot ∧
        link.target ≠ midstateTarget (last.height + 1) last.timestamp)
      s!"relayed midstate header {i} (height {last.height + 1}) does not carry the target midstate's difficulty rule gives it"
    let entry := last.next link (calculateWork link.target)
    Fallible.bailIf (r.heights[entry.hash]?.any (· ≤ baseHeight))
      s!"relayed midstate header {i} is already on the relay's chain"
    let added ← linkRun r baseHeight latest (i + 1) entry rest
    .ok (entry :: added)

/-- The checks of `extend`, which only read the relay: the entry the run builds on and the
entries it adds. -/
def checkRun (r : Relay) (relayed : RelayHeaders) (blockTimestamp : Nat) :
    Result (RelayEntry × List RelayEntry) := do
  let n := relayed.headers.length
  Fallible.bailIf (n = 0) "a block that relays midstate headers relays at least one"
  Fallible.bailIf (n > maxRelayHeadersPerBlock)
    s!"a block relays at most {maxRelayHeadersPerBlock} midstate headers, not {n}"
  let base ← Fallible.orBail (r.byHash relayed.prev)
    s!"relayed headers build on {hexEncode relayed.prev}, which is not on the relay's chain"
  let tip := r.tip
  if base.height < tip.height then
    let replaced ← Fallible.orBail (r.get (base.height + 1)) (.panic "entries are consecutive")
    Fallible.bailIf (relayed.headers.head?.map HeaderLink.finalHash = some replaced.hash)
      "relayed headers repeat the relay's own chain"
  let latest := satAdd64 blockTimestamp relayMaxFuture
  let added ← r.linkRun base.height latest 0 base relayed.headers
  let last := added.getLast?.getD base
  Fallible.bailIf (base.height < tip.height ∧ last.chainWork ≤ tip.chainWork)
    s!"a relayed branch from midstate height {base.height} must outweigh the one it replaces"
  .ok (base, added)

/-- The rest of `extend`: replaces what lies above `base` and lets the window move. -/
def replaceAbove (r : Relay) (base : RelayEntry) (added : List RelayEntry) :
    RelayChange × Relay :=
  let (replaced, r) := r.removeAll
    (List.range' (base.height + 1) (r.tip.height - base.height))
  let r := r.insertAll added
  let keepFrom := r.tip.height - relayWindow
  let (stale, r) := r.removeAll (r.entries.keys.filter (· < keepFrom))
  (⟨added, replaced ++ stale, if replaced.isEmpty then none else some base.height⟩, r)

/-- Applies the headers relayed by a block stamped `blockTimestamp`: the outcome, and the
relay afterwards. -/
def extend (r : Relay) (relayed : RelayHeaders) (blockTimestamp : Nat) :
    Result RelayChange × Relay :=
  match r.checkRun relayed blockTimestamp with
  | .error e => (.error e, r)
  | .ok (base, added) =>
    let (change, r) := r.replaceAbove base added
    (.ok change, r)

/-- Replays a change. -/
def applyChange (r : Relay) (removed added : List RelayEntry) : Relay :=
  (r.removeAll (removed.map RelayEntry.height)).2.insertAll added

/-- Takes a change back. -/
def revertChange (r : Relay) (removed added : List RelayEntry) : Relay :=
  (r.removeAll (added.map RelayEntry.height)).2.insertAll removed

end Relay

/-- A run of midstate headers with the height of the first. -/
structure MidstateHeaders where
  start : Nat
  prev : Bytes32
  headers : List HeaderLink
  deriving DecidableEq

/-- Midstate headers a producer has to relay, by height, with the hash below each. -/
structure RelayFeed where
  headers : Std.ExtTreeMap Nat (Bytes32 × HeaderLink)

namespace RelayFeed

def empty : RelayFeed := ⟨∅⟩

/-- The loop of `add` from the header at `height` on `prev`. -/
def addFrom (replaceHeld : Bool) : (height : Nat) → (prev : Bytes32) → List HeaderLink →
    RelayFeed → RelayFeed
  | _, _, [], f => f
  | height, prev, link :: rest, f =>
    let f := if replaceHeld || !f.headers.contains height then
      ⟨f.headers.insert height (prev, link)⟩ else f
    addFrom replaceHeld (height + 1) link.finalHash rest f

def add (f : RelayFeed) (run : MidstateHeaders) (replaceHeld : Bool) : RelayFeed :=
  addFrom replaceHeld run.start run.prev run.headers f

/-- Whether the feed holds a header on top of the relay's tip. -/
def extendsTip (f : RelayFeed) (tip : RelayEntry) : Bool :=
  match f.headers[tip.height + 1]? with
  | some (prev, _) => prev = tip.hash
  | none => false

/-- Whether the feed branches off the relay with its header at `h`. -/
def branchesAt (f : RelayFeed) (relay : Relay) (h : Nat) : Bool :=
  match f.headers[h]?, relay.get (h - 1), relay.get h with
  | some (prev, link), some below, some ours => prev = below.hash ∧ link.finalHash ≠ ours.hash
  | _, _, _ => false

/-- The links of consecutive headers, while each builds on the one before. -/
def takeLinked : (room : Nat) → (expect : Bytes32) → List (Bytes32 × HeaderLink) →
    List HeaderLink
  | 0, _, _ => []
  | _, _, [] => []
  | room + 1, expect, (below, link) :: rest =>
    if below ≠ expect then [] else link :: takeLinked room link.finalHash rest

/-- What a block on `relay` could relay: the run that extends its tip, or else one that
forks from an entry in its window. -/
def nextFor (f : RelayFeed) (relay : Relay) : Option RelayHeaders := do
  let tip := relay.tip
  let start ← if f.extendsTip tip then some (tip.height + 1) else
    (List.range' (relay.base.height + 1) (tip.height - relay.base.height)).reverse.find?
      (f.branchesAt relay)
  let (prev, _) ← f.headers[start]?
  let links := takeLinked maxRelayHeadersPerBlock prev
    ((f.headers.toList.filter fun p => start ≤ p.1).map Prod.snd)
  if links.isEmpty then none else some ⟨prev, links⟩

end RelayFeed

end Midwimble
