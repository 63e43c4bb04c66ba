import Midwimble.Core.Anchor

namespace Midwimble
set_option autoImplicit true

abbrev PeerId := Nat

/-- What a peer may send that checkpoint sync looks at. -/
inductive SyncMessage
  | anchors (list : List EvidencedRecord)
  | snapshotPart (checkpointId : Bytes32) (part total : Nat) (data : Bytes)
  | other

inductive SyncRequest
  | getAnchors
  | getSnapshot (checkpointId : Bytes32) (part : Nat)

/-- What wakes the loop of `bootstrap_from_checkpoint`. -/
inductive SyncEvent
  /-- The retry tick, with the peers connected and the one drawn at random. -/
  | tick (connected : List PeerId) (random : Option PeerId)
  | message (peer : PeerId) (message : SyncMessage)

/-- Why checkpoint sync ended without a state. -/
inductive BootstrapError
  /-- The record this node was given does not verify. -/
  | localRecord (fault : RecordFault)
  | timedOut
  /-- A whole set of parts is not the encoding of a snapshot. -/
  | undecodable
  | importFailed (e : Err)

/-- The variables of the loop, with what it sent and whom it banned, latest first. -/
structure Bootstrap where
  record : Option EvidencedRecord
  source : Option PeerId
  parts : List (Option Bytes)
  asked : List PeerId
  sent : List (PeerId × SyncRequest)
  banned : List (PeerId × String)

/-- The loop's surroundings: the trusted checkpoint, the node's policy, `bincode`'s decoder and
the database. -/
structure BootstrapEnv where
  trusted : Bytes32
  finality : AnchorConfig
  decode : Bytes → Option Snapshot
  importSnapshot : Snapshot → State → Result Unit

inductive Progress
  | waiting (s : Bootstrap)
  | failed (s : Bootstrap) (e : BootstrapError)
  | imported (s : Bootstrap) (snapshot : Snapshot) (state : State)

def Progress.state : Progress → Bootstrap
  | .waiting s | .failed s _ | .imported s _ _ => s

namespace Bootstrap

def send (s : Bootstrap) (peer : PeerId) (request : SyncRequest) : Bootstrap :=
  { s with sent := (peer, request) :: s.sent }

def ban (s : Bootstrap) (peer : PeerId) (reason : String) : Bootstrap :=
  { s with banned := (peer, reason) :: s.banned }

def askAnchors (s : Bootstrap) (peer : PeerId) : Bootstrap :=
  if s.record.isNone ∧ peer ∉ s.asked then
    { s with asked := peer :: s.asked }.send peer .getAnchors
  else s

def nextPart (s : Bootstrap) : Nat := (s.parts.findIdx? Option.isNone).getD s.parts.length

def retry (env : BootstrapEnv) (s : Bootstrap) (connected : List PeerId)
    (random : Option PeerId) : Bootstrap :=
  let s := connected.foldl askAnchors s
  let s := if s.record.isSome ∧ s.source.isNone then { s with source := random } else s
  match s.record, s.source with
  | some _, some peer => s.send peer (.getSnapshot env.trusted s.nextPart)
  | _, _ => s

/-- Files a part under its number, starting over when the total changed. -/
def filePart (parts : List (Option Bytes)) (part total : Nat) (data : Bytes) :
    List (Option Bytes) :=
  (if parts.length ≠ total then List.replicate total none else parts).set part (some data)

variable [Primitives]

/-- `precheck`, then the evidence in full. -/
def checkRecord (env : BootstrapEnv) (r : EvidencedRecord) :
    Except RecordFault EvidencedRecord := do
  let r ← r.precheck env.finality
  let _ ← verifyEvidence r env.finality .empty
  .ok r

/-- A list of anchors, while no record is held. -/
def onAnchors (env : BootstrapEnv) (s : Bootstrap) (peer : PeerId)
    (list : List EvidencedRecord) : Bootstrap :=
  match list.find? fun r => r.checkpoint.id = env.trusted with
  | none => s
  | some r =>
    match checkRecord env r with
    | .ok r => { s with record := some r, source := some peer }
    | .error (.policy _) => s
    | .error (.invalid _) => s.ban peer "forged anchor"

def assemble (parts : List (Option Bytes)) : Bytes := (parts.filterMap id).flatten

def onSnapshot (env : BootstrapEnv) (s : Bootstrap) (peer : PeerId) : Progress :=
  match env.decode (assemble s.parts) with
  | none => .failed s .undecodable
  | some snapshot =>
    match snapshot.verify env.trusted with
    | .ok state =>
      match env.importSnapshot snapshot state with
      | .ok () => .imported s snapshot state
      | .error e => .failed s (.importFailed e)
    | .error _ =>
      .waiting { s.ban peer "served an invalid snapshot" with source := none, parts := [] }

/-- A part of the trusted checkpoint's snapshot, from the source. -/
def onPart (env : BootstrapEnv) (s : Bootstrap) (peer : PeerId) (part total : Nat)
    (data : Bytes) : Progress :=
  if total = 0 then .waiting s
  else
    let s := { s with parts := filePart s.parts part total data }
    match s.parts.findIdx? Option.isNone with
    | some next => .waiting (s.send peer (.getSnapshot env.trusted next))
    | none => onSnapshot env s peer

def step (env : BootstrapEnv) (s : Bootstrap) : SyncEvent → Progress
  | .tick connected random => .waiting (s.retry env connected random)
  | .message peer (.anchors list) =>
    .waiting (if s.record.isNone then s.onAnchors env peer list else s)
  | .message peer (.snapshotPart checkpointId part total data) =>
    if checkpointId = env.trusted ∧ some peer = s.source then s.onPart env peer part total data
    else .waiting s
  | .message _ .other => .waiting s

/-- The loop over events, each with whether the deadline had passed before it. -/
def run (env : BootstrapEnv) : Bootstrap → List (Bool × SyncEvent) → Progress
  | s, [] => .waiting s
  | s, (late, e) :: events =>
    if late then .failed s .timedOut
    else match s.step env e with
      | .waiting s => run env s events
      | stopped => stopped

def start (record : Option EvidencedRecord) : Bootstrap := ⟨record, none, [], [], [], []⟩

end Bootstrap

variable [Primitives]

/-- Fetches the trusted checkpoint's record and snapshot from peers. -/
def bootstrapFromCheckpoint (env : BootstrapEnv) (records : List EvidencedRecord)
    (events : List (Bool × SyncEvent)) : Progress :=
  match records.find? fun r => r.checkpoint.id = env.trusted with
  | none => (Bootstrap.start none).run env events
  | some r =>
    match Bootstrap.checkRecord env r with
    | .error fault => .failed (.start none) (.localRecord fault)
    | .ok r => (Bootstrap.start (some r)).run env events

end Midwimble
