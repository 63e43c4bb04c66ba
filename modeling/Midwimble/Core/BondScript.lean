import Midwimble.Core.Bond

namespace Midwimble
set_option autoImplicit true

def opPushData : UInt8 := 0x01
def opDrop : UInt8 := 0x10
def opCheckSigVerify : UInt8 := 0x32
def opCheckTimeVerify : UInt8 := 0x33

/-- `from_le_bytes`. -/
def fromLeBytes (bs : Bytes) : Nat := bs.foldr (fun b n => n * 256 + b.toNat) 0

/-- A script and how far it has been read. -/
structure Reader where
  bytes : Bytes
  pos : Nat

namespace Reader

/-- The next `len` bytes, if there are so many. -/
def get (r : Reader) (len : Nat) : Option Bytes :=
  if r.pos + len ≤ r.bytes.length then some ((r.bytes.drop r.pos).take len) else none

def op (r : Reader) (want : UInt8) : Result Reader := do
  Fallible.bailIf (r.bytes[r.pos]? ≠ some want) "not a mining bond script"
  .ok { r with pos := r.pos + 1 }

def push (r : Reader) : Result (Bytes × Reader) := do
  let r ← r.op opPushData
  let len ← Fallible.orBail (r.get 2) "truncated bond script"
  let len := fromLeBytes len
  let r := { r with pos := r.pos + 2 }
  let data ← Fallible.orBail (r.get len) "truncated bond script"
  .ok (data, { r with pos := r.pos + len })

def push32 (r : Reader) : Result (Bytes32 × Reader) := do
  let (data, r) ← r.push
  Fallible.bailIf (data.length ≠ 32) "bond script key is not 32 bytes"
  .ok (wordOf data, r)

end Reader

/-- `copy_from_slice` into the first of eight zero bytes; `none` where it panics. -/
def intoEight (data : Bytes) : Option Bytes :=
  if data.length ≤ 8 then some (data ++ List.replicate (8 - data.length) 0) else none

namespace BondScript

/-- `parse` as far as the lock height's push. -/
def parseLock (bytecode : Bytes) : Result (Bytes32 × Bytes × Reader) := do
  let (miningKey, r) ← Reader.push32 ⟨bytecode, 0⟩
  let r ← r.op opDrop
  let (until_, r) ← r.push
  Fallible.bailIf (until_.isEmpty ∨ until_.length > 8) "bond lock height is not a u64"
  .ok (miningKey, until_, r)

/-- `parse` from the lock height on. -/
def parseOwner (bytecode : Bytes) (miningKey : Bytes32) (bondedUntil : Nat) (r : Reader) :
    Result BondScript := do
  let r ← r.op opCheckTimeVerify
  let (ownerPk, r) ← r.push32
  let _ ← r.op opCheckSigVerify
  let parsed : BondScript := ⟨miningKey, bondedUntil, ownerPk⟩
  Fallible.bailIf (parsed.toBytecode ≠ bytecode) "not the canonical mining bond encoding"
  .ok parsed

/-- Recognises exactly the template; `none` would be a panic. -/
def parse (bytecode : Bytes) : Option (Result BondScript) :=
  match parseLock bytecode with
  | .error e => some (.error e)
  | .ok (miningKey, until_, r) => do
    let le ← intoEight until_
    some (parseOwner bytecode miningKey (fromLeBytes le) r)

end BondScript

end Midwimble
