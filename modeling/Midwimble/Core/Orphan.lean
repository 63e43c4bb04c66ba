import Midwimble.Core.ForkChoice
import Midwimble.Core.Types

namespace Midwimble
set_option autoImplicit true

/-- Whether a block that added `credited` to its chain's weight, with `work` behind it, counted
in full. -/
def fullWeight (credited work : Nat) : Bool := credited > sliver work ∨ credited = work

/-- Whether the block `header` counted in full, given the chain's weight before it. -/
def countedInFull (header : BatchHeader) (weightBefore : Nat) : Bool :=
  fullWeight (header.chainWeight - weightBefore) (calculateWork header.target)

/-- The chain's weight before `header`, from the header read before it. -/
def weightBefore (before : Option BatchHeader) (header : BatchHeader) : Option Nat :=
  match before with
  | some b =>
    if b.height + 1 = header.height then some b.chainWeight
    else if header.height = 0 then some 0 else none
  | none => if header.height = 0 then some 0 else none

/-- The loop of `full_weight_blocks`. -/
def countFullWeight (fromHeight : Nat) : (before : Option BatchHeader) → List BatchHeader → Nat
  | _, [] => 0
  | before, header :: rest =>
    (if header.height ≥ fromHeight ∧ (weightBefore before header).any (countedInFull header) then 1
      else 0) + countFullWeight fromHeight (some header) rest

/-- How many blocks from `fromHeight` on counted in full, of consecutive headers. -/
def fullWeightBlocks (headers : List BatchHeader) (fromHeight : Nat) : Nat :=
  countFullWeight fromHeight none headers

end Midwimble
