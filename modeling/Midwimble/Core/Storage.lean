import Midwimble.Core.State

namespace Midwimble
set_option autoImplicit true

variable [Primitives]

/-- Applies a block's bond diff to an in-memory set. -/
def applyBondEffects (bonds : BondSet) (effects : BlockEffects) : BondSet :=
  let bonds := effects.bondsRemoved.foldl (fun bonds p => bonds.remove p.1) bonds
  effects.bondsAdded.foldl (fun bonds p => (bonds.insert p.1 p.2).2) bonds

/-- Takes a block's bond diff back off an in-memory set. -/
def undoBondEffects (bonds : BondSet) (effects : BlockEffects) : BondSet :=
  let bonds := effects.bondsAdded.foldl (fun bonds p => bonds.remove p.1) bonds
  effects.bondsRemoved.foldl (fun bonds p => (bonds.insert p.1 p.2).2) bonds

end Midwimble
