import Tiling.NodeId

/-!
# The supply of generated identifiers

One counter per tree. Minting hands out the next generated identifier; reserving moves the counter
past an identifier that comes into the tree from outside.
-/

namespace Tiling

structure IdSupply where
  next : UInt64 := 1
deriving DecidableEq, Repr

namespace IdSupply

def peek (ids : IdSupply) : NodeId :=
  .generated ids.next

def advance (ids : IdSupply) : IdSupply :=
  -- The counter stays at its last value instead of wrapping round.
  if ids.next = 0xFFFFFFFFFFFFFFFF then ids else ⟨ids.next + 1⟩

def mint (ids : IdSupply) : NodeId × IdSupply :=
  (ids.peek, ids.advance)

/-- Neither `id` nor a generated identifier below it is minted from here on. The host's identifiers
are never minted anyway. -/
def reserve (ids : IdSupply) (id : NodeId) : IdSupply :=
  if id.isGenerated && ids.next ≤ id.serial then ⟨id.serial + 1⟩ else ids

def reserveAll (ids : IdSupply) (taken : List NodeId) : IdSupply :=
  taken.foldl reserve ids

end IdSupply

end Tiling
