/-!
# Node identifiers

An identifier is a 64-bit word. The words below `2 ^ 63` belong to the host; those with the top bit
set belong to the nodes that a tree makes for itself, so the two kinds never collide.
-/

namespace Tiling

structure NodeId where
  raw : UInt64
deriving DecidableEq, Repr

namespace NodeId

def generatedBase : UInt64 := 0x8000000000000000

/-- The `n`-th generated identifier: `n` with its top bit set. -/
def generated (n : UInt64) : NodeId :=
  ⟨generatedBase + n % generatedBase⟩

def isGenerated (id : NodeId) : Bool :=
  generatedBase ≤ id.raw

def serial (id : NodeId) : UInt64 :=
  id.raw % generatedBase

def text (id : NodeId) : String :=
  -- The seventh generated identifier reads `#g7`, the host's own identifier 7 reads `#7`.
  (if id.isGenerated then "#g" else "#") ++ id.serial.toNat.repr

theorem isGenerated_generated (n : UInt64) : (generated n).isGenerated := by
  have h : n.toNat % 2 ^ 63 < 2 ^ 63 := Nat.mod_lt _ (by decide)
  simp only [isGenerated, generated, decide_eq_true_eq, UInt64.le_iff_toNat_le, UInt64.toNat_add,
    UInt64.toNat_mod, show generatedBase.toNat = 2 ^ 63 from rfl]
  omega

/-- Numbers from `2 ^ 63` on wrap round. -/
theorem serial_generated (n : UInt64) : (generated n).serial = n % generatedBase := by
  have h : n.toNat % 2 ^ 63 < 2 ^ 63 := Nat.mod_lt _ (by decide)
  apply UInt64.toNat_inj.mp
  simp only [serial, generated, UInt64.toNat_add, UInt64.toNat_mod,
    show generatedBase.toNat = 2 ^ 63 from rfl]
  omega

end NodeId

end Tiling
