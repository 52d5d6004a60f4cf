import Tiling.IdSupply
import Mathlib.Algebra.Group.Nat.Defs
import Mathlib.Data.List.Nodup

/-!
# Which identifiers a supply has left behind

A supply covers a list of identifiers when the counter has passed every generated one among them.
What is covered stays covered, and no covered identifier is minted before the counter reaches
`2 ^ 63`.
-/

namespace Tiling.IdSupply

/-- No generated identifier of the list is still to come. -/
def Covers (ids : IdSupply) (taken : List NodeId) : Prop :=
  ∀ id ∈ taken, id.isGenerated → id.serial < ids.next

theorem toNat_generatedBase : NodeId.generatedBase.toNat = 2 ^ 63 := rfl

theorem serial_lt (id : NodeId) : id.serial.toNat < 2 ^ 63 := by
  rw [NodeId.serial, UInt64.toNat_mod, toNat_generatedBase]
  exact Nat.mod_lt _ (by decide)

theorem toNat_raw {id : NodeId} (h : id.isGenerated) :
    id.raw.toNat = 2 ^ 63 + id.serial.toNat := by
  have := id.raw.toNat_lt
  rw [NodeId.isGenerated, decide_eq_true_eq, UInt64.le_iff_toNat_le, toNat_generatedBase] at h
  rw [NodeId.serial, UInt64.toNat_mod, toNat_generatedBase]
  omega

/-! ## 1. The counter never falls -/

theorem next_advance {ids : IdSupply} (h : ids.next ≠ 0xFFFFFFFFFFFFFFFF) :
    ids.advance.next.toNat = ids.next.toNat + 1 := by
  rw [advance, if_neg h, UInt64.toNat_add]
  have hlt := ids.next.toNat_lt
  have hne : ids.next.toNat ≠ 0xFFFFFFFFFFFFFFFF := fun heq => h (UInt64.toNat_inj.mp heq)
  change (ids.next.toNat + 1) % 2 ^ 64 = _
  omega

theorem next_le_advance (ids : IdSupply) : ids.next ≤ ids.advance.next := by
  rw [UInt64.le_iff_toNat_le]
  by_cases h : ids.next = 0xFFFFFFFFFFFFFFFF
  · -- the counter stops at the greatest number
    have hsame : ids.advance = ids := if_pos h
    exact Nat.le_of_eq (by rw [hsame])
  · rw [next_advance h]
    omega

/-- Reserving an id that is not behind moves the counter past it. -/
theorem next_reserve {ids : IdSupply} {id : NodeId} (hid : id.isGenerated)
    (h : ids.next ≤ id.serial) : (ids.reserve id).next.toNat = id.serial.toNat + 1 := by
  have hlt := serial_lt id
  -- a serial is below `2 ^ 63`, so its successor does not wrap
  rw [reserve, if_pos (by simp [hid, h]), UInt64.toNat_add]
  change (id.serial.toNat + 1) % 2 ^ 64 = _
  omega

theorem next_le_reserve (ids : IdSupply) (id : NodeId) : ids.next ≤ (ids.reserve id).next := by
  by_cases h : id.isGenerated ∧ ids.next ≤ id.serial
  · rw [UInt64.le_iff_toNat_le, next_reserve h.1 h.2]
    have := UInt64.le_iff_toNat_le.mp h.2
    omega
  · rw [reserve, if_neg (by simpa using h)]
    exact UInt64.le_refl _

/-- The counter never goes back. -/
theorem next_le_reserveAll (ids : IdSupply) (taken : List NodeId) :
    ids.next ≤ (ids.reserveAll taken).next := by
  rw [reserveAll]
  induction taken generalizing ids with
  | nil => exact UInt64.le_refl _
  | cons id taken ih => exact UInt64.le_trans (next_le_reserve ids id) (ih _)

/-! ## 2. Covering -/

theorem covers_nil (ids : IdSupply) : ids.Covers [] := fun _ h => nomatch h

theorem covers_append {ids : IdSupply} {l m : List NodeId} :
    ids.Covers (l ++ m) ↔ ids.Covers l ∧ ids.Covers m := by
  simp only [Covers, List.mem_append, or_imp, forall_and]

/-- What a supply covers, every later one does. -/
theorem Covers.mono {ids later : IdSupply} {l : List NodeId} (h : ids.Covers l)
    (hle : ids.next ≤ later.next) : later.Covers l :=
  fun id hid hgen => UInt64.lt_of_lt_of_le (h id hid hgen) hle

theorem Covers.of_subset {ids : IdSupply} {l m : List NodeId} (h : ids.Covers l) (hm : m ⊆ l) :
    ids.Covers m :=
  fun id hid => h id (hm hid)

theorem covers_reserve (ids : IdSupply) (id : NodeId) : (ids.reserve id).Covers [id] := by
  intro k hk hgen
  rw [List.mem_singleton] at hk
  subst hk
  by_cases h : ids.next ≤ k.serial
  · rw [UInt64.lt_iff_toNat_lt, next_reserve hgen h]
    omega
  · rw [reserve, if_neg (by simp [h])]
    exact UInt64.not_le.mp h

/-- What has been reserved is covered. -/
theorem covers_reserveAll (ids : IdSupply) (taken : List NodeId) :
    (ids.reserveAll taken).Covers taken := by
  induction taken generalizing ids with
  | nil => exact covers_nil _
  | cons id taken ih =>
    have hlater : (ids.reserveAll (id :: taken)) = (ids.reserve id).reserveAll taken := rfl
    rw [hlater]
    exact covers_append.mpr
      ⟨(covers_reserve ids id).mono (next_le_reserveAll _ taken), ih (ids.reserve id)⟩

/-- What is covered is reserved already. -/
theorem Covers.reserveAll_eq {ids : IdSupply} {l : List NodeId} (h : ids.Covers l) :
    ids.reserveAll l = ids := by
  induction l with
  | nil => rfl
  | cons id l ih =>
    obtain ⟨hid, hl⟩ := covers_append.mp (show ids.Covers ([id] ++ l) from h)
    have hreserve : ids.reserve id = ids := by
      rw [reserve, if_neg]
      rw [Bool.and_eq_true, decide_eq_true_iff, not_and, UInt64.not_le]
      exact fun hgen => hid id (List.mem_singleton_self id) hgen
    show (ids.reserve id).reserveAll l = ids
    rw [hreserve, ih hl]

/-! ## 3. Minting -/

theorem isGenerated_peek (ids : IdSupply) : ids.peek.isGenerated :=
  NodeId.isGenerated_generated ids.next

/-- Within its range the counter is the serial number of the next id. -/
theorem serial_peek {ids : IdSupply} (h : ids.next.toNat < 2 ^ 63) :
    ids.peek.serial = ids.next := by
  rw [peek, NodeId.serial_generated]
  apply UInt64.toNat_inj.mp
  rw [UInt64.toNat_mod, toNat_generatedBase, Nat.mod_eq_of_lt h]

/-- What is minted is above the covered identifiers. -/
theorem Covers.raw_lt_peek {ids : IdSupply} {taken : List NodeId} (h : ids.Covers taken)
    (hlt : ids.next.toNat < 2 ^ 63) {id : NodeId} (hid : id ∈ taken) :
    id.raw < ids.peek.raw := by
  rw [UInt64.lt_iff_toNat_lt, toNat_raw ids.isGenerated_peek, serial_peek hlt]
  by_cases hgen : id.isGenerated
  · have := UInt64.lt_iff_toNat_lt.mp (h id hid hgen)
    rw [toNat_raw hgen]
    omega
  · -- the host's identifiers are below all generated ones
    rw [NodeId.isGenerated, decide_eq_true_eq, UInt64.le_iff_toNat_le, toNat_generatedBase] at hgen
    omega

/-- What is minted is none of the covered identifiers. -/
theorem Covers.peek_not_mem {ids : IdSupply} {l : List NodeId} (hl : ids.Covers l)
    (h : ids.next.toNat < 2 ^ 63) : ids.peek ∉ l := fun hmem =>
  absurd (hl.raw_lt_peek h hmem) (UInt64.lt_irrefl _)

theorem covers_advance (ids : IdSupply) : ids.advance.Covers [ids.peek] := by
  intro id hid _
  rw [List.mem_singleton] at hid
  rw [hid, peek, NodeId.serial_generated, UInt64.lt_iff_toNat_lt, UInt64.toNat_mod,
    toNat_generatedBase]
  have hmod := Nat.mod_lt ids.next.toNat (by decide : 2 ^ 63 > 0)
  have hle := Nat.mod_le ids.next.toNat (2 ^ 63)
  by_cases h : ids.next = 0xFFFFFFFFFFFFFFFF
  · -- the counter has stopped, above every serial
    rw [advance, if_pos h, h]
    decide
  · rw [next_advance h]
    omega

end Tiling.IdSupply
