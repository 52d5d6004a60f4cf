import Tiling.Node
import Tiling.Proofs.Supply

/-!
# What a supply mints

A host asks a supply for identifiers and tells it which ones are taken. Whatever is asked, the
supply mints generated identifiers, each above all that were minted or reserved before, until the
greatest identifier is taken. None is above that one, and the next identifier minted starts over.
-/

namespace Tiling

/-! ## 1. The greatest identifier -/

namespace NodeId

open IdSupply (serial_lt toNat_raw)

def greatest : NodeId := ⟨0xFFFFFFFFFFFFFFFF⟩

theorem raw_le_greatest (id : NodeId) : id.raw ≤ greatest.raw := by
  have := id.raw.toNat_lt
  rw [UInt64.le_iff_toNat_le, show greatest.raw.toNat = 2 ^ 64 - 1 from rfl]
  omega

/-- Only one generated id has the last serial number. -/
theorem eq_greatest {id : NodeId} (h : id.isGenerated) (hserial : 2 ^ 63 ≤ id.serial.toNat + 1) :
    id = greatest := by
  have hraw : id.raw = greatest.raw := by
    have := serial_lt id
    rw [← UInt64.toNat_inj, toNat_raw h, show greatest.raw.toNat = 2 ^ 64 - 1 from rfl]
    omega
  cases id
  exact congrArg mk hraw

end NodeId

/-! ## 2. Requests -/

/-- What a host asks of a supply. -/
inductive Request (α : Type) where
  | mint
  | reserve (id : NodeId)
  | reserveTree (tree : Node α)

variable {α : Type}

def Request.reserved : Request α → List NodeId
  | mint => []
  | reserve id => [id]
  | reserveTree tree => tree.ids

namespace IdSupply

def serve (ids : IdSupply) : Request α → IdSupply
  | .mint => ids.mint.2
  | .reserve id => ids.reserve id
  | .reserveTree tree => ids.reserveAll tree.ids

def answer (ids : IdSupply) : Request α → List NodeId
  | .mint => [ids.mint.1]
  | _ => []

def serveAll (ids : IdSupply) (run : List (Request α)) : IdSupply :=
  run.foldl serve ids

def mintedBy (ids : IdSupply) : List (Request α) → List NodeId
  | [] => []
  | r :: run => ids.answer r ++ (ids.serve r).mintedBy run

def takenBy (ids : IdSupply) : List (Request α) → List NodeId
  | [] => []
  | r :: run => (ids.answer r ++ r.reserved) ++ (ids.serve r).takenBy run

/-- What is minted in a run is above all that was minted or reserved before. -/
structure Rises (ids : IdSupply) (run : List (Request α)) : Prop where
  minted : (ids.mintedBy run).Pairwise fun m k => m.raw < k.raw
  reserved : ∀ before r after, run = before ++ r :: after → ∀ id ∈ r.reserved,
    ∀ m ∈ (ids.serveAll (before ++ [r])).mintedBy after, id.raw < m.raw

/-! ## 3. Runs in parts -/

theorem serveAll_append (ids : IdSupply) (run later : List (Request α)) :
    ids.serveAll (run ++ later) = (ids.serveAll run).serveAll later :=
  List.foldl_append

theorem mintedBy_append (ids : IdSupply) (run later : List (Request α)) :
    ids.mintedBy (run ++ later) = ids.mintedBy run ++ (ids.serveAll run).mintedBy later := by
  induction run generalizing ids with
  | nil => rfl
  | cons r run ih =>
    rw [List.cons_append, mintedBy, mintedBy, ih, List.append_assoc]
    rfl

theorem takenBy_append (ids : IdSupply) (run later : List (Request α)) :
    ids.takenBy (run ++ later) = ids.takenBy run ++ (ids.serveAll run).takenBy later := by
  induction run generalizing ids with
  | nil => rfl
  | cons r run ih =>
    rw [List.cons_append, takenBy, takenBy, ih, List.append_assoc (ids.answer r ++ r.reserved)]
    rfl

/-- What is taken was minted in the run or reserved by one of its requests. -/
theorem mem_takenBy {ids : IdSupply} {run : List (Request α)} {id : NodeId}
    (h : id ∈ ids.takenBy run) : id ∈ ids.mintedBy run ∨ ∃ r ∈ run, id ∈ r.reserved := by
  induction run generalizing ids with
  | nil => cases h
  | cons r run ih =>
    rw [takenBy, List.mem_append, List.mem_append] at h
    rw [mintedBy, List.mem_append]
    rcases h with (hanswer | hreserved) | hlater
    · exact .inl (.inl hanswer)
    · exact .inr ⟨r, List.mem_cons_self, hreserved⟩
    · exact (ih hlater).imp .inr fun ⟨k, hk, hid⟩ => ⟨k, List.mem_cons_of_mem r hk, hid⟩

theorem isGenerated_of_mem_mintedBy {ids : IdSupply} {run : List (Request α)} {id : NodeId}
    (h : id ∈ ids.mintedBy run) : id.isGenerated := by
  induction run generalizing ids with
  | nil => cases h
  | cons r run ih =>
    rw [mintedBy, List.mem_append] at h
    rcases h with h | h
    · cases r with
      | mint => exact List.mem_singleton.mp h ▸ isGenerated_peek ids
      | _ => cases h
    · exact ih h

/-! ## 4. What is still free -/

/-- The counter has passed what is taken, and it runs out of generated identifiers only when the
greatest of them is taken. -/
structure Accounts (ids : IdSupply) (taken : List NodeId) : Prop where
  covers : ids.Covers taken
  spent : 2 ^ 63 ≤ ids.next.toNat → NodeId.greatest ∈ taken

theorem accounts_nil : Accounts {} [] :=
  ⟨covers_nil _, fun h => absurd h (by decide)⟩

/-- The counter is in its range until the greatest id is taken. -/
theorem Accounts.next_lt_iff {ids : IdSupply} {taken : List NodeId} (h : ids.Accounts taken) :
    ids.next.toNat < 2 ^ 63 ↔ NodeId.greatest ∉ taken := by
  constructor
  · intro hlt hmem
    have hserial := UInt64.lt_iff_toNat_lt.mp (h.covers _ hmem (by decide))
    rw [show NodeId.greatest.serial.toNat = 2 ^ 63 - 1 from rfl] at hserial
    omega
  · intro hnot
    by_contra hge
    exact hnot (h.spent (by omega))

/-- While the greatest id is free, the next id is above all that are taken. -/
theorem Accounts.raw_lt_peek {ids : IdSupply} {taken : List NodeId} (h : ids.Accounts taken)
    (hfree : NodeId.greatest ∉ taken) {id : NodeId} (hid : id ∈ taken) : id.raw < ids.peek.raw :=
  h.covers.raw_lt_peek (h.next_lt_iff.mpr hfree) hid

theorem Accounts.mint {ids : IdSupply} {taken : List NodeId} (h : ids.Accounts taken) :
    ids.advance.Accounts (taken ++ [ids.peek]) := by
  refine ⟨covers_append.mpr ⟨h.covers.mono ids.next_le_advance, ids.covers_advance⟩, fun hge => ?_⟩
  rw [List.mem_append, List.mem_singleton]
  by_cases hspent : 2 ^ 63 ≤ ids.next.toNat
  · exact .inl (h.spent hspent)
  · -- the counter runs out with the identifier that is minted here
    have hne : ids.next ≠ 0xFFFFFFFFFFFFFFFF := fun heq => hspent (heq ▸ by decide)
    rw [next_advance hne] at hge
    rw [← serial_peek (by omega)] at hge
    exact .inr (NodeId.eq_greatest ids.isGenerated_peek hge).symm

/-- Reserving an id adds it to the account. -/
theorem Accounts.reserve {ids : IdSupply} {taken : List NodeId} (h : ids.Accounts taken)
    (id : NodeId) : (ids.reserve id).Accounts (taken ++ [id]) := by
  refine ⟨covers_append.mpr ⟨h.covers.mono (ids.next_le_reserve id), ids.covers_reserve id⟩,
    fun hge => ?_⟩
  rw [List.mem_append, List.mem_singleton]
  by_cases hmoves : id.isGenerated ∧ ids.next ≤ id.serial
  · rw [next_reserve hmoves.1 hmoves.2] at hge
    exact .inr (NodeId.eq_greatest hmoves.1 hge).symm
  · rw [IdSupply.reserve, if_neg (by simpa using hmoves)] at hge
    exact .inl (h.spent hge)

theorem Accounts.reserveAll {ids : IdSupply} {taken : List NodeId} (h : ids.Accounts taken)
    (more : List NodeId) : (ids.reserveAll more).Accounts (taken ++ more) := by
  induction more generalizing ids taken with
  | nil => rwa [List.append_nil]
  | cons id more ih =>
    have hall := ih (h.reserve id)
    rwa [List.append_assoc] at hall

/-- Each request is accounted for. -/
theorem Accounts.serve {ids : IdSupply} {taken : List NodeId} (h : ids.Accounts taken)
    (r : Request α) : (ids.serve r).Accounts (taken ++ (ids.answer r ++ r.reserved)) := by
  cases r with
  | mint => exact h.mint
  | reserve id => exact h.reserve id
  | reserveTree tree => exact h.reserveAll tree.ids

/-- The run law: a supply accounts for what was taken before and during any requests. -/
theorem Accounts.serveAll {ids : IdSupply} {taken : List NodeId} (h : ids.Accounts taken)
    (run : List (Request α)) : (ids.serveAll run).Accounts (taken ++ ids.takenBy run) := by
  induction run generalizing ids taken with
  | nil => rwa [takenBy, List.append_nil]
  | cons r run ih =>
    have hall := ih (h.serve r)
    rwa [List.append_assoc] at hall

/-! ## 5. Runs that rise -/

def Lasts (ids : IdSupply) (taken : List NodeId) (run : List (Request α)) : Prop :=
  -- No identifier is minted once the greatest is taken.
  ∀ before after, run = before ++ .mint :: after → NodeId.greatest ∉ taken ++ ids.takenBy before

theorem Lasts.drop {ids : IdSupply} {taken : List NodeId} {first run : List (Request α)}
    (h : ids.Lasts taken (first ++ run)) :
    (ids.serveAll first).Lasts (taken ++ ids.takenBy first) run := by
  rintro before after rfl
  have hfree := h (first ++ before) after (List.append_assoc _ _ _).symm
  rwa [takenBy_append, ← List.append_assoc] at hfree

theorem takenBy_singleton (ids : IdSupply) (r : Request α) :
    ids.takenBy [r] = ids.answer r ++ r.reserved :=
  List.append_nil _

/-- What is minted in a run is above all that was taken before the run. -/
theorem Accounts.raw_lt_minted {ids : IdSupply} {taken : List NodeId} {run : List (Request α)}
    (h : ids.Accounts taken) (hlasts : ids.Lasts taken run) {id m : NodeId} (hid : id ∈ taken)
    (hm : m ∈ ids.mintedBy run) : id.raw < m.raw := by
  induction run generalizing ids taken with
  | nil => cases hm
  | cons r run ih =>
    rw [mintedBy, List.mem_append] at hm
    rcases hm with hm | hm
    · cases r with
      | mint =>
        have hfree := hlasts [] run rfl
        rw [takenBy, List.append_nil] at hfree
        exact List.mem_singleton.mp hm ▸ h.raw_lt_peek hfree hid
      | _ => cases hm
    · exact ih (h.serveAll [r]) (Lasts.drop hlasts) (List.mem_append_left _ hid) hm

/-- As long as the supply lasts, the ids it mints rise. -/
theorem Accounts.minted_pairwise {ids : IdSupply} {taken : List NodeId} {run : List (Request α)}
    (h : ids.Accounts taken) (hlasts : ids.Lasts taken run) :
    (ids.mintedBy run).Pairwise fun m k => m.raw < k.raw := by
  induction run generalizing ids taken with
  | nil => exact .nil
  | cons r run ih =>
    have hnext := h.serveAll [r]
    have hrest := ih hnext (Lasts.drop hlasts)
    cases r with
    | mint =>
      refine List.pairwise_cons.mpr ⟨fun m hm => ?_, hrest⟩
      exact hnext.raw_lt_minted (Lasts.drop hlasts)
        (List.mem_append_right _ List.mem_cons_self) hm
    | _ => exact hrest

theorem Accounts.rises {ids : IdSupply} {taken : List NodeId} {run : List (Request α)}
    (h : ids.Accounts taken) (hlasts : ids.Lasts taken run) : ids.Rises run := by
  refine ⟨h.minted_pairwise hlasts, ?_⟩
  rintro before r after rfl id hid m hm
  rw [List.append_cons] at hlasts
  refine (h.serveAll (before ++ [r])).raw_lt_minted hlasts.drop ?_ hm
  rw [takenBy_append, takenBy_singleton]
  simp [hid]

/-- Nothing is minted above the greatest identifier, so a run that rises has not taken it before it
mints once more. -/
theorem Rises.lasts {ids : IdSupply} {run : List (Request α)} (h : ids.Rises run) :
    ids.Lasts [] run := by
  rintro before after rfl hgreatest
  have hmint : (ids.serveAll before).peek ∈
      (ids.serveAll before).mintedBy (.mint :: after) := List.mem_cons_self
  have hnot : ∀ m : NodeId, ¬NodeId.greatest.raw < m.raw := fun m =>
    UInt64.not_lt.mpr (NodeId.raw_le_greatest m)
  rcases mem_takenBy hgreatest with hminted | ⟨r, hr, hreserved⟩
  · have hpairwise := h.minted
    rw [mintedBy_append, List.pairwise_append] at hpairwise
    exact hnot _ (hpairwise.2.2 _ hminted _ hmint)
  · obtain ⟨first, second, rfl⟩ := List.append_of_mem hr
    have hlater : (ids.serveAll (first ++ r :: second)).peek ∈
        (ids.serveAll (first ++ [r])).mintedBy (second ++ .mint :: after) := by
      rw [mintedBy_append, List.mem_append, ← serveAll_append, ← List.append_cons]
      exact .inr hmint
    exact hnot _ (h.reserved first r (second ++ .mint :: after) (by simp) _ hreserved _ hlater)

/-- Whatever is asked of a new supply, it mints generated identifiers. Each is above all that were
minted or reserved before it, just if none is minted after the greatest identifier was taken. -/
theorem minted_rise_until_greatest_taken (run : List (Request α)) :
    (∀ m ∈ mintedBy {} run, m.isGenerated) ∧
      (Rises {} run ↔
        ∀ before after, run = before ++ .mint :: after → NodeId.greatest ∉ takenBy {} before) :=
  ⟨fun _ hm => isGenerated_of_mem_mintedBy hm, Rises.lasts, fun h => accounts_nil.rises h⟩

/-- After the greatest identifier is reserved the least generated one is minted. -/
theorem least_minted_after_greatest_reserved :
    NodeId.greatest.isGenerated ∧
      mintedBy {} [.reserve .greatest, .mint (α := Unit)] = [.generated 0] ∧
      (NodeId.generated 0).raw < NodeId.greatest.raw ∧
      ¬∀ run : List (Request Unit), Rises {} run := by
  refine ⟨by decide, by decide, by decide, fun h => ?_⟩
  have habove := (h [.reserve .greatest, .mint]).reserved [] (.reserve .greatest) [.mint] rfl
    .greatest List.mem_cons_self (.generated 0) (by decide)
  exact absurd habove (by decide)

end IdSupply

end Tiling
