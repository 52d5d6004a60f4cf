import Tiling.Proofs.Distinct
import Tiling.Proofs.Leaves

/-!
# Two holes in one tree

A tree that holds a node twice is plugged in two ways. The paths to the two copies part at some
branch, so the copy in one hole lies below a sibling on the path to the other: to empty its hole
changes that one frame, and takes from the frame's leaves those of the copy.
-/

namespace Tiling

variable {α : Type}

open Node

/-! ## 1. A hole that stays empty -/

namespace Context

/-- What is left of a tree around a hole that stays empty. -/
def vacant : Context α → Forest α
  | [] => []
  | f :: c => [.branch f.header (f.before ++ (vacant c ++ f.after))]

/-- The leaves around a hole are those before it and those after. -/
theorem leafIds_vacant (c : Context α) :
    (vacant c).flatMap leafIds = leavesBefore c ++ leavesAfter c := by
  induction c with
  | nil => rfl
  | cons f c ih => simp [vacant, ih, leavesBefore, leavesAfter]

theorem vacant_concat (c : Context α) (h : Header) (x y : Forest α) :
    vacant (c ++ [⟨h, x, y⟩]) = [plug c (.branch h (x ++ y))] := by
  induction c with
  | nil => rfl
  | cons f c ih => rw [List.cons_append, vacant, ih, List.singleton_append, plug_cons, Frame.fill]

end Context

open Context

/-! ## 2. Frames that lose leaves -/

theorem filter_not_mem_self (l : List NodeId) : l.filter (· ∉ l) = [] := by
  simp

/-- The frame afterwards is the frame before, but for the leaves `gone` beside its hole. -/
structure Frame.Sheds (gone : List NodeId) (f g : Frame α) : Prop where
  header_eq : g.header = f.header
  before_eq : (g.before.flatMap leafIds).filter (· ∉ gone) =
    (f.before.flatMap leafIds).filter (· ∉ gone)
  after_eq : (g.after.flatMap leafIds).filter (· ∉ gone) =
    (f.after.flatMap leafIds).filter (· ∉ gone)

def Context.Sheds (gone : List NodeId) (c d : Context α) : Prop :=
  List.Forall₂ (Frame.Sheds gone) c d

namespace Context

theorem Sheds.refl (gone : List NodeId) (c : Context α) : Sheds gone c c :=
  List.forall₂_same.mpr fun _ _ => ⟨rfl, rfl, rfl⟩

theorem Sheds.headers_eq {gone : List NodeId} {c d : Context α} (h : Sheds gone c d) :
    d.map Frame.header = c.map Frame.header := by
  induction h with
  | nil => rfl
  | cons hf _ ih => rw [List.map_cons, List.map_cons, hf.header_eq, ih]

/-- Shedding takes no leaf but those that are gone. -/
theorem Sheds.leaves_eq {gone : List NodeId} {c d : Context α} (h : Sheds gone c d) :
    (leavesBefore d).filter (· ∉ gone) = (leavesBefore c).filter (· ∉ gone) ∧
      (leavesAfter d).filter (· ∉ gone) = (leavesAfter c).filter (· ∉ gone) := by
  induction h with
  | nil => exact ⟨rfl, rfl⟩
  | cons hf _ ih =>
    simp only [leavesBefore, leavesAfter, List.filter_append]
    rw [hf.before_eq, hf.after_eq, ih.1, ih.2]
    exact ⟨rfl, rfl⟩

/-- The hole of a frame that loses leaves sits where it did. -/
theorem Sheds.of_concat {gone : List NodeId} {c d : Context α} {f : Frame α}
    (h : Sheds gone (c ++ [f]) d) :
    ∃ c' f', d = c' ++ [f'] ∧ Sheds gone c c' ∧ f.Sheds gone f' := by
  induction c generalizing d with
  | nil =>
    rcases h with _ | ⟨hf, ⟨⟩⟩
    exact ⟨[], _, rfl, .nil, hf⟩
  | cons g c ih =>
    rcases h with _ | ⟨hg, hrest⟩
    obtain ⟨c', f', rfl, hc, hf⟩ := ih hrest
    exact ⟨_ :: c', f', rfl, .cons hg hc, hf⟩

end Context

/-! ## 3. Two copies of a node -/

/-- Two ways to cut one list: at the same place, or one cut lies before the other. -/
theorem append_cons_cases {β : Type} {x x' y y' : List β} {a b : β}
    (h : x ++ a :: y = x' ++ b :: y') :
    (x = x' ∧ a = b ∧ y = y') ∨ (∃ z, x = x' ++ b :: z ∧ y' = z ++ a :: y) ∨
      ∃ z, x' = x ++ a :: z ∧ y = z ++ b :: y' := by
  rcases List.append_eq_append_iff.mp h with ⟨z, hx, hz⟩ | ⟨z, hx, hz⟩
  · cases z with
    | nil =>
      obtain ⟨rfl, rfl⟩ := List.cons.inj hz
      exact .inl ⟨by simpa using hx.symm, rfl, rfl⟩
    | cons e z =>
      obtain ⟨rfl, rfl⟩ := List.cons.inj hz
      exact .inr (.inr ⟨z, hx, rfl⟩)
  · cases z with
    | nil =>
      obtain ⟨rfl, rfl⟩ := List.cons.inj hz
      exact .inl ⟨by simpa using hx, rfl, rfl⟩
    | cons e z =>
      obtain ⟨rfl, rfl⟩ := List.cons.inj hz
      exact .inr (.inl ⟨z, hx, rfl⟩)

namespace Context

/-- A forest without the copy in its hole has the forest's leaves but for those of the copy. -/
theorem filter_leafIds_vacant (c : Context α) (k : Node α) :
    ((vacant c).flatMap leafIds).filter (· ∉ k.leafIds) =
      (plug c k).leafIds.filter (· ∉ k.leafIds) := by
  rw [leafIds_vacant, leafIds_plug, List.filter_append, List.filter_append, List.filter_append,
    filter_not_mem_self, List.append_nil]

/-- Of two copies of a node one is taken out of its hole. The other stays in its own, whose frames
lose the leaves of the copy. -/
theorem exists_vacant_eq {c d : Context α} {m k : Node α} (h : plug c m = plug d k) (hne : c ≠ d)
    (hlen : m.ids.length = k.ids.length) :
    ∃ c', vacant d = [plug c' m] ∧ Sheds k.leafIds c c' := by
  induction c generalizing d with
  | nil =>
    cases d with
    | nil => exact absurd rfl hne
    | cons g d =>
      -- the one copy would be a proper part of the other
      have hlt := length_ids_fill g d k
      rw [← plug_cons, ← h, plug_nil] at hlt
      omega
  | cons f c ih =>
    cases d with
    | nil =>
      have hlt := length_ids_fill f c m
      rw [← plug_cons, h, plug_nil] at hlt
      omega
    | cons g d =>
      rw [plug_cons, plug_cons, Frame.fill, Frame.fill, branch.injEq] at h
      obtain ⟨hheader, hforest⟩ := h
      rw [vacant, ← hheader]
      -- the paths go on together, or the copy to be taken out is before the other path or after it
      rcases append_cons_cases hforest with ⟨hb, hplug, ha⟩ | ⟨z, hb, ha⟩ | ⟨z, hb, ha⟩
      · have hrest : c ≠ d := by
          rintro rfl
          refine hne ?_
          cases f
          cases g
          simp_all
        obtain ⟨c', hvacant, hsheds⟩ := ih hplug hrest
        refine ⟨f :: c', ?_, .cons ⟨rfl, rfl, rfl⟩ hsheds⟩
        rw [hvacant, ← hb, ← ha, List.singleton_append, plug_cons, Frame.fill]
      · refine ⟨⟨f.header, g.before ++ (vacant d ++ z), f.after⟩ :: c, ?_,
          .cons ⟨rfl, ?_, rfl⟩ (Sheds.refl _ c)⟩
        · rw [ha, plug_cons, Frame.fill, List.append_assoc, List.append_assoc]
        · simp only [hb, List.flatMap_append, List.flatMap_cons, List.filter_append]
          rw [filter_leafIds_vacant]
      · refine ⟨⟨f.header, f.before, z ++ (vacant d ++ g.after)⟩ :: c, ?_,
          .cons ⟨rfl, rfl, ?_⟩ (Sheds.refl _ c)⟩
        · rw [hb, plug_cons, Frame.fill, List.append_assoc, List.cons_append]
        · simp only [ha, List.flatMap_append, List.flatMap_cons, List.filter_append]
          rw [filter_leafIds_vacant]

end Context

end Tiling
