import Tiling.Proofs.Staging

/-!
# Distinct and fresh identifiers

Along a run in which the host hands in nodes of distinct identifiers, no two nodes of the tree share
one, and what is minted was never seen before: not in any earlier tree, nor minted earlier. The
supply covers all that the run has seen.
-/

namespace Tiling

variable {α : Type}

open Node

/-! ## 1. Runs -/

def Call.carried? : Call α → Option (Node α)
  | .perform a => a.carried?
  | _ => none

/-- A new node that is handed in has distinct identifiers. -/
def Call.Sound (s : State α) (c : Call α) : Prop :=
  ∀ node, c.carried? = some node → node.id ∉ s.treeIds → node.ids.Nodup

def State.minted (s : State α) : Call α → List NodeId
  | .perform a => if (s.step a).2.isNone then s.mintedBy (s.performed a) else []
  | .mintId => [s.mintId.1]
  | .newLeaf datum => [(s.newLeaf datum).1.id]
  | .configure _ => []

/-- A run to a state, with all identifiers that were in the tree or were minted on the way. -/
inductive Run : State α → List NodeId → Prop where
  | empty : Run .empty []
  | ofRoot (root : Node α) (h : root.ids.Nodup) : Run (.ofRoot root) root.ids
  | call {s : State α} {seen : List NodeId} (c : Call α) (h : Run s seen) (hc : c.Sound s) :
      Run (s.call c) (seen ++ (s.minted c ++ (s.call c).treeIds))

theorem Run.reachable {s : State α} {seen : List NodeId} (h : Run s seen) : Reachable s := by
  induction h with
  | empty => exact .empty
  | ofRoot root h => exact .ofRoot root
  | call c _ _ ih => exact .call c ih

/-! ## 2. One call -/

namespace State

/-- An id that an action brings in is minted for it or carried by it. -/
theorem mem_gainedBy {s : State α} {b : Action α} {id : NodeId} (h : id ∈ s.gainedBy b) :
    id ∈ s.mintedBy b ∨
      ∃ node, b.carried? = some node ∧ node.id ∉ s.treeIds ∧ id ∈ node.ids := by
  cases hcarried : b.carried? with
  | none =>
    rw [gainedBy_of_carries_none hcarried] at h
    cases h
  | some node =>
    by_cases hmem : node.id ∈ s.treeIds
    · rw [gainedBy_of_mem hcarried hmem] at h
      exact .inl h
    · rcases (mem_gainedBy_of_new hcarried hmem id).mp h with hnode | ⟨-, hminted⟩
      · exact .inr ⟨node, rfl, hmem, node.survivors_sublist.subset hnode⟩
      · exact .inl hminted

/-- A new node comes into the tree with the call that hands it in: what is staged carries a node of
the tree. -/
theorem carried_of_performed {s : State α} {a : Action α} {node : Node α} (hs : Reachable s)
    (hd : s.treeIds.Nodup) (h : (s.performed a).carried? = some node)
    (hnew : node.id ∉ s.treeIds) : a.carried? = some node := by
  cases a with
  | commitStaged =>
    rw [performed] at h
    cases hstaged : s.staged with
    | none =>
      rw [hstaged] at h
      cases h
    | some b =>
      rw [hstaged, Option.getD_some] at h
      obtain ⟨root, target, moved, zone, hroot, hdrop⟩ := hs.stagedFits b hstaged
      -- the swap carries nothing, and a move carries what it found in the tree
      rw [treeIds_eq hroot] at hd hnew
      cases resolveDrop_fits hd hdrop with
      | swap => cases h
      | under hnode | besideRoot hnode =>
        cases h
        exact absurd (id_mem_of_mem_nodes hnode) hnew
  | _ => exact h

/-- An action is accepted and performed, or nothing happens to the tree and the supply. -/
theorem call_perform_cases (s : State α) (a : Action α) :
    ((s.taken a).perform (s.performed a) = .ok (s.call (.perform a)) ∧
        s.minted (.perform a) = s.mintedBy (s.performed a)) ∨
      ((s.call (.perform a)).treeIds = s.treeIds ∧ (s.call (.perform a)).ids = s.ids ∧
        s.minted (.perform a) = []) := by
  by_cases ha : (s.step a).2 = none
  · exact .inl ⟨step_accepted ha, by rw [minted, ha]; rfl⟩
  · have hcall : s.call (.perform a) = s.taken a := step_rejected ha
    rw [hcall, minted, if_neg (by rwa [Option.isNone_iff_eq_none])]
    exact .inr ⟨(s.accounts_taken a a).1, (s.taken_keeps a).2.2.1, rfl⟩

/-- The counter does not fall, and it passes what is minted and the tree. -/
theorem call_covers {s : State α} (hs : Reachable s) (c : Call α) :
    s.ids.next ≤ (s.call c).ids.next ∧
      (s.call c).ids.Covers (s.minted c ++ (s.call c).treeIds) := by
  have hmint : s.ids.next ≤ s.ids.advance.next ∧ s.ids.advance.Covers ([s.ids.peek] ++ s.treeIds) :=
    ⟨s.ids.next_le_advance, IdSupply.covers_append.mpr
      ⟨IdSupply.covers_advance s.ids, hs.covers.mono s.ids.next_le_advance⟩⟩
  cases c with
  | perform a =>
    rcases call_perform_cases s a with ⟨hperform, hminted⟩ | ⟨htree, hids, hminted⟩
    · have hids := (s.taken_keeps a).2.2.1
      obtain ⟨htree, -, -, hsame, -⟩ := s.accounts_taken a (s.performed a)
      have hcovers := perform_covers (hs.settled.taken a) hperform (by
        rw [hids, htree]
        exact hs.covers)
      rw [hids, hsame, ← hminted] at hcovers
      exact hcovers
    · rw [htree, hids, hminted]
      exact ⟨UInt64.le_refl _, hs.covers⟩
  | mintId => exact hmint
  | newLeaf datum => exact hmint
  | configure config => exact ⟨UInt64.le_refl _, hs.covers⟩

/-- What a call mints is generated and not covered before. -/
theorem call_fresh {s : State α} (hs : Reachable s) (c : Call α)
    (hbound : (s.call c).ids.next.toNat < 2 ^ 63) {id : NodeId} (hid : id ∈ s.minted c) :
    id.isGenerated ∧ ∀ l, s.ids.Covers l → id ∉ l := by
  have hpeek : s.ids.advance.next.toNat < 2 ^ 63 → id ∈ [s.ids.peek] →
      id.isGenerated ∧ ∀ l, s.ids.Covers l → id ∉ l := by
    intro hlt hid
    have hle := UInt64.le_iff_toNat_le.mp s.ids.next_le_advance
    rw [List.mem_singleton.mp hid]
    exact ⟨s.ids.isGenerated_peek, fun l hl => hl.peek_not_mem (Nat.lt_of_le_of_lt hle hlt)⟩
  cases c with
  | perform a =>
    rcases call_perform_cases s a with ⟨hperform, hminted⟩ | ⟨-, -, hminted⟩
    · rw [hminted, ← (s.accounts_taken a (s.performed a)).2.2.2.1] at hid
      obtain ⟨hgen, hnew, -⟩ := perform_minted (hs.settled.taken a) hperform hbound hid
      rw [(s.taken_keeps a).2.2.1] at hnew
      exact ⟨hgen, hnew⟩
    · rw [hminted] at hid
      cases hid
  | mintId => exact hpeek hbound hid
  | newLeaf datum => exact hpeek hbound hid
  | configure config => cases hid

theorem nodup_minted (s : State α) (c : Call α) : (s.minted c).Nodup := by
  cases c with
  | perform a =>
    rw [minted]
    split
    · exact s.nodup_mintedBy _
    · exact List.nodup_nil
  | mintId => exact List.nodup_singleton _
  | newLeaf datum => exact List.nodup_singleton _
  | configure config => exact List.nodup_nil

/-- One call keeps identifiers distinct, and each one of the new tree is accounted for. -/
theorem call_nodup {s : State α} (hs : Reachable s) (hd : s.treeIds.Nodup) {c : Call α}
    (hc : c.Sound s) (hbound : (s.call c).ids.next.toNat < 2 ^ 63) :
    (s.call c).treeIds.Nodup ∧ ∀ id ∈ (s.call c).treeIds, id ∈ s.treeIds ∨
      (∃ node, c.carried? = some node ∧ id ∈ node.ids) ∨ id ∈ s.minted c := by
  cases c with
  | perform a =>
    rcases call_perform_cases s a with ⟨hperform, hminted⟩ | ⟨htree, -, -⟩
    · obtain ⟨htree, hlost, hgained, -⟩ := s.accounts_taken a (s.performed a)
      have haccounted := perform_accounted (hs.settled.taken a) hperform (htree ▸ hd)
        (by rw [(s.taken_keeps a).2.2.1, htree]; exact hs.covers) hbound
      have hchange := haccounted.change
      rw [htree, hlost, hgained] at hchange
      have hcarried : ∀ node, (s.performed a).carried? = some node → node.id ∉ s.treeIds →
          a.carried? = some node := fun _ => carried_of_performed hs hd
      refine ⟨haccounted.nodup fun node hnode hnew => ?_, fun id hid => ?_⟩
      · rw [htree] at hnew
        exact hc node (hcarried node hnode hnew) hnew
      · rcases (hchange.mem_new id).mp hid with ⟨hold, -⟩ | hgain
        · exact .inl hold
        · rcases mem_gainedBy hgain with hmint | ⟨node, hnode, hnew, hin⟩
          · exact .inr (.inr (hminted ▸ hmint))
          · exact .inr (.inl ⟨node, hcarried node hnode hnew, hin⟩)
    · rw [htree]
      exact ⟨hd, fun id hid => .inl hid⟩
  | mintId => exact ⟨hd, fun id hid => .inl hid⟩
  | newLeaf datum => exact ⟨hd, fun id hid => .inl hid⟩
  | configure config => exact ⟨hd, fun id hid => .inl hid⟩

end State

/-! ## 3. Runs keep identifiers distinct -/

/-- While the counter is below `2 ^ 63`, the tree has distinct identifiers and the supply covers all
that the run has seen. -/
theorem Run.sound {s : State α} {seen : List NodeId} (h : Run s seen)
    (hbound : s.ids.next.toNat < 2 ^ 63) :
    s.treeIds.Nodup ∧ s.treeIds ⊆ seen ∧ s.ids.Covers seen := by
  induction h with
  | empty => exact ⟨List.nodup_nil, List.Subset.refl _, IdSupply.covers_nil _⟩
  | ofRoot root h =>
    rw [State.treeIds_ofRoot]
    exact ⟨h.sublist root.survivors_sublist, root.survivors_sublist.subset,
      State.covers_ofRoot root⟩
  | @call s seen c h hc ih =>
    obtain ⟨hle, hcovers⟩ := State.call_covers h.reachable c
    -- the counter only rises, so the bound held before the call too
    obtain ⟨hd, -, hseen⟩ := ih (Nat.lt_of_le_of_lt (UInt64.le_iff_toNat_le.mp hle) hbound)
    refine ⟨(State.call_nodup h.reachable hd hc hbound).1, fun id hid => ?_, ?_⟩
    · exact List.mem_append_right _ (List.mem_append_right _ hid)
    · -- what was covered stays covered, whether it is still in the tree or not
      exact IdSupply.covers_append.mpr ⟨hseen.mono hle, hcovers⟩

/-- In every state of a run the tree has distinct identifiers. Each call mints generated identifiers
that the run has not seen before, and every identifier of the new tree was in the old one, came with
the call or was minted by it. -/
theorem run_ids_distinct_and_fresh (s : State α) (seen : List NodeId) (h : Run s seen)
    (hbound : s.ids.next.toNat < 2 ^ 63) :
    s.treeIds.Nodup ∧ s.treeIds ⊆ seen ∧
      ∀ c : Call α, c.Sound s → (s.call c).ids.next.toNat < 2 ^ 63 →
        (s.minted c).Nodup ∧ (∀ id ∈ s.minted c, id.isGenerated ∧ id ∉ seen) ∧
        ∀ id ∈ (s.call c).treeIds, id ∈ s.treeIds ∨
          (∃ node, c.carried? = some node ∧ id ∈ node.ids) ∨ id ∈ s.minted c := by
  obtain ⟨hd, hsubset, hcovers⟩ := h.sound hbound
  refine ⟨hd, hsubset, fun c hc hnext => ⟨s.nodup_minted c, fun id hid => ?_, ?_⟩⟩
  · obtain ⟨hgen, hnew⟩ := State.call_fresh h.reachable c hnext hid
    exact ⟨hgen, hnew seen hcovers⟩
  · exact (State.call_nodup h.reachable hd hc hnext).2

theorem wrapper_is_fresh :
    ∃ (s : State Unit) (c : Call Unit), s.treeIds = [⟨1⟩] ∧ s.minted c = [.generated 1] ∧
      ∀ id ∈ s.minted c, id.isGenerated ∧ id ∉ [⟨1⟩] := by
  let first : Call Unit := .perform (.insert (.leaf { id := ⟨1⟩ } ()) false false)
  let second : Call Unit := .perform (.insert (.leaf { id := ⟨2⟩ } ()) false false)
  have hsound : ∀ (s : State Unit) n, Call.Sound s
      (.perform (.insert (.leaf { id := n } ()) false false)) := by
    rintro s n node h -
    cases h
    rw [Node.ids_leaf]
    exact List.nodup_singleton _
  have hrun : Run (State.empty.call first) [⟨1⟩] := .call first .empty (hsound _ _)
  have hfresh := run_ids_distinct_and_fresh _ _ hrun (by decide)
  exact ⟨_, second, rfl, by decide, (hfresh.2.2 second (hsound _ _) (by decide)).2.1⟩

end Tiling
