import Tiling.Proofs.Leaves
import Tiling.Proofs.Staging

/-!
# Focus and magnification follow the tree

The focused and the magnified node are nodes of the tree. Where an edit or the balancing after it
takes the focused node away, the focus goes to the first leaf, and a magnification ends with its
node. Nothing but an action that asks for it sets either of them.
-/

namespace Tiling

variable {α : Type}

def Action.directsFocus : Action α → Bool
  | .focus _ | .toggleMagnified _ | .insert _ _ true => true
  | _ => false

def Action.directsMagnified : Action α → Bool
  | .toggleMagnified _ | .insert _ true _ => true
  | _ => false

namespace State

/-- The focused and the magnified node are in the tree. -/
structure Anchored (s : State α) : Prop where
  focused_mem : ∀ id, s.focused = some id → id ∈ s.treeIds
  magnified_mem : ∀ id, s.magnified = some id → id ∈ s.treeIds

def refocused (s : State α) (focus : Option NodeId) : Option NodeId :=
  -- A focus in the tree stays, and any other one goes to the first leaf.
  focus.bind fun id => if id ∈ s.treeIds then some id else s.root.bind Node.firstLeafId?

/-! ## 1. Settling -/

theorem any_contains_iff (s : State α) (id : NodeId) :
    s.root.any (·.contains id) ↔ id ∈ s.treeIds := by
  rw [treeIds]
  cases s.root with
  | none => simp
  | some root => exact Node.contains_iff

/-- The first leaf of the cache is the first leaf of the tree. -/
theorem head?_leavesOf (root : Option (Node α)) :
    (leavesOf root).head?.map Node.id = root.bind Node.firstLeafId? := by
  cases root with
  | none => rfl
  | some n => exact List.head?_map.symm

/-- Settling keeps a focus in the tree and moves any other one to the first leaf. -/
theorem settle_focused (s : State α) : s.settle.focused = s.settle.refocused s.focused := by
  have halive := any_contains_iff s.settle
  have hfirst := head?_leavesOf s.settle.root
  show s.focused.bind _ = s.focused.bind _
  refine Option.bind_congr fun id _ => ?_
  rw [← hfirst]
  exact if_congr (halive id) rfl rfl

/-- Settling gives up a magnification whose node is gone. -/
theorem settle_magnified (s : State α) :
    s.settle.magnified = s.magnified.filter (· ∈ s.settle.treeIds) := by
  have halive := any_contains_iff s.settle
  show s.magnified.filter _ = s.magnified.filter _
  refine congrArg (s.magnified.filter ·) (funext fun id => ?_)
  rw [Bool.eq_iff_iff, decide_eq_true_iff]
  exact halive id

theorem firstLeafId?_mem {s : State α} {id : NodeId}
    (h : s.root.bind Node.firstLeafId? = some id) : id ∈ s.treeIds := by
  obtain ⟨root, hroot, hid⟩ := Option.bind_eq_some_iff.mp h
  rw [treeIds_eq hroot]
  exact (Node.leafIds_sublist root).subset (List.mem_of_head? hid)

theorem refocused_mem {s : State α} {focus : Option NodeId} {id : NodeId}
    (h : s.refocused focus = some id) : id ∈ s.treeIds := by
  obtain ⟨k, -, hk⟩ := Option.bind_eq_some_iff.mp h
  split at hk
  · next hin => exact Option.some.inj hk ▸ hin
  · exact firstLeafId?_mem hk

/-- A settled state is anchored, whatever it was before. -/
theorem settle_anchored (s : State α) : s.settle.Anchored := by
  refine ⟨fun id hid => ?_, fun id hid => ?_⟩
  · rw [settle_focused] at hid
    exact refocused_mem hid
  · rw [settle_magnified, Option.filter_eq_some_iff, decide_eq_true_iff] at hid
    exact hid.2

/-- What is anchored is left where it is. -/
theorem Anchored.refocused_eq {s : State α} (hs : s.Anchored) :
    s.refocused s.focused = s.focused := by
  rw [refocused]
  cases hf : s.focused with
  | none => rfl
  | some id => exact if_pos (hs.focused_mem id hf)

theorem Anchored.filter_eq {s : State α} (hs : s.Anchored) :
    s.magnified.filter (· ∈ s.treeIds) = s.magnified := by
  cases hm : s.magnified with
  | none => rfl
  | some id => exact Option.filter_some_pos (decide_eq_true (hs.magnified_mem id hm))

/-- In a settled state the focus has a leaf to go to, unless the tree is empty. -/
theorem Settled.refocused_eq_none {s : State α} (hs : s.Settled) (id : NodeId) :
    s.refocused (some id) = none ↔ s.root = none := by
  show (if id ∈ s.treeIds then some id else s.root.bind Node.firstLeafId?) = none ↔ _
  cases hroot : s.root with
  | none => simp [treeIds, hroot]
  | some root =>
    have hleaves := (Node.leaves_ne_nil_iff root).mpr (hs.forked root hroot).bears
    have hfirst : root.firstLeafId? ≠ none := by
      simpa [Node.firstLeafId?, Node.leafIds, List.head?_eq_none_iff] using hleaves
    refine iff_of_false ?_ (Option.some_ne_none root)
    split
    · exact Option.some_ne_none id
    · exact hfirst

/-! ## 2. One action -/

theorem Anchored.congr {s t : State α} (hs : s.Anchored) (hroot : t.root = s.root)
    (hfocused : t.focused = s.focused) (hmagnified : t.magnified = s.magnified) : t.Anchored := by
  have htree : t.treeIds = s.treeIds := by rw [treeIds, treeIds, hroot]
  refine ⟨fun id hid => ?_, fun id hid => ?_⟩
  · rw [htree]
    exact hs.focused_mem id (hfocused ▸ hid)
  · rw [htree]
    exact hs.magnified_mem id (hmagnified ▸ hid)

theorem mem_treeIds_of_contains {s : State α} {id : NodeId}
    (h : ∃ root, s.root = some root ∧ root.contains id) : id ∈ s.treeIds := by
  obtain ⟨root, hroot, hid⟩ := h
  rw [treeIds_eq hroot]
  exact Node.contains_iff.mp hid

/-- An accepted action keeps focus and magnification in the tree. -/
theorem Anchored.perform {s t : State α} {b : Action α} (hs : s.Anchored)
    (h : s.perform b = .ok t) : t.Anchored := by
  by_cases hb : b.isEdit
  · obtain ⟨r, -, rfl⟩ := perform_edit hb h
    exact settle_anchored r
  · cases b with
    | move | insert | delete | swap | resize => exact absurd rfl hb
    | stageDrop target moved zone =>
      obtain ⟨root, staged, -, -, rfl⟩ := stageDrop_eq_ok h
      exact hs.congr rfl rfl rfl
    | clearStaged =>
      cases h
      exact hs.congr rfl rfl rfl
    | commitStaged => cases h
    | focus id =>
      -- only a node of the tree can be focused
      obtain ⟨hin, ⟨-, rfl⟩ | ⟨-, rfl⟩⟩ := focus_eq_ok h
      · exact hs
      · exact ⟨fun k hk => Option.some.inj hk ▸ mem_treeIds_of_contains hin, hs.magnified_mem⟩
    | toggleMagnified id =>
      obtain ⟨hin, rfl | rfl⟩ := toggleMagnified_eq_ok h
      · exact ⟨hs.focused_mem, nofun⟩
      · exact ⟨fun k hk => Option.some.inj hk ▸ mem_treeIds_of_contains hin,
          fun k hk => Option.some.inj hk ▸ mem_treeIds_of_contains hin⟩

theorem focusAsked_eq {b : Action α} (hb : b.directsFocus = false) (s : State α) :
    s.focusAsked b = s.focused := by
  cases b with
  | insert node magnified focused =>
    cases focused with
    | false => rfl
    | true => cases hb
  | _ => rfl

theorem magnifiedAsked_eq {b : Action α} (hb : b.directsMagnified = false) (s : State α) :
    s.magnifiedAsked b = s.magnified := by
  cases b with
  | insert node magnified focused =>
    cases magnified with
    | false => rfl
    | true => cases hb
  | _ => rfl

/-- A focus that the action does not set itself follows the tree, and so does a magnification. -/
theorem perform_attention {s t : State α} {b : Action α} (hs : s.Anchored)
    (h : s.perform b = .ok t) :
    (b.directsFocus = false → t.focused = t.refocused s.focused) ∧
      (b.directsMagnified = false → t.magnified = s.magnified.filter (· ∈ t.treeIds)) := by
  by_cases hb : b.isEdit
  · obtain ⟨r, hr, rfl⟩ := perform_edit hb h
    have hwrites := edit_writes hr
    refine ⟨fun hno => ?_, fun hno => ?_⟩
    · have hfocused : r.focused = s.focused := by rw [hwrites, focusAsked_eq hno]
      rw [settle_focused, hfocused]
    · have hmagnified : r.magnified = s.magnified := by rw [hwrites, magnifiedAsked_eq hno]
      rw [settle_magnified, hmagnified]
  · cases b with
    | move | insert | delete | swap | resize => exact absurd rfl hb
    | stageDrop target moved zone =>
      obtain ⟨root, staged, -, -, rfl⟩ := stageDrop_eq_ok h
      exact ⟨fun _ => hs.refocused_eq.symm, fun _ => hs.filter_eq.symm⟩
    | clearStaged =>
      cases h
      exact ⟨fun _ => hs.refocused_eq.symm, fun _ => hs.filter_eq.symm⟩
    | commitStaged => cases h
    | focus id =>
      obtain ⟨-, ⟨-, rfl⟩ | ⟨-, rfl⟩⟩ := focus_eq_ok h <;>
        exact ⟨nofun, fun _ => hs.filter_eq.symm⟩
    | toggleMagnified id => exact ⟨nofun, nofun⟩

end State

/-- In every reachable state focus and magnification are in the tree. -/
theorem Reachable.anchored {s : State α} (h : Reachable s) : s.Anchored := by
  induction h with
  | empty => exact ⟨nofun, nofun⟩
  | ofRoot root => exact ⟨nofun, nofun⟩
  | call c _ ih =>
    exact State.call_invariant (fun _ _ _ hs h => hs.perform h) (fun _ hs => hs.congr rfl rfl rfl)
      (fun _ hs => hs.congr rfl rfl rfl) (fun _ _ hs => hs.congr rfl rfl rfl) ih c

/-! ## 3. What a commit performs -/

/-- A drop asks for a swap or a move, and these say nothing about the focus. -/
theorem Node.directs_of_resolveDrop {root : Node α} {target moved : NodeId} {zone : DropZone}
    {a : Action α} (h : root.resolveDrop target moved zone = .ok (some a)) :
    a.directsFocus = false ∧ a.directsMagnified = false := by
  rw [resolveDrop] at h
  split at h
  · cases h
  split at h
  · cases h
  · cases h
  split at h
  · cases h
  split at h
  · obtain ⟨b, hb, h⟩ := State.map_eq_ok h
    cases h
    rw [resolveSwap] at hb
    split at hb
    · cases hb
    split at hb
    · cases hb
    · cases hb
      exact ⟨rfl, rfl⟩
  · split at h
    · cases h
    split at h
    · cases h
    · cases h
      exact ⟨rfl, rfl⟩

/-- To commit never directs the attention, and what is staged does not either. -/
theorem State.directs_performed {s : State α} (hs : s.StagedFits) (a : Action α) :
    (s.performed a).directsFocus = a.directsFocus ∧
      (s.performed a).directsMagnified = a.directsMagnified := by
  cases a with
  | commitStaged =>
    rw [performed]
    cases hstaged : s.staged with
    | none => exact ⟨rfl, rfl⟩
    | some b =>
      obtain ⟨root, target, moved, zone, -, hdrop⟩ := hs b hstaged
      exact Node.directs_of_resolveDrop hdrop
  | _ => exact ⟨rfl, rfl⟩

/-- An action that does not direct the attention leaves it, unless its node is gone. -/
theorem State.step_attention {s : State α} (hs : Reachable s) (a : Action α) :
    (a.directsFocus = false → (s.step a).1.focused = (s.step a).1.refocused s.focused) ∧
      (a.directsMagnified = false →
        (s.step a).1.magnified = s.magnified.filter (· ∈ (s.step a).1.treeIds)) := by
  have hfocused : (s.taken a).focused = s.focused := by cases a <;> rfl
  have hmagnified : (s.taken a).magnified = s.magnified := by cases a <;> rfl
  have htaken : (s.taken a).Anchored := hs.anchored.congr (s.taken_keeps a).1 hfocused hmagnified
  by_cases ha : (s.step a).2 = none
  · obtain ⟨hdirects, hdirects'⟩ := directs_performed hs.stagedFits a
    rw [← hdirects, ← hdirects', ← hfocused, ← hmagnified]
    exact perform_attention htaken (step_accepted ha)
  · -- a rejected request leaves the tree, and what is anchored in it stays
    rw [step_rejected ha, ← hfocused, ← hmagnified]
    exact ⟨fun _ => htaken.refocused_eq.symm, fun _ => htaken.filter_eq.symm⟩

/-- In a reachable state the focused and the magnified node are in the tree. After an action that
does not say itself where the focus goes, it is where it was if that node is still in the tree, and
else on the first leaf; so there is none only if there was none or the tree is empty. In the same
way a magnification stays as long as its node does. -/
theorem focus_and_magnification_follow_tree (s : State α) (hs : Reachable s) :
    s.Anchored ∧ ∀ a : Action α,
      (a.directsFocus = false →
        (s.step a).1.focused = s.focused.bind (fun id =>
          if id ∈ (s.step a).1.treeIds then some id
          else (s.step a).1.root.bind Node.firstLeafId?) ∧
        (s.focused.isSome → ((s.step a).1.focused = none ↔ (s.step a).1.root = none))) ∧
      (a.directsMagnified = false →
        (s.step a).1.magnified = s.magnified.filter (· ∈ (s.step a).1.treeIds)) := by
  refine ⟨hs.anchored, fun a => ?_⟩
  obtain ⟨hfocus, hmagnified⟩ := State.step_attention hs a
  have hsettled : (s.step a).1.Settled := hs.settled.call (.perform a)
  refine ⟨fun ha => ⟨hfocus ha, fun hsome => ?_⟩, hmagnified⟩
  obtain ⟨id, hid⟩ := Option.isSome_iff_exists.mp hsome
  rw [hfocus ha, hid]
  exact hsettled.refocused_eq_none id

/-- The focused container goes when one of its two leaves is deleted, and the magnified leaf with
it. -/
theorem deletion_moves_focus_off_container :
    ∃ s : State Unit, Reachable s ∧ s.focused = some ⟨3⟩ ∧ s.magnified = some ⟨4⟩ ∧
      (s.step (.delete ⟨4⟩)).1.focused = some ⟨2⟩ ∧
      (s.step (.delete ⟨4⟩)).1.magnified = none := by
  let pane (n : UInt64) : Node Unit := .leaf { id := ⟨n⟩ } ()
  let column : Node Unit := .branch { id := ⟨3⟩, orientation := .column } [pane 4, pane 5]
  let s := ((State.ofRoot (.branch { id := ⟨1⟩ } [pane 2, column])).call
    (.perform (.toggleMagnified ⟨4⟩))).call (.perform (.focus ⟨3⟩))
  have hs : Reachable s := .call _ (.call _ (.ofRoot _))
  have hfollow := (focus_and_magnification_follow_tree s hs).2 (.delete ⟨4⟩)
  have hfocused : s.focused = some ⟨3⟩ := by decide +kernel
  have hmagnified : s.magnified = some ⟨4⟩ := by decide +kernel
  have htree : (s.step (.delete ⟨4⟩)).1.treeIds = [⟨1⟩, ⟨2⟩, ⟨5⟩] := by decide +kernel
  have hfirst : (s.step (.delete ⟨4⟩)).1.root.bind Node.firstLeafId? = some ⟨2⟩ := by
    decide +kernel
  refine ⟨s, hs, hfocused, hmagnified, ?_, ?_⟩
  · rw [(hfollow.1 rfl).1, hfocused, htree, hfirst]
    decide
  · rw [hfollow.2 rfl, hmagnified, htree]
    decide

end Tiling
