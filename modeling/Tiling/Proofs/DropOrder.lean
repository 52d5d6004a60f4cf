import Tiling.Proofs.Relocation

/-!
# Where a drop puts the leaves

A drop onto a side takes the leaves of the moved node out of the leaf sequence and puts them back as
one block, directly before or after what is left of the anchor. All other leaves keep their order.
-/

namespace Tiling

variable {α : Type}

open Node Context

namespace Node

/-- The block lies directly before or directly after the sequence, whichever the zone says. -/
def Adjoins (zone : DropZone) (block before after : List NodeId) : Prop :=
  if zone.offset = 0 then block <+: after else block <:+ before

/-- A spot next to a block keeps the moved leaves beside what is left of it. -/
theorem adjoins_of_nextTo {zone : DropZone} {f : Frame α} {b : Node α} (h : f.NextTo zone b)
    (gone before after : List NodeId) :
    Adjoins zone (b.leafIds.filter (· ∉ gone))
      (before ++ (f.before.flatMap leafIds).filter (· ∉ gone))
      ((f.after.flatMap leafIds).filter (· ∉ gone) ++ after) := by
  rw [Frame.NextTo] at h
  rw [Adjoins]
  split at h
  · next hzero =>
    obtain ⟨rest, hrest⟩ := List.head?_eq_some_iff.mp h
    rw [if_pos hzero, hrest, List.flatMap_cons, List.filter_append, List.append_assoc]
    exact List.prefix_append _ _
  · next hone =>
    obtain ⟨rest, hrest⟩ := List.getLast?_eq_some_iff.mp h
    rw [if_neg hone, hrest, List.flatMap_append, List.flatMap_singleton, List.filter_append,
      ← List.append_assoc]
    exact List.suffix_append _ _

/-- A node that stays next to the anchor has landed there. -/
theorem Stays.landed {root host anchor m : Node α} {zone : DropZone}
    (h : Stays root host anchor m zone) (hf : m.Forked) : Landed root host anchor m zone root := by
  obtain ⟨hparent, f, rfl, hnext⟩ := h
  obtain ⟨c, rfl, -⟩ := exists_plug_of_parent? hparent
  have hopens : (f.fill m).Opens anchor zone m.leafIds f := by
    refine ⟨rfl, ?_, anchor, hnext, rfl⟩
    rw [Frame.fill, leafIds_branch, List.flatMap_append, List.flatMap_cons, List.filter_append,
      List.filter_append, List.filter_append, filter_not_mem_self, List.nil_append]
  have hlanded : Landed (plug c (f.fill m)) (f.fill m) anchor m zone (plug (c ++ [f]) m) :=
    .intro rfl hopens (.refl _ c) ⟨rfl, rfl, rfl⟩ (copyOf_self hf)
  rwa [plug_append] at hlanded

theorem filter_not_mem_of_disjoint {l gone : List NodeId} (h : ∀ id ∈ l, id ∉ gone) :
    l.filter (· ∉ gone) = l :=
  List.filter_eq_self.mpr fun id hid => decide_eq_true (h id hid)

/-- The leaves are those of the old tree without the node, with the node's own next to what is left
of the anchor. -/
theorem Landed.leafIds_eq {root host anchor m tree : Node α} {zone : DropZone}
    (h : Landed root host anchor m zone tree) (hd : tree.ids.Nodup) :
    ∃ before after, root.leafIds.filter (· ∉ m.leafIds) = before ++ after ∧
      tree.leafIds = before ++ m.leafIds ++ after ∧
      Adjoins zone (anchor.leafIds.filter (· ∉ m.leafIds)) before after := by
  cases h with
  | @intro c c' f f' copy hroot hopens hc hf hcopy =>
    have hleaves := leafIds_plug (c' ++ [f']) copy
    rw [hcopy.leafIds_eq] at hleaves
    -- the tree has no leaf twice, so around the copy there is none of its leaves
    have hnodup := hd.sublist (leafIds_sublist _)
    rw [hleaves, List.nodup_append, List.nodup_append] at hnodup
    obtain ⟨⟨-, -, hbefore⟩, -, hafter⟩ := hnodup
    have hB : leavesBefore (c' ++ [f']) = (leavesBefore c).filter (· ∉ m.leafIds) ++
        (f.before.flatMap leafIds).filter (· ∉ m.leafIds) := by
      rw [← filter_not_mem_of_disjoint fun id hid hm => hbefore id hid id hm rfl]
      simp only [leavesBefore_append, leavesBefore, List.append_nil, List.filter_append]
      rw [hc.leaves_eq.1, hf.before_eq]
    have hA : leavesAfter (c' ++ [f']) = (f.after.flatMap leafIds).filter (· ∉ m.leafIds) ++
        (leavesAfter c).filter (· ∉ m.leafIds) := by
      rw [← filter_not_mem_of_disjoint fun id hid hm =>
        hafter id (List.mem_append_right _ hm) id hid rfl]
      simp only [leavesAfter_append, leavesAfter, List.nil_append, List.filter_append]
      rw [hc.leaves_eq.2, hf.after_eq]
    rw [hB, hA] at hleaves
    refine ⟨_, _, ?_, hleaves, ?_⟩
    · have hhost := hopens.leaves_eq
      rw [List.filter_append] at hhost
      rw [hroot, leafIds_plug, List.filter_append, List.filter_append, ← hhost]
      simp only [List.append_assoc]
    · obtain ⟨b, hnext, hb⟩ := hopens.next
      rw [← hb]
      exact adjoins_of_nextTo hnext m.leafIds _ _

end Node

namespace State

def leafIds (s : State α) : List NodeId :=
  s.leaves.map Node.id

theorem leafIds_settle {s : State α} {tree : Node α} (h : s.root = some tree) :
    s.settle.leafIds = tree.leafIds := by
  show (leavesOf (s.root.bind balance?)).map Node.id = _
  rw [h, Option.bind_some]
  cases hb : tree.balance? with
  | none =>
    rw [balance?, Option.map_eq_none_iff] at hb
    rw [← leafIds_prune? tree, hb]
    rfl
  | some n => exact leafIds_of_balance? hb

end State

/-- A drop onto a side of a leaf is accepted, and so is the commit of what it stages. Afterwards the
leaves of the moved node are one block, directly before or after what is left of the anchor, and the
other leaves are as they were. -/
theorem drop_moves_leaves_beside (s : State α) (root t m : Node α) (zone : DropZone)
    (axis : Orientation) (hs : Reachable s) (hd : s.treeIds.Nodup)
    (hbound : s.ids.next.toNat < 2 ^ 63) (hroot : s.root = some root) (ht : t ∈ root.nodes)
    (hleaf : t.isLeaf) (hm : m ∈ root.nodes) (hout : t.id ∉ m.ids)
    (hzone : zone.axis? = some axis) :
    (s.step (.stageDrop t.id m.id zone)).2 = none ∧
    ((s.apply (.stageDrop t.id m.id zone)).staged ≠ none →
      ((s.apply (.stageDrop t.id m.id zone)).step .commitStaged).2 = none) ∧
    ∃ before after, s.leafIds.filter (· ∉ m.leafIds) = before ++ after ∧
      (s.afterDrop t.id m.id zone).leafIds = before ++ m.leafIds ++ after ∧
      Adjoins zone ((root.dropAnchor t zone).leafIds.filter (· ∉ m.leafIds)) before after := by
  have hcovers := hs.covers
  rw [State.treeIds_eq hroot] at hd hcovers
  have hdrop : root.Droppable t m :=
    ⟨hs.settled.normalForm root hroot, hd, ht, hleaf, hm, hout⟩
  have hleaves : s.leafIds = root.leafIds := by
    rw [State.leafIds, hs.settled.leaves_eq, hroot]
    rfl
  obtain ⟨haccepted, houtcome⟩ := State.afterDrop_outcome hdrop hroot hcovers hbound hzone
  refine ⟨haccepted, ?_⟩
  rw [hleaves]
  generalize s.afterDrop t.id m.id zone = after at houtcome ⊢
  cases houtcome with
  | stays hstaged hstays =>
    refine ⟨fun h => absurd hstaged h, ?_⟩
    have hlanded := hstays.landed (hdrop.normalForm.forked.of_mem_nodes hm)
    show ∃ before after, _ ∧ s.leafIds = _ ∧ _
    rw [hleaves]
    exact hlanded.leafIds_eq hd
  | moves hcommit htree hrelocated =>
    refine ⟨fun _ => hcommit, ?_⟩
    rw [State.leafIds_settle htree]
    exact hrelocated.landed.leafIds_eq hrelocated.nodup

/-- The first pane of a row goes past the column beside it: the zone is an outer one, so the anchor
is the column. -/
theorem outer_drop_passes_column :
    ∃ (s : State Unit) (before after : List NodeId), s.leafIds = [⟨2⟩, ⟨4⟩, ⟨5⟩] ∧
      s.leafIds.filter (· ∉ [⟨2⟩]) = before ++ after ∧
      (s.afterDrop ⟨4⟩ ⟨2⟩ .outerRight).leafIds = before ++ [⟨2⟩] ++ after ∧
      Adjoins .outerRight [⟨4⟩, ⟨5⟩] before after := by
  let pane (n : UInt64) : Node Unit := .leaf { id := ⟨n⟩ } ()
  let s := State.ofRoot (.branch { id := ⟨1⟩ } [pane 2, .branch { id := ⟨3⟩ } [pane 4, pane 5]])
  have hd : s.treeIds.Nodup := by decide +kernel
  have hbound : s.ids.next.toNat < 2 ^ 63 := by decide +kernel
  have hparts : (s.root.bind fun root => (root.find? ⟨4⟩).bind fun t =>
      (root.find? ⟨2⟩).map fun m =>
        (t.isLeaf, m.ids, m.leafIds, (root.dropAnchor t .outerRight).leafIds)) =
        some (true, [⟨2⟩], [⟨2⟩], [⟨4⟩, ⟨5⟩]) := by decide +kernel
  obtain ⟨root, t, m, hroot, ht, hm, htid, hmid, hparts⟩ := State.exists_of_finds hparts
  simp only [Prod.mk.injEq] at hparts
  obtain ⟨hleaf, hids, hleaves, hanchor⟩ := hparts
  have hout : t.id ∉ m.ids := by
    rw [htid, hids]
    decide
  obtain ⟨-, -, before, after, hfilter, hafter, hblock⟩ :=
    drop_moves_leaves_beside s root t m .outerRight .row (.ofRoot _) hd hbound hroot
      ht hleaf hm hout rfl
  rw [htid, hmid, hleaves] at hafter
  rw [hanchor, hleaves] at hblock
  rw [hleaves] at hfilter
  exact ⟨s, before, after, by decide +kernel, hfilter, hafter, hblock⟩

end Tiling
