import Tiling.Proofs.Pruning
import Tiling.Proofs.Relocation

/-!
# Along which line a drop arranges

The host runs along the axis of the zone, and after the drop it is where the target and the moved
node meet. When the old parent is left with one child it gives way to that child, and all below it
is turned. So the two nodes are arranged along the axis unless the old parent was a branch of two
above the host, the root excepted, whose remaining child keeps its orientation.
-/

namespace Tiling

variable {α : Type}

open Node Context

namespace Node

def meet? (n : Node α) (a b : NodeId) : Option (Node α) :=
  -- Of the nodes that have both, the one that comes last is the closest ancestor.
  (n.nodes.filter fun k => k.contains a && k.contains b).getLast?

/-- Whether moving the node to the host costs a branch above the host, the root excepted. -/
def collapsesAbove (root : Node α) (moved host : NodeId) : Bool :=
  match root.parent? moved with
  | some p => p.children.length = 2 ∧ p.id ≠ root.id ∧ host ≠ p.id ∧ host ∈ p.ids
  | none => false

/-! ## 1. Where two nodes meet -/

def Parts (n : Node α) (a b : NodeId) : Prop :=
  ∀ k ∈ n.children, ¬(a ∈ k.ids ∧ b ∈ k.ids)

/-- A node below a child has no more than the child has. -/
theorem filter_both_eq_nil {cs : Forest α} {a b : NodeId}
    (h : ∀ c ∈ cs, ¬(a ∈ c.ids ∧ b ∈ c.ids)) :
    (cs.flatMap nodes).filter (fun k => k.contains a && k.contains b) = [] := by
  rw [List.filter_eq_nil_iff]
  intro k hk hboth
  obtain ⟨c, hc, hkc⟩ := List.mem_flatMap.mp hk
  rw [Bool.and_eq_true, contains_iff, contains_iff] at hboth
  exact h c hc ⟨mem_ids_trans hboth.1 hkc, mem_ids_trans hboth.2 hkc⟩

/-- Two ids meet at the node below which their ways part, wherever that node stands. -/
theorem meet?_plug {c : Context α} {n : Node α} {a b : NodeId} (hd : (plug c n).ids.Nodup)
    (ha : a ∈ n.ids) (hb : b ∈ n.ids) (hparts : n.Parts a b) : (plug c n).meet? a b = some n := by
  rw [meet?]
  induction c with
  | nil =>
    rw [plug_nil, nodes_eq_cons, List.filter_cons_of_pos (by simp [ha, hb]),
      filter_both_eq_nil hparts]
    rfl
  | cons f c ih =>
    rw [plug_cons, ids_fill, List.nodup_cons, List.nodup_append, List.nodup_append] at hd
    obtain ⟨-, ⟨-, hc, hbefore⟩, -, hafter⟩ := hd
    have hin : a ∈ (plug c n).ids := mem_ids_trans ha (mem_nodes_plug c n)
    -- the siblings of the hole have nothing of what is below it
    have hx : (f.before.flatMap nodes).filter (fun k => k.contains a && k.contains b) = [] :=
      filter_both_eq_nil fun m hm hboth =>
        hbefore a (List.mem_flatMap.mpr ⟨m, hm, hboth.1⟩) a hin rfl
    have hy : (f.after.flatMap nodes).filter (fun k => k.contains a && k.contains b) = [] :=
      filter_both_eq_nil fun m hm hboth =>
        hafter a (List.mem_append_right _ hin) a (List.mem_flatMap.mpr ⟨m, hm, hboth.1⟩) rfl
    rw [plug_cons, Frame.fill, nodes_branch, List.filter_cons, List.flatMap_append,
      List.flatMap_cons, List.filter_append, List.filter_append, hx, hy, List.nil_append,
      List.append_nil]
    split
    · rw [List.getLast?_cons, ih hc, Option.getD_some]
    · exact ih hc

/-- A node meets whatever is beside it at its parent. -/
theorem parts_fill {f : Frame α} {k : Node α} {a : NodeId} (hd : (f.fill k).ids.Nodup)
    (ha : a ∉ k.ids) : (f.fill k).Parts a k.id := by
  rw [ids_fill, List.nodup_cons, List.nodup_append, List.nodup_append] at hd
  obtain ⟨-, ⟨-, -, hbefore⟩, -, hafter⟩ := hd
  intro o ho hboth
  rw [Frame.fill, children_branch, List.mem_append, List.mem_cons] at ho
  rcases ho with ho | rfl | ho
  · exact hbefore _ (List.mem_flatMap.mpr ⟨o, ho, hboth.2⟩) _ (id_mem_ids k) rfl
  · exact ha hboth.1
  · exact hafter _ (List.mem_append_right _ (id_mem_ids k)) _
      (List.mem_flatMap.mpr ⟨o, ho, hboth.2⟩) rfl

/-! ## 2. The meeting point in the balanced tree -/

theorem leafIds_subset_survivors (n : Node α) : n.leafIds ⊆ n.survivors := by
  intro id hid
  obtain ⟨t, ht, rfl⟩ := List.mem_map.mp hid
  obtain ⟨htn, hleaf⟩ := List.mem_filter.mp ht
  refine mem_survivors.mpr ⟨t.entry, List.mem_map_of_mem htn, ?_, rfl⟩
  rw [entry, if_pos hleaf]
  rfl

theorem Forked.id_mem_survivors {n : Node α} (h : n.Forked) : n.id ∈ n.survivors := by
  have hentry : n.entry ∈ n.census := List.mem_map_of_mem (self_mem_nodes n)
  exact mem_survivors.mpr ⟨n.entry, hentry, h.stays hentry, rfl⟩

/-- What balancing leaves of a node below one child was below that child. -/
theorem Parts.kept {h h' : Header} {cs : Forest α} {a b : NodeId} {o : Orientation}
    (hparts : (branch h cs).Parts a b) :
    ((branch h' (Forest.normalize (cs.filterMap prune?))).orient o).Parts a b := by
  have hsize : ∀ (n : Node α) size,
      (¬(a ∈ (n.withSize size).ids ∧ b ∈ (n.withSize size).ids)) = ¬(a ∈ n.ids ∧ b ∈ n.ids) :=
    fun n size => by rw [ids_withSize]
  rw [Parts, orient, children_branch, Forest.orient_eq_map, List.forall_mem_map]
  simp only [ids_orient]
  rw [Forest.forall_mem_normalize hsize]
  intro k hk hboth
  obtain ⟨m, hm, hprune⟩ := List.mem_filterMap.mp hk
  rw [ids_of_prune? hprune] at hboth
  exact hparts m hm ⟨(survivors_sublist m).subset hboth.1, (survivors_sublist m).subset hboth.2⟩

/-- What survives in a child is still there in what balancing keeps of the group. -/
theorem mem_ids_kept {h : Header} {cs : Forest α} {m : Node α} {id : NodeId} (hm : m ∈ cs)
    (hid : id ∈ m.survivors) (o : Orientation) :
    id ∈ ((branch h (Forest.normalize (cs.filterMap prune?))).orient o).ids := by
  rw [ids_orient, ids_branch, Forest.flatMap_normalize ids_withSize,
    flatMap_filterMap_prune? fun c _ => (prune?_census c).2]
  exact List.mem_cons_of_mem _ (List.mem_flatMap.mpr ⟨m, hm, hid⟩)

/-- In the balanced tree a node meets a leaf beside it at the branch of its frame, which is turned
by the frames around it that are kept. -/
theorem exists_meet_balance? {c : Context α} {f : Frame α} {k : Node α} {a : NodeId}
    (hd : (plug (c ++ [f]) k).ids.Nodup) (hk : k.Forked)
    (ha : a ∈ (f.before ++ f.after).flatMap leafIds) (hout : a ∉ k.ids) :
    ∃ final n, (plug (c ++ [f]) k).balance? = some final ∧ final.meet? a k.id = some n ∧
      n.orientation = .below (orientations (c.filter Frame.forks)) f.header.orientation := by
  have hplug : plug (c ++ [f]) k = plug c (f.fill k) := by
    rw [plug_append]
    rfl
  rw [hplug] at hd ⊢
  obtain ⟨m, hm, ham⟩ := List.mem_flatMap.mp ha
  have hforks : f.forks := by
    rw [Frame.forks, List.any_eq_true]
    refine ⟨m, hm, (leaves_ne_nil_iff m).mp ?_⟩
    rintro hnil
    rw [leafIds, hnil] at ham
    cases ham
  have htwo := (two_le_kept_iff hk.bears).mpr hforks
  obtain ⟨d, size, hbalance⟩ := exists_plug_balance? (c := c) (h := f.header) htwo
  have hids := ids_of_balance? hbalance
  have hfill := parts_fill (nodup_ids_of_mem_nodes hd (mem_nodes_plug c _)) hout
  refine ⟨_, _, hbalance, meet?_plug ?_ ?_ ?_ hfill.kept, orientation_orient _ _⟩
  · rw [hids]
    exact hd.sublist (survivors_sublist _)
  · have hbeside : m ∈ f.before ++ k :: f.after := by
      rw [List.mem_append, List.mem_cons]
      exact (List.mem_append.mp hm).imp_right .inr
    exact mem_ids_kept hbeside (leafIds_subset_survivors m ham) _
  · exact mem_ids_kept (by simp) hk.id_mem_survivors _

end Node

/-! ## 3. The branches around the host -/

namespace Context

/-- The branches around a node are the other nodes that have it below them. -/
theorem mem_branchIds_iff {c : Context α} {n p : Node α} (hd : (plug c n).ids.Nodup)
    (hp : p ∈ (plug c n).nodes) : p.id ∈ branchIds c ↔ n.id ∈ p.ids ∧ n.id ≠ p.id := by
  constructor
  · intro hmem
    obtain ⟨f, hf, hid⟩ := List.mem_map.mp hmem
    obtain ⟨a, b, rfl⟩ := List.append_of_mem hf
    rw [plug_append] at hd hp
    obtain rfl := eq_of_id_eq hd (mem_nodes_plug a (f.fill (plug b n))) hp hid
    have hin : n.id ∈ (plug b n).ids := mem_ids_trans (id_mem_ids n) (mem_nodes_plug b n)
    have hnodup := nodup_ids_of_mem_nodes hd hp
    rw [ids_fill, List.nodup_cons] at hnodup
    have hchildren : n.id ∈ f.before.flatMap ids ++ (plug b n).ids ++ f.after.flatMap ids :=
      List.mem_append_left _ (List.mem_append_right _ hin)
    rw [ids_fill]
    exact ⟨List.mem_cons_of_mem _ hchildren, fun heq => hnodup.1 (hid ▸ heq ▸ hchildren)⟩
  · rintro ⟨hmem, hne⟩
    obtain ⟨n', hn', hid⟩ := mem_ids.mp hmem
    obtain rfl := eq_of_id_eq hd (mem_nodes_trans hn' hp) (mem_nodes_plug c n) hid
    obtain ⟨e, rfl⟩ := exists_plug_of_mem_nodes hn'
    obtain ⟨d, hplug⟩ := exists_plug_of_mem_nodes hp
    rw [← plug_append] at hplug
    obtain ⟨rfl, -⟩ := plug_inj hd rfl hplug
    cases e with
    | nil => exact absurd rfl hne
    | cons f e => exact List.mem_map_of_mem (by simp)

/-- Balancing keeps the branch of a frame just if the frame has leaves beside the hole. -/
theorem mem_survivors_iff_forks {a b : Context α} {f : Frame α} {n : Node α}
    (hd : (plug (a ++ f :: b) n).ids.Nodup) (hn : n.bears) :
    f.header.id ∈ (plug (a ++ f :: b) n).survivors ↔ f.forks := by
  rw [plug_append] at hd ⊢
  have hin : f.fill (plug b n) ∈ (plug a (plug (f :: b) n)).nodes := mem_nodes_plug a _
  have hstays : (f.fill (plug b n)).entry.stays ↔ f.forks := by
    simp only [entry, Frame.fill, isLeaf_branch, children_branch, Bool.false_eq_true, if_false,
      Entry.stays_branch, decide_eq_true_iff, Frame.forks_iff]
    rw [countP_bears_child (bears_plug hn), Nat.succ_le_succ_iff]
  rw [← hstays, mem_survivors]
  constructor
  · rintro ⟨e, he, hstay, hid⟩
    rwa [eq_entry hd hin he hid] at hstay
  · exact fun h => ⟨_, List.mem_map_of_mem hin, h, rfl⟩

/-- All frames are kept but the one with a certain identifier, and that only if `gone` holds. So the
hole is turned just if there is such a frame and it is not the outermost. -/
theorem below_all_but_one {c : Context α} {o : Orientation} {id : NodeId} {gone : Prop}
    [Decidable gone] (hturns : Orientation.Alternate (orientations c) o)
    (hnodup : (branchIds c).Nodup) (hforks : ∀ g ∈ c, (g.forks ↔ ¬(g.header.id = id ∧ gone))) :
    Orientation.below (orientations (c.filter Frame.forks)) o =
      if gone ∧ id ∈ branchIds c ∧ (branchIds c).head? ≠ some id then o.reverse else o := by
  by_cases hlost : gone ∧ id ∈ branchIds c
  · obtain ⟨hgone, hmem⟩ := hlost
    obtain ⟨g, hg, rfl⟩ := List.mem_map.mp hmem
    obtain ⟨a, b, rfl⟩ := List.append_of_mem hg
    rw [branchIds, List.map_append, List.map_cons, List.nodup_append, List.nodup_cons] at hnodup
    obtain ⟨-, ⟨hb, -⟩, ha⟩ := hnodup
    have hother : ∀ k ∈ a ++ g :: b, k.header.id ≠ g.header.id → k.forks := fun k hk hid =>
      (hforks k hk).mpr fun h => hid h.1
    rw [below_kept_lone hturns ((hforks g hg).not.mpr (not_not_intro ⟨rfl, hgone⟩))]
    · cases a with
      | nil => rw [if_pos rfl, if_neg fun h => h.2.2 rfl]
      | cons k a =>
        have hk : (branchIds (k :: a ++ g :: b)).head? ≠ some g.header.id := fun h =>
          ha _ List.mem_cons_self _ List.mem_cons_self (Option.some.inj h)
        rw [if_neg (List.cons_ne_nil k a), if_pos ⟨hgone, hmem, hk⟩]
    · intro k hk
      refine hother k (List.mem_append_left _ hk) fun hid => ?_
      exact ha _ (List.mem_map_of_mem hk) _ List.mem_cons_self hid
    · intro k hk
      refine hother k (List.mem_append_right _ (List.mem_cons_of_mem g hk)) fun hid => ?_
      exact hb (List.mem_map.mpr ⟨k, hk, hid⟩)
  · rw [below_kept hturns, if_neg fun h => hlost ⟨h.1, h.2.1⟩]
    intro k hk
    exact (hforks k hk).mpr fun ⟨hid, hgone⟩ => hlost ⟨hgone, hid ▸ List.mem_map_of_mem hk⟩

end Context

namespace Node

/-! ## 4. The axis after a drop -/

theorem collapsesAbove_iff {root p : Node α} {moved host : NodeId}
    (hp : root.parent? moved = some p) : root.collapsesAbove moved host ↔
      p.children.length = 2 ∧ p.id ≠ root.id ∧ host ≠ p.id ∧ host ∈ p.ids := by
  rw [collapsesAbove, hp]
  exact decide_eq_true_iff

/-- The branch that a drop costs is the only one around the host that balancing does not keep. -/
theorem orientation_kept {root p host tree copy : Node α} {c c' : Context α} {f' : Frame α}
    (hn : root.NormalForm) (hd : root.ids.Nodup) (hroot : root = plug c host)
    (hp : p ∈ root.nodes) (hheaders : c'.map Frame.header = c.map Frame.header)
    (htree : tree = plug (c' ++ [f']) copy) (htd : tree.ids.Nodup) (hcopy : copy.bears)
    (hkept : ∀ id ∈ root.ids, id ∈ tree.survivors ↔
      ¬(id = p.id ∧ host.id ≠ p.id ∧ p.children.length = 2)) :
    Orientation.below (orientations (c'.filter Frame.forks)) host.orientation =
      if p.children.length = 2 ∧ p.id ≠ root.id ∧ host.id ≠ p.id ∧ host.id ∈ p.ids then
        host.orientation.reverse
      else host.orientation := by
  have hids : branchIds c' = branchIds c := by
    have h := congrArg (List.map Header.id) hheaders
    rwa [List.map_map, List.map_map] at h
  have hturns : Orientation.Alternate (orientations c') host.orientation := by
    have h := congrArg (List.map Header.orientation) hheaders
    rw [List.map_map, List.map_map] at h
    rw [show orientations c' = orientations c from h]
    exact alternate_orientations (hroot ▸ hn.alternating)
  have hnodup : (branchIds c').Nodup := hids ▸ (hroot ▸ hd).sublist (branchIds_sublist c host)
  have hforks : ∀ g ∈ c',
      (g.forks ↔ ¬(g.header.id = p.id ∧ host.id ≠ p.id ∧ p.children.length = 2)) := by
    intro g hg
    have hmem : g.header.id ∈ root.ids := by
      rw [hroot]
      refine (branchIds_sublist c host).subset ?_
      rw [← hids]
      exact List.mem_map_of_mem hg
    obtain ⟨a, b, rfl⟩ := List.append_of_mem hg
    rw [← hkept _ hmem, htree]
    rw [htree] at htd
    rw [List.append_assoc, List.cons_append] at htd ⊢
    exact (mem_survivors_iff_forks htd hcopy).symm
  -- the root is the outermost of the branches around the host
  have houtermost : p.id ∈ branchIds c' → (branchIds c').head? = some root.id := by
    intro hmem
    rw [hroot, id_plug, ← hids, List.head?_eq_some_head (List.ne_nil_of_mem hmem),
      Option.getD_some]
  have haround : p.id ∈ branchIds c' ↔ host.id ∈ p.ids ∧ host.id ≠ p.id := by
    rw [hids]
    subst hroot
    exact mem_branchIds_iff hd hp
  rw [below_all_but_one hturns hnodup hforks]
  refine if_congr ?_ rfl rfl
  constructor
  · rintro ⟨⟨hne, htwo⟩, hmem, hhead⟩
    exact ⟨htwo, fun hid => hhead (hid ▸ houtermost hmem), hne, (haround.mp hmem).1⟩
  · rintro ⟨htwo, hnotroot, hne, hin⟩
    have hmem := haround.mpr ⟨hin, hne⟩
    refine ⟨⟨hne, htwo⟩, hmem, fun hhead => hnotroot ?_⟩
    exact Option.some.inj (hhead.symm.trans (houtermost hmem))

/-- A drop that relocates its node puts the two under one container, turned when the old parent
gives way above it. -/
theorem Relocated.exists_meet {root t m host anchor tree : Node α} {zone : DropZone}
    (h : root.Droppable t m) (hr : Relocated root host anchor m zone tree) (ht : t ∈ host.nodes) :
    ∃ final n, tree.balance? = some final ∧ final.meet? t.id m.id = some n ∧
      n.orientation =
        if root.collapsesAbove m.id host.id then host.orientation.reverse
        else host.orientation := by
  obtain ⟨hd, x, y, hp, hpn, -⟩ := parent?_cases h.nodup h.moved_mem h.moved_ne_root
  have hnodup := hr.nodup
  have hkept := hr.mem_survivors_iff _ hp
  have htm : t.id ∉ m.leafIds := fun hmem => h.outside ((leafIds_sublist m).subset hmem)
  cases hr.landed with
  | @intro c c' f f' copy hroot hopens hc hf hcopy =>
    -- the target is one of the leaves that the frame keeps beside the hole
    have htarget : t.id ∈ (f'.before ++ f'.after).flatMap leafIds := by
      have hhost : t.id ∈ host.leafIds.filter (· ∉ m.leafIds) := by
        refine List.mem_filter.mpr ⟨?_, decide_eq_true htm⟩
        exact List.mem_map_of_mem (List.mem_filter.mpr ⟨ht, h.isLeaf⟩)
      rw [← hopens.leaves_eq, List.filter_append, ← hf.before_eq, ← hf.after_eq,
        ← List.filter_append, ← List.flatMap_append] at hhost
      exact (List.mem_filter.mp hhost).1
    obtain ⟨final, n, hfinal, hmeet, horientation⟩ :=
      exists_meet_balance? hnodup hcopy.forked htarget (hcopy.ids_eq ▸ h.outside)
    refine ⟨final, n, hfinal, hcopy.id_eq ▸ hmeet, ?_⟩
    rw [horientation, hf.header_eq, hopens.orientation_eq, orientation_kept h.normalForm h.nodup
      hroot hpn hc.headers_eq rfl hnodup hcopy.forked.bears hkept]
    simp only [collapsesAbove_iff hp]

/-- A drop that stays in its group changes neither the meeting container nor its direction. -/
theorem Stays.exists_meet {root t m host anchor : Node α} {zone : DropZone}
    (h : root.Droppable t m) (hs : Stays root host anchor m zone) (ht : t ∈ host.nodes) :
    root.meet? t.id m.id = some host ∧ ¬root.collapsesAbove m.id host.id := by
  obtain ⟨hparent, f, rfl, -⟩ := hs
  refine ⟨?_, fun hcollapses => ((collapsesAbove_iff hparent).mp hcollapses).2.2.1 rfl⟩
  obtain ⟨c, rfl, -⟩ := exists_plug_of_parent? hparent
  have hm : m ∈ (f.fill m).nodes := mem_nodes_of_mem_children (mem_children_fill f m)
  have hfill := nodup_ids_of_mem_nodes h.nodup (mem_nodes_plug c (f.fill m))
  exact meet?_plug h.nodup (id_mem_of_mem_nodes ht) (id_mem_of_mem_nodes hm)
    (parts_fill hfill h.outside)

end Node

/-- After a drop onto a side the target and the moved node meet in a branch along the axis of the
zone, or across it if the moved node's old parent was a branch of two above the host other than the
root. -/
theorem drop_arranges_along_axis (s : State α) (root t m : Node α) (zone : DropZone)
    (axis : Orientation) (hs : Reachable s) (hd : s.treeIds.Nodup)
    (hbound : s.ids.next.toNat < 2 ^ 63) (hroot : s.root = some root) (ht : t ∈ root.nodes)
    (hleaf : t.isLeaf) (hm : m ∈ root.nodes) (hout : t.id ∉ m.ids)
    (hzone : zone.axis? = some axis) :
    ∃ final n, (s.afterDrop t.id m.id zone).root = some final ∧
      final.meet? t.id m.id = some n ∧
      n.orientation =
        if root.collapsesAbove m.id (root.dropHost t zone).id then axis.reverse else axis := by
  have hcovers := hs.covers
  rw [State.treeIds_eq hroot] at hd hcovers
  have hdrop : root.Droppable t m :=
    ⟨hs.settled.normalForm root hroot, hd, ht, hleaf, hm, hout⟩
  obtain ⟨i, -, hspot, hhost, haxis⟩ := hdrop.spotted hzone
  obtain ⟨-, houtcome⟩ := State.afterDrop_outcome hdrop hroot hcovers hbound hzone
  rw [← haxis]
  generalize s.afterDrop t.id m.id zone = after at houtcome ⊢
  cases houtcome with
  | stays hstaged hstays =>
    obtain ⟨hmeet, hcollapses⟩ := hstays.exists_meet hdrop hspot.mem_nodes
    exact ⟨root, _, hroot, hmeet, by rw [if_neg hcollapses]⟩
  | moves hcommit htree hrelocated =>
    obtain ⟨final, n, hfinal, hmeet, horientation⟩ :=
      hrelocated.exists_meet hdrop hspot.mem_nodes
    refine ⟨final, n, ?_, hmeet, horientation⟩
    show Option.bind _ balance? = some final
    rw [htree]
    exact hfinal

/-- A pane that leaves a row of two and goes above the pane below the row: the row gives way, but it
does not have the host, so the drop stacks the panes. -/
theorem drop_out_of_row_stacks :
    ∃ (s : State Unit) (final n : Node Unit), (s.afterDrop ⟨5⟩ ⟨4⟩ .top).root = some final ∧
      final.ids = [⟨1⟩, ⟨3⟩, ⟨4⟩, ⟨5⟩] ∧ final.meet? ⟨5⟩ ⟨4⟩ = some n ∧
      n.orientation = .column := by
  let pane (n : UInt64) : Node Unit := .leaf { id := ⟨n⟩ } ()
  let s := State.ofRoot (.branch { id := ⟨1⟩, orientation := .column }
    [.branch { id := ⟨2⟩ } [pane 3, pane 4], pane 5])
  have hd : s.treeIds.Nodup := by decide +kernel
  have hbound : s.ids.next.toNat < 2 ^ 63 := by decide +kernel
  have hids : (s.afterDrop ⟨5⟩ ⟨4⟩ .top).root.map Node.ids = some [⟨1⟩, ⟨3⟩, ⟨4⟩, ⟨5⟩] := by
    decide +kernel
  have hparts : (s.root.bind fun root => (root.find? ⟨5⟩).bind fun t =>
      (root.find? ⟨4⟩).map fun m =>
        (t.isLeaf, m.ids, root.collapsesAbove m.id (root.dropHost t .top).id)) =
          some (true, [⟨4⟩], false) := by decide +kernel
  obtain ⟨root, t, m, hroot, ht, hm, htid, hmid, hparts⟩ := State.exists_of_finds hparts
  simp only [Prod.mk.injEq] at hparts
  obtain ⟨hleaf, hmoved, hcollapses⟩ := hparts
  have hout : t.id ∉ m.ids := by
    rw [htid, hmoved]
    decide
  obtain ⟨final, n, hfinal, hmeet, horientation⟩ :=
    drop_arranges_along_axis s root t m .top .column (.ofRoot _) hd hbound hroot
      ht hleaf hm hout rfl
  rw [hcollapses, if_neg (by decide)] at horientation
  rw [htid, hmid] at hfinal hmeet
  rw [hfinal, Option.map_some, Option.some_inj] at hids
  exact ⟨s, final, n, hfinal, hids, hmeet, horientation⟩

/-- Not every drop arranges along the axis of its zone: a pane dropped on the top of the only pane
beside it stays beside it, if they are not in the root. -/
theorem top_drop_in_row_stays_beside :
    ¬∀ (s : State Unit) (root t m : Node Unit) (zone : DropZone) (axis : Orientation),
      Reachable s → s.treeIds.Nodup → s.ids.next.toNat < 2 ^ 63 → s.root = some root →
      t ∈ root.nodes → t.isLeaf → m ∈ root.nodes → t.id ∉ m.ids → zone.axis? = some axis →
      ∃ final n, (s.afterDrop t.id m.id zone).root = some final ∧
        final.meet? t.id m.id = some n ∧ n.orientation = axis := by
  intro hall
  let pane (n : UInt64) : Node Unit := .leaf { id := ⟨n⟩ } ()
  let s := State.ofRoot (.branch { id := ⟨1⟩, orientation := .column }
    [.branch { id := ⟨2⟩ } [pane 3, pane 4], pane 5])
  have hd : s.treeIds.Nodup := by decide +kernel
  have hbound : s.ids.next.toNat < 2 ^ 63 := by decide +kernel
  have hrow : ((s.afterDrop ⟨3⟩ ⟨4⟩ .top).root.bind fun final =>
      (final.meet? ⟨3⟩ ⟨4⟩).map Node.orientation) = some .row := by decide +kernel
  have hparts : (s.root.bind fun root => (root.find? ⟨3⟩).bind fun t =>
      (root.find? ⟨4⟩).map fun m => (t.isLeaf, m.ids)) = some (true, [⟨4⟩]) := by decide +kernel
  obtain ⟨root, t, m, hroot, ht, hm, htid, hmid, hparts⟩ := State.exists_of_finds hparts
  simp only [Prod.mk.injEq] at hparts
  obtain ⟨hleaf, hmoved⟩ := hparts
  have hout : t.id ∉ m.ids := by
    rw [htid, hmoved]
    decide
  obtain ⟨final, n, hfinal, hmeet, horientation⟩ :=
    hall s root t m .top .column (.ofRoot _) hd hbound hroot ht hleaf
      hm hout rfl
  rw [htid, hmid] at hfinal hmeet
  rw [hfinal, Option.bind_some, hmeet, Option.map_some, horientation] at hrow
  cases hrow

end Tiling
