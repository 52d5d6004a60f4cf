import Tiling.Proofs.Conservation
import Tiling.Proofs.SizeBlind
import Tiling.Proofs.SlotOrder
import Tiling.Proofs.Swap
import Tiling.Proofs.UpToSizes

/-!
# Deleting what was inserted

An insertion adds a child to a branch or splits a leaf. To take the child out again leaves the branch
as it was, or a branch with the leaf alone, and balancing puts the leaf back in its place.
-/

namespace Tiling

variable {α : Type}

open Node Context
open scoped List

namespace Node

/-! ## 1. The edits -/

/-- A graft into a group in normal form is in normal form. -/
theorem normalForm_graft {h : Header} {cs : Forest α} {child : Node α} (hone : 1 ≤ cs.length)
    (hcs : ∀ c ∈ cs, c.orientation = h.orientation.reverse ∧ c.NormalForm) (hchild : child.Forked)
    (i : Nat) : ((branch h cs).graft i child).NormalForm := by
  rw [graft_branch, normalForm_branch, length_take_cons_drop, forall_mem_take_cons_drop]
  exact ⟨Nat.succ_le_succ hone, normalForm_joined hchild h cs, hcs⟩

/-- What was grafted is taken out again. -/
theorem dropChild_graft_new {h : Header} {cs : Forest α} {child : Node α}
    (hcs : ∀ c ∈ cs, c.id ≠ child.id) (i : Nat) :
    ((branch h cs).graft i child).dropChild child.id 0 = branch h cs := by
  have hdrop := dropChild_branch h [] (cs.take i) (cs.drop i) (child.joined h cs) fun c hc =>
    id_joined child h cs ▸ hcs c (List.mem_of_mem_take hc)
  rw [id_joined] at hdrop
  rw [graft_branch]
  refine hdrop.trans ?_
  rw [List.nil_append, List.take_append_drop]

/-- A leaf that is left alone in the branch made for it gets back all that it had. -/
theorem prune?_wrap_leaf (h : Header) (d : α) (id : NodeId) :
    ((leaf h d).wrap id h.orientation).prune? = (leaf h d).prune? := rfl

theorem joined_mem_children_graft (h : Header) (cs : Forest α) (i : Nat) (child : Node α) :
    child.joined h cs ∈ ((branch h cs).graft i child).children := by
  rw [graft_branch, children_branch, List.mem_append]
  exact .inr List.mem_cons_self

/-- The parent of what was grafted is where it was grafted. -/
theorem updateParent?_graft {c : Context α} {h : Header} {cs : Forest α} {child : Node α} {i : Nat}
    (hd : (plug c ((branch h cs).graft i child)).ids.Nodup) (hcs : ∀ k ∈ cs, k.id ≠ child.id) :
    (plug c ((branch h cs).graft i child)).updateParent? child.id
      (fun parent => parent.dropChild child.id 0) = some (plug c (branch h cs)) := by
  have hupdate := updateParent?_plug hd (joined_mem_children_graft h cs i child) fun parent =>
    parent.dropChild child.id 0
  rw [id_joined, dropChild_graft_new hcs] at hupdate
  exact hupdate

theorem id_ne_of_mem_children {root p k : Node α} (hd : root.ids.Nodup) (hp : p ∈ root.nodes)
    (hk : k ∈ p.children) : root.id ≠ k.id := by
  intro hid
  have hkn := mem_nodes_trans (mem_nodes_of_mem_children hk) hp
  obtain ⟨-, -, hnot⟩ := exists_plug_parent hd hkn ((parent?_eq_some_iff hd).mpr ⟨hp, k, hk, rfl⟩)
  rw [← eq_of_id_eq hd (self_mem_nodes root) hkn hid] at hnot
  exact hnot (id_mem_of_mem_nodes hp)

/-- A tree with a new node in it that balancing gives back when the node is taken out. -/
structure Undoable (root : Node α) (new : NodeId) (tree : Node α) : Prop where
  normalForm : tree.NormalForm
  subset : root.ids ⊆ tree.ids
  id_ne : tree.id ≠ new
  undone : ∃ rest, tree.updateParent? new (fun parent => parent.dropChild new 0) = some rest ∧
    rest.balance? = root.balance?

/-- A graft is undone if the branch that it was made into comes from balancing as the node did that
stood in its place. -/
theorem undoable_graft {c : Context α} {m child : Node α} {h : Header} {cs : Forest α} {i : Nat}
    (hn : (plug c m).NormalForm) (ho : h.orientation = m.orientation) (hone : 1 ≤ cs.length)
    (hcs : ∀ k ∈ cs, k.orientation = h.orientation.reverse ∧ k.NormalForm) (hchild : child.Forked)
    (hd : (plug c ((branch h cs).graft i child)).ids.Nodup)
    (hsubset : (plug c m).ids ⊆ (plug c ((branch h cs).graft i child)).ids)
    (hnew : ∀ k ∈ cs, k.id ≠ child.id) (hprune : (branch h cs).prune? = m.prune?) :
    Undoable (plug c m) child.id (plug c ((branch h cs).graft i child)) where
  normalForm := hn.plug (normalForm_graft hone hcs hchild i) (by rw [graft_branch]; exact ho)
  subset := hsubset
  id_ne := by
    rw [← id_joined child h cs]
    exact id_ne_of_mem_children hd (mem_nodes_plug c _) (joined_mem_children_graft h cs i child)
  undone := ⟨_, updateParent?_graft hd hnew, balance?_plug_congr hprune c⟩

theorem Placed.nodup {root child : Node α} {i : Nat} {ids : IdSupply} {goal : Goal}
    {r : Node α × IdSupply} (hr : Placed root i child ids goal r) (hf : root.Forked)
    (hd : (root.ids ++ child.ids).Nodup) (hfresh : ids.peek ∉ root.ids ++ child.ids) :
    r.1.ids.Nodup := by
  rw [(hr.ids_perm hf).nodup_iff]
  split
  · exact List.nodup_cons.mpr ⟨hfresh, hd⟩
  · exact hd

/-- What was placed below a node can be taken out again. -/
theorem Placed.undoable {root child : Node α} {i : Nat} {ids : IdSupply} {parent : NodeId}
    {r : Node α × IdSupply} (hr : Placed root i child ids (.under parent) r)
    (hn : root.NormalForm) (hchild : child.Forked) (hd : (root.ids ++ child.ids).Nodup)
    (hfresh : ids.peek ∉ root.ids ++ child.ids) : Undoable root child.id r.1 := by
  have hnodup := hr.nodup hn.forked hd hfresh
  have hsubset : root.ids ⊆ r.1.ids := by
    intro id hid
    rw [(hr.ids_perm hn.forked).mem_iff]
    exact List.mem_append_right _ (List.mem_append_left _ hid)
  have hnew : ∀ k ∈ root.nodes, k.id ≠ child.id := fun k hk =>
    (List.nodup_append.mp hd).2.2 k.id (id_mem_of_mem_nodes hk) child.id (id_mem_ids child)
  cases hr with
  | @joins c h cs hroot hc =>
    subst hroot
    have hmem : branch h cs ∈ (plug c (branch h cs)).nodes := mem_nodes_plug c _
    obtain ⟨htwo, hcs⟩ := normalForm_branch.mp (hn.of_mem_nodes hmem)
    have hbelow : ∀ k ∈ (branch h cs).children, k.id ≠ child.id := fun k hk =>
      hnew k (mem_nodes_trans (mem_nodes_of_mem_children hk) hmem)
    exact undoable_graft hn rfl (Nat.le_of_succ_le htwo) hcs hchild hnodup hsubset hbelow rfl
  | @splits c h d hroot hc =>
    subst hroot
    rw [wrap_eq] at hnodup hsubset ⊢
    have hinner : ∀ k ∈ [(leaf h d).inner h.orientation],
        k.orientation = h.orientation.reverse ∧ k.NormalForm := fun k hk => by
      rw [List.mem_singleton.mp hk]
      exact ⟨rfl, normalForm_leaf _ d⟩
    refine undoable_graft hn rfl (Nat.le_refl 1) hinner hchild hnodup hsubset (fun k hk => ?_)
      (prune?_wrap_leaf h d ids.peek)
    rw [List.mem_singleton.mp hk, id_inner]
    exact hnew _ (mem_nodes_plug c _)

end Node

namespace State

/-! ## 2. Settling up to sizes -/

theorem treeIds_of_sizeless {s : State α} {n : Node α}
    (h : s.root.map Node.sizeless = some n.sizeless) : s.treeIds = n.ids := by
  obtain ⟨m, hm, hsizeless⟩ := Option.map_eq_some_iff.mp h
  rw [treeIds_eq hm, ← ids_sizeless, hsizeless, ids_sizeless]

/-- Where balancing gives a known tree up to sizes, settling keeps what is anchored in that tree. -/
theorem settle_alike {s : State α} {n : Node α}
    (hroot : (s.root.bind Node.balance?).map Node.sizeless = some n.sizeless)
    (hs : { s with root := some n }.Anchored) :
    s.settle.sizeless = { s with
      root := some n, leaves := n.leaves, staged := none
      generation := s.generation + 1 }.sizeless := by
  have htree : s.settle.treeIds = n.ids := treeIds_of_sizeless hroot
  have hanchored : { s.settle with focused := s.focused, magnified := s.magnified }.Anchored := by
    refine ⟨fun id hid => ?_, fun id hid => ?_⟩
    · exact htree ▸ hs.focused_mem id hid
    · exact htree ▸ hs.magnified_mem id hid
  have hfocused : s.settle.focused = s.focused := (settle_focused s).trans hanchored.refocused_eq
  have hmagnified : s.settle.magnified = s.magnified :=
    (settle_magnified s).trans hanchored.filter_eq
  have hleaves : s.settle.leaves.map Node.sizeless = n.leaves.map Node.sizeless := by
    show (leavesOf (s.root.bind Node.balance?)).map Node.sizeless = _
    rw [← leavesOf_sizeless, hroot, ← Node.leaves_sizeless]
    rfl
  have hsettle : s.settle.sizeless = { s with
      root := (s.root.bind Node.balance?).map Node.sizeless
      leaves := s.settle.leaves.map Node.sizeless, staged := none
      focused := s.settle.focused, magnified := s.settle.magnified
      generation := s.generation + 1 } := rfl
  rw [hsettle, hroot, hleaves, hfocused, hmagnified]
  rfl

/-! ## 3. The insertion -/

/-- A new node with distinct identifiers is inserted into every tree with leaves. -/
theorem insert_eq_ok {s : State α} {root node : Node α} (hroot : s.root = some root)
    (hbears : root.leaves ≠ []) (hnew : ∀ id ∈ node.ids, id ∉ root.ids) :
    ∃ slot r, root.slot? s.config.maxChildren = some slot ∧
      Placed root slot.index node (s.ids.reserveAll node.ids) (.under slot.node) r ∧
      s.insert node false false = .ok { s with root := some r.1, ids := r.2 } := by
  obtain ⟨slot, hslot⟩ := exists_slot? hbears s.config.maxChildren
  have hcheck : root.checkGoal (.under slot.node) = .ok () := by
    rw [checkGoal, if_pos (contains_iff.mpr (mem_ids_of_slot? hslot))]
  have hfresh : root.checkFresh node = .ok () := by
    have hnone : node.ids.find? root.contains = none := by
      rw [List.find?_eq_none]
      exact fun id hid => mt contains_iff.mp (hnew id hid)
    rw [checkFresh, hnone]
  refine ⟨slot, _, hslot, place_placed hcheck node slot.index (s.ids.reserveAll node.ids), ?_⟩
  simp only [insert, hroot, insertInto, hfresh, hslot, ok_bind]
  rfl

/-- A state that an insertion gives, up to sizes, and what the deletion makes of it. -/
structure Undone (s : State α) (node : Node α) (r t u : State α) : Prop where
  inserted : s.insert node false false = .ok r
  settled : r.settle.sizeless = t.sizeless
  deleted : t.delete node.id = .ok u
  restored : u.settle.sizeless =
    { s with staged := none, generation := s.generation + 1 + 1, ids := r.ids }.sizeless

theorem Undone.steps {s r t u : State α} {node : Node α} (h : s.Undone node r t u) :
    s.step (.insert node false false) = (r.settle, none) ∧
      (r.settle.step (.delete node.id)).2 = none ∧
      (r.settle.step (.delete node.id)).1.sizeless =
        { s with staged := none, generation := s.generation + 2, ids := r.ids }.sizeless := by
  have halike := step_alike h.settled (rfl : (Action.delete node.id : Action α).sizeless = _)
  rw [step_of_edit (s := t) (a := .delete node.id) rfl h.deleted] at halike
  have hgen : s.generation + 1 + 1 = s.generation + 2 := by
    rw [UInt64.add_assoc]
    rfl
  refine ⟨step_of_edit (a := .insert node false false) rfl h.inserted, ?_, ?_⟩
  · exact Option.map_eq_none_iff.mp (congrArg Prod.snd halike)
  · rw [← hgen, ← h.restored]
    exact congrArg Prod.fst halike

/-- In an empty state a leaf comes in and goes again. -/
theorem undone_of_empty {s : State α} (hs : Reachable s) (hroot : s.root = none) (h : Header)
    (d : α) : ∃ r t u, s.Undone (.leaf h d) r t u := by
  have htree : s.treeIds = [] := by rw [treeIds, hroot, Option.elim_none]
  have hfocused : s.focused = none := Option.eq_none_iff_forall_ne_some.mpr fun id hid => by
    simpa [htree] using hs.anchored.focused_mem id hid
  have hmagnified : s.magnified = none := Option.eq_none_iff_forall_ne_some.mpr fun id hid => by
    simpa [htree] using hs.anchored.magnified_mem id hid
  have hleaves : s.leaves = [] := by
    rw [hs.settled.leaves_eq, hroot]
    rfl
  refine ⟨s.plant (.leaf h d), { s.plant (.leaf h d) with
    leaves := [.leaf h d], staged := none, generation := s.generation + 1 },
    { s.plant (.leaf h d) with
      root := none, leaves := [.leaf h d], staged := none, generation := s.generation + 1 },
    ?_, ?_, ?_, ?_⟩
  · rw [insert, hroot]
    rfl
  · refine settle_alike (n := .leaf h d) rfl ⟨fun id hid => ?_, fun id hid => ?_⟩
    · cases hfocused.symm.trans hid
    · cases hmagnified.symm.trans hid
  · exact if_pos rfl
  · simp only [settle, plant, sizeless, hfocused, hmagnified, hroot, hleaves]
    rfl

/-- In a state with a tree an insertion and the deletion after it cancel out. -/
theorem undone_of_tree {s : State α} {root node : Node α} (hs : Reachable s)
    (hroot : s.root = some root) (hnode : node.Forked) (hd : (root.ids ++ node.ids).Nodup)
    (hbound : (s.apply (.insert node false false)).ids.next.toNat < 2 ^ 63) :
    ∃ r t u, s.Undone node r t u := by
  -- the settled insertion is compared with the state `t` around the tree that is not balanced yet,
  -- since the edit of the deletion is known there
  have hn := hs.settled.normalForm root hroot
  have hbears : root.leaves ≠ [] := (leaves_ne_nil_iff root).mpr hn.forked.bears
  have hnew : ∀ id ∈ node.ids, id ∉ root.ids := fun id hid hmem =>
    (List.nodup_append.mp hd).2.2 id hmem id hid rfl
  obtain ⟨slot, r, -, hplaced, hinsert⟩ := insert_eq_ok hroot hbears hnew
  have hfresh : (s.ids.reserveAll node.ids).peek ∉ root.ids ++ node.ids := by
    have hcovers : (s.ids.reserveAll node.ids).Covers (root.ids ++ node.ids) := by
      have hroots := hs.covers
      rw [treeIds_eq hroot] at hroots
      exact IdSupply.covers_append.mpr
        ⟨hroots.mono (IdSupply.next_le_reserveAll _ _), IdSupply.covers_reserveAll _ _⟩
    have hle := UInt64.le_iff_toNat_le.mp (hplaced.next_le hn.forked)
    rw [apply, step_of_edit (a := .insert node false false) rfl hinsert] at hbound
    exact hcovers.peek_not_mem (Nat.lt_of_le_of_lt hle hbound)
  have hundo := hplaced.undoable hn hnode hd hfresh
  obtain ⟨rest, hrest, hbalance⟩ := hundo.undone
  have hkept : ∀ id ∈ s.treeIds, id ∈ r.1.ids := fun id hid =>
    hundo.subset (treeIds_eq hroot ▸ hid)
  refine ⟨_, { s with
    root := some r.1, ids := r.2, leaves := r.1.leaves, staged := none
    generation := s.generation + 1 }, { s with
    root := some rest, ids := r.2, leaves := r.1.leaves, staged := none
    generation := s.generation + 1 }, hinsert, ?_, ?_, ?_⟩
  · refine settle_alike (hundo.normalForm.balance?_of_sizeless rfl) ⟨?_, ?_⟩
    · exact fun id hid => hkept id (hs.anchored.focused_mem id hid)
    · exact fun id hid => hkept id (hs.anchored.magnified_mem id hid)
  · refine (if_neg hundo.id_ne).trans ?_
    rw [hrest]
    rfl
  · have hback : (rest.balance?).map Node.sizeless = some root.sizeless := by
      rw [hbalance]
      exact hn.balance?_of_sizeless rfl
    refine (settle_alike (n := root) ?_ ?_).trans ?_
    · exact hback
    · exact hs.anchored.congr hroot.symm rfl rfl
    · simp only [sizeless, hroot, hs.settled.leaves_of_root hroot]

end State

/-- A leaf that is new to the tree can be inserted and then deleted, and that restores the tree and
its leaves up to sizes, with the focus and the magnification. Nothing is staged afterwards, and the
generation is two higher. -/
theorem deletion_undoes_insertion (s : State α) (h : Header) (d : α) (hs : Reachable s)
    (hd : s.treeIds.Nodup) (hnew : h.id ∉ s.treeIds)
    (hbound : (s.apply (.insert (.leaf h d) false false)).ids.next.toNat < 2 ^ 63) :
    let inserted := s.step (.insert (.leaf h d) false false)
    let deleted := inserted.1.step (.delete h.id)
    inserted.2 = none ∧ deleted.2 = none ∧
      deleted.1.sizeless = { s with
        staged := none, generation := s.generation + 2, ids := inserted.1.ids }.sizeless := by
  have hundone : ∃ r t u, s.Undone (.leaf h d) r t u := by
    cases hroot : s.root with
    | none => exact State.undone_of_empty hs hroot h d
    | some root =>
      rw [State.treeIds_eq hroot] at hd hnew
      refine State.undone_of_tree hs hroot (forked_leaf h d) ?_ hbound
      rw [ids_leaf, List.nodup_append]
      refine ⟨hd, List.nodup_singleton _, fun id hid k hk heq => hnew ?_⟩
      rwa [← List.mem_singleton.mp hk, ← heq]
  obtain ⟨r, t, u, hundone⟩ := hundone
  obtain ⟨hinsert, haccepted, hrestored⟩ := hundone.steps
  rw [hinsert]
  exact ⟨rfl, haccepted, hrestored⟩

/-- Both branches are full, so the pane beside the column is split and turned, and turned back when
the new pane goes. -/
theorem split_pane_is_restored :
    ∃ s t u : State Unit, s.focused = some ⟨3⟩ ∧
      s.step (.insert (.leaf { id := ⟨6⟩ } ()) false false) = (t, none) ∧
      t.treeIds = [⟨1⟩, .generated 1, ⟨2⟩, ⟨6⟩, ⟨3⟩, ⟨4⟩, ⟨5⟩] ∧
      t.step (.delete ⟨6⟩) = (u, none) ∧
      u.sizeless = { s with staged := none, generation := 3, ids := t.ids }.sizeless := by
  let pane (n : UInt64) : Node Unit := .leaf { id := ⟨n⟩ } ()
  let column : Node Unit := .branch { id := ⟨3⟩ } [pane 4, pane 5]
  let s := ((State.ofRoot (.branch { id := ⟨1⟩ } [pane 2, column])).call
    (.configure { maxChildren := 2 })).call (.perform (.focus ⟨3⟩))
  have hs : Reachable s := .call _ (.call _ (.ofRoot _))
  have hd : s.treeIds.Nodup := by decide +kernel
  have hnew : ⟨6⟩ ∉ s.treeIds := by decide +kernel
  have hbound : (s.apply (.insert (pane 6) false false)).ids.next.toNat < 2 ^ 63 := by
    decide +kernel
  obtain ⟨hinsert, hdelete, hrestored⟩ :=
    deletion_undoes_insertion s { id := ⟨6⟩ } () hs hd hnew hbound
  have hgen : s.generation + 2 = 3 := by decide +kernel
  rw [hgen] at hrestored
  exact ⟨s, _, _, by decide +kernel, Prod.ext rfl hinsert, by decide +kernel, Prod.ext rfl hdelete,
    hrestored⟩

end Tiling
