import Tiling.Proofs.Condensing
import Tiling.Proofs.SlotOrder
import Tiling.Proofs.Uniqueness

/-!
# The fan-out of the branches

A host that only inserts single leaves into the free slot, and moves nothing, never sees a branch
with more children than the configuration allows. Deletions lower the number of children, balancing
drops branches, and swaps keep the numbers. A new branch is made only when every branch is full.
-/

namespace Tiling

variable {α : Type}

open Node Context
open scoped List

/-! ## 1. Runs of insertions -/

/-- Whether an action puts nothing into the tree but single leaves, each into the free slot. -/
def Action.growsByLeaves : Action α → Bool
  | .insert node _ _ => node.isLeaf
  | .move .. | .commitStaged => false
  | _ => true

theorem Action.insert_of_growsByLeaves {a : Action α} {node : Node α} (ha : a.growsByLeaves)
    (h : a.carried? = some node) :
    node.isLeaf = true ∧ ∃ magnified focused, a = .insert node magnified focused := by
  cases a with
  | insert node' magnified focused =>
    obtain rfl := Option.some.inj h
    exact ⟨ha, magnified, focused, rfl⟩
  | move => cases ha
  | _ => cases h

def Call.growsByLeaves : Call α → Bool
  -- The configuration is given once.
  | .perform a => a.growsByLeaves
  | .configure _ => false
  | _ => true

namespace Node

def branches (n : Node α) : List (Node α) :=
  n.nodes.filter fun m => !m.isLeaf

theorem mem_branches {n b : Node α} : b ∈ n.branches ↔ b ∈ n.nodes ∧ b.isLeaf = false := by
  rw [branches, List.mem_filter, Bool.not_eq_true']

/-- No branch has more than that many children with leaves. -/
def FansOut (capacity : Nat) (n : Node α) : Prop :=
  ∀ e ∈ n.census, ∀ j, e.forks = some j → j ≤ capacity

end Node

def State.branches (s : State α) : List (Node α) :=
  s.root.elim [] Node.branches

theorem State.branches_eq {s : State α} {root : Node α} (h : s.root = some root) :
    s.branches = root.branches := by
  rw [branches, h, Option.elim_some]

/-- What a host reaches with this configuration, from the empty state or from a tree of that
fan-out, when it puts in single leaves and moves nothing. -/
inductive Grown (config : Config) : State α → Prop where
  | empty : Grown config { State.empty with config }
  | ofRoot (root : Node α) (hd : root.ids.Nodup)
      (hfan : ∀ b ∈ root.branches, b.children.length ≤ config.maxChildren) :
      Grown config { State.ofRoot root with config }
  | call {s : State α} (c : Call α) (hc : c.growsByLeaves) (hs : Grown config s) :
      Grown config (s.call c)

namespace Node

variable {capacity : Nat}

/-! ## 2. Numbers of children -/

theorem fansOut_leaf (h : Header) (d : α) : (leaf h d).FansOut capacity := by
  intro e he j hj
  rw [census_leaf, List.mem_singleton] at he
  rw [he] at hj
  cases hj

theorem fansOut_branch {h : Header} {cs : Forest α} : (branch h cs).FansOut capacity ↔
    cs.countP bears ≤ capacity ∧ ∀ c ∈ cs, c.FansOut capacity := by
  unfold FansOut
  simp only [census_branch, List.forall_mem_cons, Option.some.injEq, List.mem_flatMap]
  constructor
  · intro hall
    exact ⟨hall.1 _ rfl, fun c hc e he => hall.2 e ⟨c, hc, he⟩⟩
  · intro hall
    refine ⟨fun j hj => hj ▸ hall.1, fun e he => ?_⟩
    obtain ⟨c, hc, hec⟩ := he
    exact hall.2 c hc e hec

/-- The bound on children is a matter of the census alone. -/
theorem fansOut_congr {m n : Node α} (h : m.census ~ n.census) :
    m.FansOut capacity ↔ n.FansOut capacity := by
  unfold FansOut
  simp only [h.mem_iff]

/-- What fills a hole counts as it does elsewhere, as long as there is a leaf in it. -/
theorem FansOut.plug {c : Context α} {m n : Node α} (h : (plug c m).FansOut capacity)
    (hm : m.bears) (hn : n.bears) (hfan : n.FansOut capacity) :
    (Context.plug c n).FansOut capacity := by
  intro e he
  rw [(census_plug hn).mem_iff, List.mem_append] at he
  cases he with
  | inl he => exact h e ((census_plug hm).mem_iff.mpr (List.mem_append_left _ he))
  | inr he => exact hfan e he

theorem FansOut.of_mem_nodes {m n : Node α} (h : n.FansOut capacity) (hm : m ∈ n.nodes) :
    m.FansOut capacity := by
  intro e he
  obtain ⟨k, hk, rfl⟩ := List.mem_map.mp he
  exact h _ (List.mem_map_of_mem (mem_nodes_trans hk hm))

/-- A tree is within the bound when each of its containers has few enough children. -/
theorem fansOut_of_branches {n : Node α}
    (h : ∀ b ∈ n.branches, b.children.length ≤ capacity) : n.FansOut capacity := by
  intro e he j hj
  obtain ⟨m, hm, rfl⟩ := List.mem_map.mp he
  cases m with
  | leaf hd d => cases hj
  | branch hd cs =>
    have hlength := h _ (mem_branches.mpr ⟨hm, rfl⟩)
    have hcount : cs.countP bears ≤ cs.length := List.countP_le_length
    obtain rfl := Option.some.inj hj
    exact Nat.le_trans hcount hlength

/-- In a forked tree all children have leaves. -/
theorem FansOut.length_le {n b : Node α} (h : n.FansOut capacity) (hf : n.Forked)
    (hb : b ∈ n.branches) : b.children.length ≤ capacity := by
  obtain ⟨hbn, hleaf⟩ := mem_branches.mp hb
  cases b with
  | leaf hd d => cases hleaf
  | branch hd cs =>
    rw [children_branch, ← (hf.of_mem_nodes hbn).countP_bears]
    exact (fansOut_branch.mp (h.of_mem_nodes hbn)).1

/-- The identifiers of the branches are those of the entries with a number. -/
theorem exists_branch_iff {n : Node α} {id : NodeId} :
    (∃ b ∈ n.branches, b.id = id) ↔ ∃ j, ⟨id, some j⟩ ∈ n.census := by
  constructor
  · intro h
    obtain ⟨b, hb, rfl⟩ := h
    obtain ⟨hbn, hleaf⟩ := mem_branches.mp hb
    refine ⟨b.children.countP bears, ?_⟩
    have hentry : b.entry = ⟨b.id, some (b.children.countP bears)⟩ := by
      rw [entry, hleaf, if_neg Bool.false_ne_true]
    exact hentry ▸ List.mem_map_of_mem hbn
  · intro h
    obtain ⟨j, hj⟩ := h
    obtain ⟨b, hbn, hentry⟩ := List.mem_map.mp hj
    rw [entry, Entry.mk.injEq] at hentry
    refine ⟨b, mem_branches.mpr ⟨hbn, ?_⟩, hentry.1⟩
    rw [← Bool.not_eq_true]
    intro hleaf
    rw [if_pos hleaf] at hentry
    cases hentry.2

/-! ## 3. Balancing -/

/-- Balancing keeps the entries that stay, each with its number. -/
theorem census_prune? (n : Node α) :
    n.prune?.toList.flatMap census = n.census.filter Entry.stays := by
  refine @flatMap_prune? α Entry (fun m => m.census.filter Entry.stays) census (fun h d => ?_)
    (fun m place => census_inherit m place) (fun h cs hlost => ?_) (fun h cs htwo hbelow => ?_) n
  · rw [census_leaf]
    rfl
  · rw [census_branch, List.filter_cons_of_neg (by simpa using hlost), List.filter_flatMap]
  · -- every child that is kept has leaves, so the number stays
    have hbears : ∀ c ∈ cs.filterMap prune?, c.bears := fun c hc => by
      obtain ⟨k, -, hk⟩ := List.mem_filterMap.mp hc
      exact (prune?_forked hk).bears
    have hcount : (Forest.normalize (cs.filterMap prune?)).countP bears = cs.countP bears := by
      rw [List.countP_eq_length.mpr ((Forest.forall_mem_normalize
        (fun m s => by rw [bears_withSize]) _).mpr hbears), Forest.length_normalize,
        length_filterMap_prune? fun c _ => (prune?_census c).1]
    rw [census_branch, census_branch, hcount, List.filter_cons_of_pos (by simpa using htwo),
      Forest.flatMap_normalize census_withSize, hbelow, List.filter_flatMap]

/-- Balancing strikes the entries that do not stay from the census and changes no other. -/
theorem census_of_balance? {m n : Node α} (h : n.balance? = some m) :
    m.census = n.census.filter Entry.stays := by
  obtain ⟨k, hk, rfl⟩ := Option.map_eq_some_iff.mp h
  have hcensus := census_prune? n
  rw [hk, Option.toList_some, List.flatMap_singleton] at hcensus
  rw [census_orient, hcensus]

/-- Balancing never lets a group grow. -/
theorem FansOut.balance? {m n : Node α} (h : n.FansOut capacity) (hm : n.balance? = some m) :
    m.FansOut capacity := by
  intro e he
  rw [census_of_balance? hm] at he
  exact h e (List.mem_of_mem_filter he)

/-! ## 4. Edits -/

/-- A branch that is the slot's node has room. -/
theorem length_lt_of_slot {root : Node α} {slot : Slot} {h : Header} {cs : Forest α}
    (hd : root.ids.Nodup) (hslot : root.slot? capacity = some slot)
    (hfind : root.find? slot.node = some (branch h cs)) : cs.length < capacity := by
  cases slot?_cases hslot with
  | inl hroom =>
    obtain ⟨m, hm, hasRoom, rfl⟩ := hroom
    rw [find?_of_mem_nodes hd hm, Option.some.injEq] at hfind
    rw [hfind] at hasRoom
    exact hasRoom.2
  | inr hleaf =>
    obtain ⟨-, m, hm, hisLeaf, rfl⟩ := hleaf
    rw [find?_of_mem_nodes hd hm, Option.some.injEq] at hfind
    rw [hfind] at hisLeaf
    cases hisLeaf

/-- A leaf is split only where no branch has room. -/
theorem full_of_splits {root : Node α} {slot : Slot} (hd : root.ids.Nodup)
    (hslot : root.slot? capacity = some slot)
    (hsplits : (Goal.under slot.node).splits root = true) :
    ∀ b ∈ root.branches, capacity ≤ b.children.length := by
  cases slot?_cases hslot with
  | inl hroom =>
    obtain ⟨m, hm, hasRoom, rfl⟩ := hroom
    rw [Goal.splits, find?_of_mem_nodes hd hm, Option.any_some, hasRoom.1] at hsplits
    cases hsplits
  | inr hleaf =>
    intro b hb
    obtain ⟨hbn, hbranch⟩ := mem_branches.mp hb
    exact Nat.le_of_not_lt fun hlt => hleaf.1 b hbn ⟨hbranch, hlt⟩

/-- A graft keeps the bound where there was room for one more. -/
theorem FansOut.graft {h : Header} {cs : Forest α} {child : Node α} (hlt : cs.length < capacity)
    (hcs : ∀ c ∈ cs, c.FansOut capacity) (hchild : child.FansOut capacity) (i : Nat) :
    ((branch h cs).graft i child).FansOut capacity := by
  rw [graft_branch, fansOut_branch, forall_mem_take_cons_drop]
  constructor
  · refine Nat.le_trans List.countP_le_length ?_
    rw [length_take_cons_drop]
    exact hlt
  · refine ⟨?_, hcs⟩
    rwa [FansOut, census_joined]

theorem bears_graft {h : Header} {cs : Forest α} {child : Node α} (hchild : child.bears) (i : Nat) :
    ((branch h cs).graft i child).bears := by
  rw [graft_branch, bears_branch, List.any_append, List.any_cons, bears_joined, hchild,
    Bool.true_or, Bool.or_true]

/-- A node placed under the first free slot leaves the tree within the bound. -/
theorem Placed.fansOut {root child : Node α} {i : Nat} {ids : IdSupply} {slot : Slot}
    {r : Node α × IdSupply} (hr : Placed root i child ids (.under slot.node) r)
    (htwo : 2 ≤ capacity) (hd : root.ids.Nodup) (hf : root.Forked)
    (hslot : root.slot? capacity = some slot) (hfan : root.FansOut capacity)
    (hchild : child.FansOut capacity) (hb : child.bears) : r.1.FansOut capacity := by
  generalize hgoal : Goal.under slot.node = goal at hr
  cases hr with
  | @joins c h cs hroot hc =>
    -- the branch that the child joins is the slot's node, so it had room for one more
    have hfind := find?_of_mem_nodes (m := branch h cs) hd (hroot ▸ mem_nodes_plug c _)
    rw [id_branch] at hfind
    have hlt := length_lt_of_slot hd hslot (Goal.under.inj hgoal ▸ hfind)
    have hbranch := fansOut_branch.mp (hfan.of_mem_nodes (mem_nodes_of_find? hfind))
    have hbears := (hf.of_mem_nodes (mem_nodes_of_find? hfind)).bears
    subst hroot
    exact hfan.plug hbears (bears_graft hb _) (.graft hlt hbranch.2 hchild _)
  | @splits c h d hroot hc =>
    -- the new branch has two children
    subst hroot
    rw [wrap_eq]
    refine hfan.plug rfl (bears_graft hb _) (.graft htwo (fun k hk => ?_) hchild _)
    intro e he
    rw [List.mem_singleton.mp hk, census_inner] at he
    exact fansOut_leaf h d e he
  | crosses => cases hgoal

/-- Taking a node out keeps the bound. -/
theorem FansOut.delete {root p tree : Node α} {k : Node α} (hfan : root.FansOut capacity)
    (hd : root.ids.Nodup) (hf : root.Forked) (hk : k ∈ root.nodes) (hp : root.parent? k.id = some p)
    (h : root.updateParent? k.id (fun parent => parent.dropChild k.id 0) = some tree) :
    tree.FansOut capacity := by
  obtain ⟨c, hdr, x, y, rfl, rfl, rfl⟩ := exists_plug_delete hd hk hp h
  have hpn := mem_nodes_plug c (branch hdr (x ++ k :: y))
  obtain ⟨hcount, hchildren⟩ := fansOut_branch.mp (hfan.of_mem_nodes hpn)
  obtain ⟨htwo, hforked⟩ := forked_branch.mp (hf.of_mem_nodes hpn)
  have hsublist : (x ++ y).Sublist (x ++ k :: y) := .append_left (.cons _ (.refl _)) x
  have hbears : ∀ j ∈ x ++ y, j.bears := fun j hj => (hforked j (hsublist.subset hj)).bears
  -- one child at least is left
  have hleft : (branch hdr (x ++ y)).bears := by
    rw [bears_branch_iff, List.countP_eq_length.mpr hbears]
    rw [List.length_append, List.length_cons] at htwo
    rw [List.length_append]
    omega
  refine hfan.plug (hf.of_mem_nodes hpn).bears hleft (fansOut_branch.mpr ⟨?_, fun j hj => ?_⟩)
  · exact Nat.le_trans (hsublist.countP_le) hcount
  · exact hchildren j (hsublist.subset hj)

end Node

namespace State

theorem goal?_insert {s : State α} {root node : Node α} {magnified focused : Bool} {goal : Goal}
    (hroot : s.root = some root) (h : s.goal? (.insert node magnified focused) = some goal) :
    ∃ slot, root.slot? s.config.maxChildren = some slot ∧ goal = .under slot.node := by
  obtain ⟨root', hroot', h⟩ := Option.bind_eq_some_iff.mp h
  obtain rfl := Option.some.inj (hroot.symm.trans hroot')
  obtain ⟨slot, hslot, hgoal⟩ := Option.bind_eq_some_iff.mp h
  exact ⟨slot, hslot, (Option.some.inj hgoal).symm⟩

/-! ## 5. Actions and calls -/

/-- The configuration and the fan-out of the tree. -/
structure FansOut (s : State α) (config : Config) : Prop where
  config_eq : s.config = config
  tree : ∀ root, s.root = some root → root.FansOut config.maxChildren

variable {config : Config} {s t : State α} {a : Action α}

/-- Every edit that grows the tree by leaves keeps it within the bound. -/
theorem Edited.fansOut {tree : Option (Node α)} {ids : IdSupply} (h : s.Edited a tree ids)
    (hs : s.FansOut config) (htwo : 2 ≤ config.maxChildren) (ha : a.growsByLeaves)
    (hd : s.treeIds.Nodup) (hf : ∀ root, s.root = some root → root.Forked) {n : Node α}
    (hn : tree = some n) : n.FansOut config.maxChildren := by
  have hleaf : ∀ node, a.carried? = some node → node.FansOut config.maxChildren ∧ node.bears := by
    intro node hcarried
    obtain ⟨hleaf, -⟩ := Action.insert_of_growsByLeaves ha hcarried
    cases node with
    | leaf h d => exact ⟨fansOut_leaf h d, rfl⟩
    | branch h cs => cases hleaf
  cases h with
  | plant hcarried hroot =>
    cases hn
    exact (hleaf _ hcarried).1
  | @graft _ root node goal i r hcarried hroot hgoal hnew hr =>
    cases hn
    obtain ⟨-, magnified, focused, rfl⟩ := Action.insert_of_growsByLeaves ha hcarried
    obtain ⟨slot, hslot, rfl⟩ := goal?_insert hroot hgoal
    rw [treeIds_eq hroot] at hd
    rw [hs.config_eq] at hslot
    exact hr.fansOut htwo hd (hf root hroot) hslot (hs.tree root hroot) (hleaf node hcarried).1
      (hleaf node hcarried).2
  | relocate => cases ha
  | clear => cases hn
  | @delete id root k p tree hroot hk hp htree =>
    cases hn
    obtain rfl := id_of_find? hk
    rw [treeIds_eq hroot] at hd
    exact (hs.tree root hroot).delete hd (hf root hroot) (mem_nodes_of_find? hk) hp htree
  | rearrange hb hroot htree =>
    cases hn
    exact (fansOut_congr htree).mpr (hs.tree _ hroot)

/-- An action that grows the tree by leaves keeps a settled state within the bound. -/
theorem FansOut.perform (hs : s.FansOut config) (htwo : 2 ≤ config.maxChildren)
    (ha : a.growsByLeaves) (hd : s.treeIds.Nodup) (hsettled : s.Settled)
    (h : s.perform a = .ok t) : t.FansOut config := by
  by_cases hb : a.isEdit
  · obtain ⟨r, hr, rfl⟩ := perform_edit hb h
    have hedited := edit_edited hsettled.forked hb hr
    constructor
    · have hconfig : r.config = s.config := by rw [edit_writes hr]
      exact hconfig.trans hs.config_eq
    · intro root hroot
      obtain ⟨tree, htree, hbalance⟩ := Option.bind_eq_some_iff.mp hroot
      exact (hedited.fansOut hs htwo ha hd hsettled.forked htree).balance? hbalance
  · obtain ⟨⟨hroot, -, -, hconfig⟩, -⟩ := perform_other (Bool.eq_false_iff.mpr hb) h
    constructor
    · exact hconfig.trans hs.config_eq
    · intro root hroot'
      exact hs.tree root (hroot.symm.trans hroot')

theorem FansOut.call {c : Call α} (hs : s.FansOut config) (htwo : 2 ≤ config.maxChildren)
    (hc : c.growsByLeaves) (hd : s.treeIds.Nodup) (hsettled : s.Settled) :
    (s.call c).FansOut config := by
  cases c with
  | perform a =>
    -- a staged action is not committed, so the action itself is performed
    have hsame : s.taken a = s ∧ s.performed a = a := by
      cases a with
      | commitStaged => cases hc
      | _ => exact ⟨rfl, rfl⟩
    show (s.step a).1.FansOut config
    by_cases ha : (s.step a).2 = none
    · have hperform := step_accepted ha
      rw [hsame.1, hsame.2] at hperform
      exact hs.perform htwo hc hd hsettled hperform
    · rw [step_rejected ha, hsame.1]
      exact hs
  | mintId => exact ⟨hs.config_eq, hs.tree⟩
  | newLeaf datum => exact ⟨hs.config_eq, hs.tree⟩
  | configure config => cases hc

end State

/-! ## 6. Runs -/

namespace Grown

variable {config : Config} {s : State α}

/-- What has grown is the end of a run. -/
theorem exists_run (h : Grown config s) : ∃ seen, Run s seen := by
  induction h with
  | empty => exact ⟨_, .call (.configure config) .empty nofun⟩
  | ofRoot root hd hfan => exact ⟨_, .call (.configure config) (.ofRoot root hd) nofun⟩
  | @call s c hc hs ih =>
    obtain ⟨seen, hrun⟩ := ih
    refine ⟨_, .call c hrun fun node hnode hnew => ?_⟩
    cases c with
    | perform a =>
      obtain ⟨hleaf, -⟩ := Action.insert_of_growsByLeaves hc hnode
      cases node with
      | leaf h d =>
        rw [ids_leaf]
        exact List.nodup_singleton _
      | branch h cs => cases hleaf
    | _ => cases hnode

theorem nodup (h : Grown config s) (hbound : s.ids.next.toNat < 2 ^ 63) : s.treeIds.Nodup := by
  obtain ⟨seen, hrun⟩ := h.exists_run
  exact (hrun.sound hbound).1

theorem reachable (h : Grown config s) : Reachable s := by
  obtain ⟨seen, hrun⟩ := h.exists_run
  exact hrun.reachable

theorem fansOut (h : Grown config s) (htwo : 2 ≤ config.maxChildren)
    (hbound : s.ids.next.toNat < 2 ^ 63) : s.FansOut config := by
  induction h with
  | empty => exact ⟨rfl, nofun⟩
  | ofRoot root hd hfan =>
    refine ⟨rfl, fun n hn => ?_⟩
    have hbalance : root.balance? = some n := hn
    exact (fansOut_of_branches hfan).balance? hbalance
  | @call s c hc hs ih =>
    -- the counter only rises, so the bound held before the call too
    have hle := UInt64.le_iff_toNat_le.mp (State.call_covers hs.reachable c).1
    have hbefore := Nat.lt_of_le_of_lt hle hbound
    exact (ih hbefore).call htwo hc (hs.nodup hbefore) hs.reachable.settled

end Grown

namespace Node

/-- Where nothing is split, the branches are those that were there. -/
theorem Placed.branches_eq {root child n : Node α} {i : Nat} {ids : IdSupply} {goal : Goal}
    {r : Node α × IdSupply} (hr : Placed root i child ids goal r) (hf : root.Forked)
    (hchild : child.isLeaf = true) (hsplits : goal.splits root = false)
    (hn : r.1.balance? = some n) {b : Node α} (hb : b ∈ n.branches) :
    ∃ b' ∈ root.branches, b'.id = b.id := by
  rw [exists_branch_iff]
  obtain ⟨j, hj⟩ := exists_branch_iff.mp ⟨b, hb, rfl⟩
  rw [census_of_balance? hn] at hj
  have hentry := List.mem_of_mem_filter hj
  cases hr.census hf with
  | inl hcrosses =>
    rw [hsplits] at hcrosses
    cases hcrosses.1
  | inr hjoins =>
    obtain ⟨-, -, q, k, rest, -, hbefore, hafter⟩ := hjoins
    rw [hafter.mem_iff, List.mem_cons, List.mem_append] at hentry
    rcases hentry with heq | hrest | hnew
    · rw [Entry.mk.injEq] at heq
      exact ⟨k, hbefore.mem_iff.mpr (heq.1 ▸ List.mem_cons_self)⟩
    · exact ⟨j, hbefore.mem_iff.mpr (List.mem_cons_of_mem _ hrest)⟩
    · -- the new child is no branch
      cases child with
      | leaf h d =>
        rw [census_leaf, List.mem_singleton] at hnew
        exact absurd (congrArg Entry.forks hnew) (Option.some_ne_none j)
      | branch h cs => cases hchild

end Node

namespace State

/-- What an accepted insertion makes of a tree, before it is balanced. -/
theorem insert_placed {s r : State α} {root node : Node α} {magnified focused : Bool}
    (hroot : s.root = some root) (h : s.insert node magnified focused = .ok r) :
    ∃ slot i ids placed, root.slot? s.config.maxChildren = some slot ∧
      Placed root i node ids (.under slot.node) placed ∧ r.root = some placed.1 := by
  have hedited := insert_edited h
  generalize haction : Action.insert node magnified focused = a at hedited
  generalize htree : r.root = tree at hedited ⊢
  generalize r.ids = ids at hedited
  cases hedited with
  | plant hcarried hnone => cases hroot.symm.trans hnone
  | @graft _ root' node' goal i placed hcarried hroot' hgoal hfresh hr =>
    subst haction
    obtain rfl := Option.some.inj hcarried
    obtain rfl := Option.some.inj (hroot.symm.trans hroot')
    obtain ⟨slot, hslot, rfl⟩ := goal?_insert hroot hgoal
    exact ⟨slot, i, _, placed, hslot, hr, rfl⟩
  | rearrange hb =>
    subst haction
    cases hb
  | _ => cases haction

/-- A new container appears only when every container there was is full. -/
theorem full_of_new_branch {s : State α} {node : Node α} {magnified focused : Bool}
    (hd : s.treeIds.Nodup) (hsettled : s.Settled) (hleaf : node.isLeaf = true)
    (hnew : ∃ b ∈ (s.apply (.insert node magnified focused)).branches,
      ∀ b' ∈ s.branches, b'.id ≠ b.id) :
    ∀ b ∈ s.branches, s.config.maxChildren ≤ b.children.length := by
  obtain ⟨b, hb, hnot⟩ := hnew
  unfold apply at hb
  by_cases ha : (s.step (.insert node magnified focused)).2 = none
  · obtain ⟨r, hr, hsettle⟩ := perform_edit rfl (step_accepted ha)
    rw [← hsettle] at hb
    cases hroot : s.root with
    | none =>
      -- an empty tree has no branches
      rw [branches, hroot]
      nofun
    | some root =>
      obtain ⟨slot, i, ids, placed, hslot, hplaced, htree⟩ := insert_placed hroot hr
      rw [treeIds_eq hroot] at hd
      rw [branches_eq hroot] at hnot ⊢
      cases hsplits : (Goal.under slot.node).splits root with
      | true => exact full_of_splits hd hslot hsplits
      | false =>
        have hroot' : r.settle.root = placed.1.balance? := by
          show r.root.bind Node.balance? = _
          rw [htree, Option.bind_some]
        cases hn : placed.1.balance? with
        | none =>
          rw [branches, hroot', hn] at hb
          cases hb
        | some n =>
          have hforked := hsettled.forked root hroot
          rw [branches_eq (hroot'.trans hn)] at hb
          obtain ⟨b', hb', hid⟩ := hplaced.branches_eq hforked hleaf hsplits hn hb
          exact absurd hid (hnot b' hb')
  · rw [step_rejected ha] at hb
    exact absurd rfl (hnot b hb)

end State

/-- While a host puts in single leaves and moves nothing, no branch gets more children than the
configuration allows, and an insertion makes a branch only where every branch has that many. -/
theorem insertion_respects_fan_out (config : Config) (s : State α) (hs : Grown config s)
    (htwo : 2 ≤ config.maxChildren) (hbound : s.ids.next.toNat < 2 ^ 63) :
    (∀ b ∈ s.branches, b.children.length ≤ config.maxChildren) ∧
    ∀ (node : Node α) (magnified focused : Bool), node.isLeaf = true →
      (∃ b ∈ (s.apply (.insert node magnified focused)).branches,
        ∀ b' ∈ s.branches, b'.id ≠ b.id) →
      ∀ b ∈ s.branches, config.maxChildren ≤ b.children.length := by
  have hfan := hs.fansOut htwo hbound
  have hsettled := hs.reachable.settled
  constructor
  · intro b hb
    cases hroot : s.root with
    | none =>
      rw [State.branches, hroot] at hb
      cases hb
    | some root =>
      rw [State.branches_eq hroot] at hb
      exact (hfan.tree root hroot).length_le (hsettled.forked root hroot) hb
  · intro node magnified focused hleaf hnew
    rw [← hfan.config_eq]
    exact State.full_of_new_branch (hs.nodup hbound) hsettled hleaf hnew

/-- In rows and columns of two the third pane splits a pane, and so does the fourth after a deletion
and a rejected focus. Then all branches are full, and the fifth would split a pane too. -/
theorem panes_in_twos :
    ∃ (config : Config) (s : State Unit), Grown config s ∧ config.maxChildren = 2 ∧
      s.treeIds = [.generated 2, ⟨2⟩, .generated 3, ⟨3⟩, ⟨4⟩] ∧
      (∀ b ∈ s.branches, b.children.length ≤ 2) ∧ ∀ b ∈ s.branches, 2 ≤ b.children.length := by
  let config : Config := { maxChildren := 2 }
  let insertion (n : UInt64) : Action Unit := .insert (.leaf { id := ⟨n⟩ } ()) false false
  let start : State Unit := { State.empty with config }
  let s := (((((start.call (.perform (insertion 1))).call (.perform (insertion 2))).call
    (.perform (insertion 3))).call (.perform (.delete ⟨1⟩))).call (.perform (.focus ⟨1⟩))).call
    (.perform (insertion 4))
  have hs : Grown config s :=
    .call _ rfl (.call _ rfl (.call _ rfl (.call _ rfl (.call _ rfl (.call _ rfl .empty)))))
  have hbound : s.ids.next.toNat < 2 ^ 63 := by decide +kernel
  have hnew : ∃ b ∈ (s.apply (insertion 5)).branches, ∀ b' ∈ s.branches, b'.id ≠ b.id := by
    decide +kernel
  obtain ⟨hle, hfull⟩ := insertion_respects_fan_out config s hs (Nat.le_refl 2) hbound
  exact ⟨config, s, hs, rfl, by decide +kernel, hle, hfull _ false false rfl hnew⟩

end Tiling
