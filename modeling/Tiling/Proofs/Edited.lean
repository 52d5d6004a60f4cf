import Tiling.Proofs.Keep
import Tiling.Proofs.Paths
import Tiling.Proofs.Step
import Tiling.Proofs.Supply

/-!
# What an accepted edit does

An accepted edit plants a node as the tree, grafts a new one, moves one of the tree, clears the
tree, deletes a node, or rearranges what is there. An insertion is the graft of a new node at the
slot that the tree has free. The ghost functions name the identifiers that an action mints.
-/

namespace Tiling

variable {α : Type}

open Node
open scoped List

def Action.carried? : Action α → Option (Node α)
  | .move _ _ _ node | .insert node _ _ => some node
  | _ => none

def Action.shares : Action α → List Float32
  | .move _ _ _ node | .insert node _ _ => node.nodes.map Node.size
  | .resize shares => shares.map Resize.size
  | _ => []

def Action.rearranges : Action α → Bool
  | .swap .. | .resize .. => true
  | _ => false

namespace State

def treeIds (s : State α) : List NodeId :=
  s.root.elim [] Node.ids

def goal? (s : State α) : Action α → Option Goal
  | .move parent atRoot _ _ => (Goal.of parent atRoot).toOption
  -- A new node goes to the free slot.
  | .insert .. => do
      let root ← s.root
      let slot ← root.slot? s.config.maxChildren
      return .under slot.node
  | _ => none

def grafted? (s : State α) (b : Action α) : Option (Node α) :=
  -- This is the tree's own node where it has one of the identifier.
  b.carried?.map fun node => (s.root.bind (·.find? node.id)).getD node

def mintedBy (s : State α) (b : Action α) : List NodeId :=
  -- A branch is made beside the root, or under a leaf.
  match s.root, s.goal? b, s.grafted? b with
  | some root, some goal, some child =>
      if goal.splits root then [(s.ids.reserveAll child.ids).peek] else []
  | _, _, _ => []

/-- The edits, each with the tree before balancing and with the supply after it. -/
inductive Edited (s : State α) : Action α → Option (Node α) → IdSupply → Prop where
  | plant {b : Action α} {node : Node α} (hcarried : b.carried? = some node)
      (hroot : s.root = none) : Edited s b (some node) (s.ids.reserveAll node.ids)
  | graft {b : Action α} {root node : Node α} {goal : Goal} {i : Nat} {r : Node α × IdSupply}
      (hcarried : b.carried? = some node) (hroot : s.root = some root)
      (hgoal : s.goal? b = some goal) (hnew : ∀ id ∈ node.ids, id ∉ root.ids)
      (hr : root.Placed i node (s.ids.reserveAll node.ids) goal r) : Edited s b (some r.1) r.2
  | relocate {parent : Option NodeId} {atRoot : Bool} {i : Nat} {root node k p : Node α}
      {goal : Goal} {r : Node α × IdSupply} (hroot : s.root = some root)
      (hgoal : Goal.of parent atRoot = .ok goal) (hk : root.find? node.id = some k)
      (hp : root.parent? node.id = some p) (hout : root.checkOutside k goal = .ok ())
      (hr : root.Placed i k (s.ids.reserveAll k.ids) goal r) :
      Edited s (.move parent atRoot i node)
        (some (r.1.dropStale node.id (some p.id)
          (root.staleStart node.id (some p.id) goal i))) r.2
  | clear {root : Node α} (hroot : s.root = some root) : Edited s (.delete root.id) none s.ids
  | delete {id : NodeId} {root k p tree : Node α} (hroot : s.root = some root)
      (hk : root.find? id = some k) (hp : root.parent? id = some p)
      (htree : root.updateParent? id (fun parent => parent.dropChild id 0) = some tree) :
      Edited s (.delete id) (some tree) s.ids
  | rearrange {b : Action α} {root tree : Node α} (hb : b.rearranges) (hroot : s.root = some root)
      (htree : tree.census ~ root.census) : Edited s b (some tree) s.ids

end State

theorem State.treeIds_eq {s : State α} {root : Node α} (h : s.root = some root) :
    s.treeIds = root.ids := by
  rw [treeIds, h, Option.elim_some]

/-! ## 1. Moves and insertions -/

theorem Goal.of_eq_ok {parent : Option NodeId} {atRoot : Bool} {goal : Goal}
    (h : Goal.of parent atRoot = .ok goal) : goal.parent? = parent := by
  cases parent <;> cases atRoot <;> cases h <;> rfl

namespace Node

/-- A subtree that passes the freshness check shares no id with the tree. -/
theorem checkFresh_eq_ok {root node : Node α} (h : root.checkFresh node = .ok ()) :
    ∀ id ∈ node.ids, id ∉ root.ids := by
  rw [checkFresh] at h
  split at h
  · cases h
  · next hnone =>
    intro id hid hmem
    exact List.find?_eq_none.mp hnone id hid (contains_iff.mpr hmem)

/-- What a move carries is either the node found in the tree, outside of which the goal lies, or a
new one that is fresh throughout. -/
theorem moved_eq_ok {root node child : Node α} {goal : Goal}
    (h : root.moved node goal = .ok child) :
    root.checkGoal goal = .ok () ∧
      (root.find? node.id = some child ∧ root.checkOutside child goal = .ok () ∨
        root.find? node.id = none ∧ root.checkFresh node = .ok () ∧ child = node) := by
  rw [moved] at h
  split at h
  · next k hk =>
    obtain ⟨⟨⟩, hout, h⟩ := State.bind_eq_ok h
    obtain ⟨⟨⟩, hgoal, h⟩ := State.bind_eq_ok h
    cases h
    exact ⟨hgoal, .inl ⟨hk, hout⟩⟩
  · next hk =>
    obtain ⟨⟨⟩, hfresh, h⟩ := State.bind_eq_ok h
    obtain ⟨⟨⟩, hgoal, h⟩ := State.bind_eq_ok h
    cases h
    exact ⟨hgoal, .inr ⟨hk, hfresh, rfl⟩⟩

theorem mem_levels {depth : Nat} {level : Forest α} {m : Node α}
    (h : m ∈ Forest.levels depth level) : ∃ n ∈ level, m ∈ n.nodes := by
  induction depth generalizing level with
  | zero => cases h
  | succ depth ih =>
    rw [Forest.levels, List.mem_append] at h
    rcases h with h | h
    · exact ⟨m, h, self_mem_nodes m⟩
    · obtain ⟨k, hk, hm⟩ := ih h
      obtain ⟨n, hn, hkn⟩ := List.mem_flatMap.mp hk
      exact ⟨n, hn, mem_nodes_trans hm (mem_nodes_of_mem_children (List.mem_reverse.mp hkn))⟩

/-- The slot is one of the tree's own nodes. -/
theorem mem_ids_of_slot? {n : Node α} {capacity : Nat} {slot : Slot}
    (h : n.slot? capacity = some slot) : slot.node ∈ n.ids := by
  have hlevels : ∀ m ∈ n.levelOrder, m.id ∈ n.ids := by
    intro m hm
    obtain ⟨k, hk, hmk⟩ := mem_levels hm
    rw [List.mem_singleton.mp hk] at hmk
    exact id_mem_of_mem_nodes hmk
  rw [slot?] at h
  split at h
  · next found hfound =>
    cases h
    obtain ⟨m, hm, hslot⟩ := List.exists_of_findSome?_eq_some hfound
    cases m with
    | leaf hd d => cases hslot
    | branch hd cs =>
      rw [roomFor?, Option.ite_none_right_eq_some, Option.some.injEq] at hslot
      rw [← hslot.2]
      exact hlevels _ hm
  · obtain ⟨m, hm, hslot⟩ := List.exists_of_findSome?_eq_some h
    cases m with
    | leaf hd d =>
      cases hslot
      exact hlevels _ hm
    | branch hd cs => cases hslot

end Node

namespace State

theorem moveWithin_edited {s r : State α} {parent : Option NodeId} {atRoot : Bool} {i : Nat}
    {root node : Node α} {goal : Goal} (hroot : s.root = some root)
    (hgoal : Goal.of parent atRoot = .ok goal) (h : s.moveWithin root goal i node = .ok r) :
    s.Edited (.move parent atRoot i node) r.root r.ids := by
  obtain ⟨child, hmoved, h⟩ := bind_eq_ok h
  obtain rfl := Except.ok.inj h
  obtain ⟨hcheck, ⟨hk, hout⟩ | ⟨hnone, hfresh, rfl⟩⟩ := moved_eq_ok hmoved
  · -- what is grafted is the node as the tree has it, and its parent is where the stale copy is
    have hr := place_placed hcheck child i (s.ids.reserveAll child.ids)
    obtain ⟨p, hp⟩ := hr.exists_parent hk hout
    have hedited := Edited.relocate (i := i) hroot hgoal hk hp hout hr
    simp only [hp, Option.map_some]
    exact hedited
  · -- a new node has no parent, so there is no stale copy to take out
    have hr := place_placed hcheck child i (s.ids.reserveAll child.ids)
    have hparent : root.parent? child.id = none :=
      parent?_eq_none.mpr (.inr (find?_eq_none.mp hnone))
    have hgoal' : s.goal? (.move parent atRoot i child) = some goal := by
      rw [goal?, hgoal]
      rfl
    simp only [hparent, Option.map_none]
    exact .graft rfl hroot hgoal' (checkFresh_eq_ok hfresh) hr

/-- A move is an edit: it drops the node somewhere and takes the stale copy out. -/
theorem move_edited {s r : State α} {parent : Option NodeId} {atRoot : Bool} {i : Nat}
    {node : Node α} (h : s.move parent atRoot i node = .ok r) :
    s.Edited (.move parent atRoot i node) r.root r.ids := by
  obtain ⟨goal, hgoal, h⟩ := bind_eq_ok h
  split at h
  · next root hroot => exact moveWithin_edited hroot hgoal h
  · next hroot =>
    obtain rfl := Except.ok.inj h
    exact .plant rfl hroot
  · cases h

/-- An insertion is an edit: it drops the node under the first free slot. -/
theorem insert_edited {s r : State α} {node : Node α} {magnified focused : Bool}
    (h : s.insert node magnified focused = .ok r) :
    s.Edited (.insert node magnified focused) r.root r.ids := by
  rw [insert] at h
  split at h
  · next hroot =>
    obtain rfl := Except.ok.inj h
    exact .plant rfl hroot
  · next root hroot =>
    obtain ⟨t, ht, h⟩ := bind_eq_ok h
    obtain rfl := Except.ok.inj h
    obtain ⟨⟨⟩, hfresh, ht⟩ := bind_eq_ok ht
    split at ht
    · cases ht
    · next slot hslot =>
      obtain rfl := Except.ok.inj ht
      -- a slot names a node of the tree, so the goal is there
      have hcheck : root.checkGoal (.under slot.node) = .ok () := by
        rw [checkGoal, if_pos (contains_iff.mpr (mem_ids_of_slot? hslot))]
      have hr := place_placed hcheck node slot.index (s.ids.reserveAll node.ids)
      refine .graft rfl hroot ?_ (checkFresh_eq_ok hfresh) hr
      rw [goal?, hroot]
      simp [hslot]

/-! ## 2. Deletions and rearrangements -/

theorem delete_edited {s r : State α} {id : NodeId} (h : s.delete id = .ok r) :
    s.Edited (.delete id) r.root r.ids := by
  obtain ⟨root, hroot, h⟩ := bind_eq_ok h
  have hroot := rootOf_eq_ok hroot
  split at h
  · next hid =>
    obtain rfl := Except.ok.inj h
    rw [← hid]
    exact .clear hroot
  · next hid =>
    split at h
    · next tree htree =>
      obtain rfl := Except.ok.inj h
      -- without a parent there is nothing to update, and without the node there is no parent
      cases hp : root.parent? id with
      | none => rw [updateParent?_eq_none hp] at htree; cases htree
      | some p =>
        cases hk : root.find? id with
        | none => rw [parent?_eq_none.mpr (.inr (find?_eq_none.mp hk))] at hp; cases hp
        | some k => exact .delete hroot hk hp htree
    · cases h

/-- A swap is an edit: the two subtrees trade places. -/
theorem swap_edited {s r : State α} {first second : NodeId}
    (hf : ∀ root, s.root = some root → root.Forked) (h : s.swap first second = .ok r) :
    s.Edited (.swap first second) r.root r.ids := by
  obtain ⟨root, p, q, a, b, hroot, -, -, hapart, rfl⟩ := swap_eq_ok_iff.mp h
  have hbears : ∀ m ∈ root.nodes, m.bears := fun m hm =>
    ((hf root hroot).of_mem_nodes hm).bears
  exact .rearrange rfl hroot (census_swapAt hapart.part hapart.at_first hapart.at_second
    (hbears a (mem_nodes_of_at? hapart.at_first)) (hbears b (mem_nodes_of_at? hapart.at_second)))

theorem resize_edited {s r : State α} {shares : List Resize} (h : s.resize shares = .ok r) :
    s.Edited (.resize shares) r.root r.ids := by
  obtain ⟨root, hroot, h⟩ := bind_eq_ok h
  obtain ⟨-, -, h⟩ := bind_eq_ok h
  obtain rfl := Except.ok.inj h
  exact .rearrange rfl (rootOf_eq_ok hroot) (census_foldl_resized shares root ▸ .refl _)

/-- Every structural action that succeeds is one of the edits, with the ids it minted. -/
theorem edit_edited {s r : State α} {b : Action α} (hf : ∀ root, s.root = some root → root.Forked)
    (hb : b.isEdit) (h : s.edit b = .ok r) : s.Edited b r.root r.ids := by
  cases b with
  | move parent atRoot i node => exact move_edited h
  | insert node magnified focused => exact insert_edited h
  | delete id => exact delete_edited h
  | swap first second => exact swap_edited hf h
  | resize shares => exact resize_edited h
  | _ => cases hb

/-! ## 3. The supply after an edit -/

theorem grafted?_eq_none {s : State α} {b : Action α} (h : b.carried? = none) :
    s.grafted? b = none := by
  rw [grafted?, h, Option.map_none]

theorem mintedBy_eq_nil {s : State α} {b : Action α} (h : s.grafted? b = none) :
    s.mintedBy b = [] := by
  rw [mintedBy, h]
  split <;> simp_all

/-- An edit mints one id when its goal splits a leaf, and otherwise none. -/
theorem mintedBy_eq {s : State α} {b : Action α} {root child : Node α} {goal : Goal}
    (hroot : s.root = some root) (hgoal : s.goal? b = some goal)
    (hchild : s.grafted? b = some child) :
    s.mintedBy b = if goal.splits root then [(s.ids.reserveAll child.ids).peek] else [] := by
  rw [mintedBy, hroot, hgoal, hchild]

/-- An action mints one identifier at most. -/
theorem nodup_mintedBy (s : State α) (b : Action α) : (s.mintedBy b).Nodup := by
  rw [mintedBy]
  split
  · split <;> simp
  · exact List.nodup_nil

theorem goal?_move {s : State α} {parent : Option NodeId} {atRoot : Bool} {goal : Goal}
    (h : Goal.of parent atRoot = .ok goal) (i : Nat) (node : Node α) :
    s.goal? (.move parent atRoot i node) = some goal := by
  rw [goal?, h]
  rfl

theorem grafted?_of_empty {s : State α} {b : Action α} {node : Node α}
    (hcarried : b.carried? = some node) (hroot : s.root = none) : s.grafted? b = some node := by
  rw [grafted?, hcarried, hroot]
  rfl

theorem grafted?_eq {s : State α} {b : Action α} {root node : Node α}
    (hcarried : b.carried? = some node) (hroot : s.root = some root) :
    s.grafted? b = some ((root.find? node.id).getD node) := by
  rw [grafted?, hcarried, hroot]
  rfl

theorem grafted?_of_new {s : State α} {b : Action α} {root node : Node α}
    (hcarried : b.carried? = some node) (hroot : s.root = some root)
    (hnew : ∀ id ∈ node.ids, id ∉ root.ids) : s.grafted? b = some node := by
  rw [grafted?_eq hcarried hroot, find?_eq_none.mpr (hnew _ (id_mem_ids node)), Option.getD_none]

/-- An id that is in the tree already moves the node found there, not the one given. -/
theorem grafted?_of_find? {s : State α} {b : Action α} {root node k : Node α}
    (hcarried : b.carried? = some node) (hroot : s.root = some root)
    (hk : root.find? node.id = some k) : s.grafted? b = some k := by
  rw [grafted?_eq hcarried hroot, hk, Option.getD_some]

/-- An edit that grafts reserves what it grafts and then mints at most one identifier. Any other
edit leaves the supply alone. -/
theorem Edited.supply {s : State α} {b : Action α} {tree : Option (Node α)} {ids : IdSupply}
    (h : s.Edited b tree ids) (hf : ∀ root, s.root = some root → root.Forked) :
    (s.grafted? b = none ∧ ids = s.ids) ∨ ∃ child, s.grafted? b = some child ∧
      (s.mintedBy b = [] ∧ ids = s.ids.reserveAll child.ids ∨
        s.mintedBy b = [(s.ids.reserveAll child.ids).peek] ∧
          ids = (s.ids.reserveAll child.ids).advance) := by
  cases h with
  | plant hcarried hroot =>
    refine .inr ⟨_, grafted?_of_empty hcarried hroot, .inl ⟨?_, rfl⟩⟩
    rw [mintedBy, hroot]
  | @graft _ root node goal i r hcarried hroot hgoal hnew hr =>
    have hchild := grafted?_of_new hcarried hroot hnew
    refine .inr ⟨node, hchild, ?_⟩
    rw [mintedBy_eq hroot hgoal hchild, hr.supply (hf root hroot)]
    cases goal.splits root <;> simp
  | @relocate parent atRoot i root node k p goal r hroot hgoal hk hp hout hr =>
    have hchild := grafted?_of_find? (b := .move parent atRoot i node) rfl hroot hk
    refine .inr ⟨k, hchild, ?_⟩
    rw [mintedBy_eq hroot (goal?_move hgoal i node) hchild, hr.supply (hf root hroot)]
    cases goal.splits root <;> simp
  | clear | delete => exact .inl ⟨rfl, rfl⟩
  | rearrange hb =>
    cases b with
    | swap | resize => exact .inl ⟨rfl, rfl⟩
    | _ => cases hb

/-- The counter does not fall, and it passes all that is grafted or minted. -/
theorem Edited.covers {s : State α} {b : Action α} {tree : Option (Node α)} {ids : IdSupply}
    (h : s.Edited b tree ids) (hf : ∀ root, s.root = some root → root.Forked) :
    s.ids.next ≤ ids.next ∧ ids.Covers (s.mintedBy b) ∧
      ∀ child, s.grafted? b = some child → ids.Covers child.ids := by
  rcases h.supply hf with ⟨hnone, rfl⟩ | ⟨child, hchild, hmint⟩
  · rw [mintedBy_eq_nil hnone, hnone]
    exact ⟨UInt64.le_refl _, IdSupply.covers_nil _, nofun⟩
  · -- the counter passes what is grafted, and then what is minted
    have hle := IdSupply.next_le_reserveAll s.ids child.ids
    have hcovers := IdSupply.covers_reserveAll s.ids child.ids
    rw [hchild]
    rcases hmint with ⟨hminted, rfl⟩ | ⟨hminted, rfl⟩
    · rw [hminted]
      exact ⟨hle, IdSupply.covers_nil _, fun _ h => Option.some.inj h ▸ hcovers⟩
    · have hadvance := IdSupply.next_le_advance (s.ids.reserveAll child.ids)
      rw [hminted]
      exact ⟨UInt64.le_trans hle hadvance, IdSupply.covers_advance _,
        fun _ h => Option.some.inj h ▸ hcovers.mono hadvance⟩

/-- What an edit mints is a generated identifier, and none of those that the supply covers or that
come with the graft. -/
theorem Edited.minted_fresh {s : State α} {b : Action α} {tree : Option (Node α)} {ids : IdSupply}
    (h : s.Edited b tree ids) (hf : ∀ root, s.root = some root → root.Forked)
    (hbound : ids.next.toNat < 2 ^ 63) {id : NodeId} (hid : id ∈ s.mintedBy b) :
    id.isGenerated ∧ (∀ l, s.ids.Covers l → id ∉ l) ∧
      ∀ child, s.grafted? b = some child → id ∉ child.ids := by
  rcases h.supply hf with ⟨hnone, -⟩ | ⟨child, hchild, ⟨hminted, -⟩ | ⟨hminted, rfl⟩⟩
  · rw [mintedBy_eq_nil hnone] at hid
    cases hid
  · rw [hminted] at hid
    cases hid
  · rw [hminted, List.mem_singleton] at hid
    have hle := UInt64.le_iff_toNat_le.mp (IdSupply.next_le_advance (s.ids.reserveAll child.ids))
    -- the counter was no higher before the identifier was minted, so the bound held then too
    have hlt : (s.ids.reserveAll child.ids).next.toNat < 2 ^ 63 := Nat.lt_of_le_of_lt hle hbound
    rw [hid, hchild]
    refine ⟨IdSupply.isGenerated_peek _, fun l hl => ?_, fun c hc => ?_⟩
    · exact (hl.mono (IdSupply.next_le_reserveAll s.ids child.ids)).peek_not_mem hlt
    · rw [← Option.some.inj hc]
      exact (IdSupply.covers_reserveAll s.ids child.ids).peek_not_mem hlt

/-- A tree after an edit has no identifiers but those of the old tree, of what is grafted and the
one that is minted. -/
theorem Edited.subset {s : State α} {b : Action α} {tree : Option (Node α)} {ids : IdSupply}
    (h : s.Edited b tree ids) (hf : ∀ root, s.root = some root → root.Forked) :
    tree.elim [] Node.survivors ⊆
      s.treeIds ++ ((s.grafted? b).elim [] Node.ids ++ s.mintedBy b) := by
  intro id hid
  rw [List.mem_append, List.mem_append]
  cases h with
  | plant hcarried hroot =>
    rw [grafted?_of_empty hcarried hroot]
    exact .inr (.inl ((survivors_sublist _).subset hid))
  | @graft _ root node goal i r hcarried hroot hgoal hnew hr =>
    have hchild := grafted?_of_new hcarried hroot hnew
    have hmem := (hr.ids_perm (hf root hroot)).mem_iff.mp ((survivors_sublist _).subset hid)
    rw [treeIds_eq hroot, mintedBy_eq hroot hgoal hchild, hchild]
    rw [List.mem_append, List.mem_append] at hmem
    exact hmem.elim (fun h => .inr (.inr h)) (Or.imp_right .inl)
  | @relocate parent atRoot i root node k p goal r hroot hgoal hk hp hout hr =>
    have hchild := grafted?_of_find? (b := .move parent atRoot i node) rfl hroot hk
    -- to take out the stale copy brings no identifier
    have hmem := (hr.ids_perm (hf root hroot)).mem_iff.mp
      (ids_dropStale_subset _ _ _ _ ((survivors_sublist _).subset hid))
    rw [treeIds_eq hroot, mintedBy_eq hroot (goal?_move hgoal i node) hchild, hchild]
    rw [List.mem_append, List.mem_append] at hmem
    exact hmem.elim (fun h => .inr (.inr h)) (Or.imp_right .inl)
  | clear => cases hid
  | delete hroot hk hp htree =>
    rw [treeIds_eq hroot]
    exact .inl (ids_delete_subset hp htree ((survivors_sublist _).subset hid))
  | @rearrange _ root tree hb hroot htree =>
    rw [treeIds_eq hroot]
    exact .inl (((hf root hroot).survivors_perm htree).mem_iff.mp hid)

end State

end Tiling
