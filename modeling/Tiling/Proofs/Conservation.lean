import Tiling.Proofs.Edited
import Tiling.Proofs.Settled

/-!
# Conservation of nodes

Which identifiers an action costs the tree and which it brings can be told from the state before it:
a deletion costs the subtree, taking a node out costs a parent of two, and nothing else is lost.
-/

namespace Tiling

variable {α : Type}

open scoped List

/-! ## 1. Losses and gains -/

/-- How the identifiers of a tree change. -/
structure Change (old new lost gained : List NodeId) : Prop where
  lost_subset : lost ⊆ old
  gained_new : ∀ id ∈ gained, id ∉ old
  mem_new : ∀ id, id ∈ new ↔ id ∈ old ∧ id ∉ lost ∨ id ∈ gained

/-- The node's parent if it has that node and just one other child. -/
def Node.pairParent (root : Node α) (id : NodeId) : List NodeId :=
  match root.parent? id with
  | some parent => if parent.children.length = 2 then [parent.id] else []
  | none => []

def Node.balancedIds (n : Node α) : List NodeId :=
  n.balance?.elim [] Node.ids

namespace State

def lostBy (s : State α) (b : Action α) : List NodeId :=
  match s.root, b with
  | some root, .delete id => (root.find? id).elim [] Node.ids ++ root.pairParent id
  | some root, .move parent _ _ node =>
      if root.contains node.id then
        (root.pairParent node.id).filter fun old => parent ≠ some old
      else []
  | _, _ => []

def gainedBy (s : State α) (b : Action α) : List NodeId :=
  match b.carried? with
  | none => []
  | some node =>
      if node.id ∈ s.treeIds then s.mintedBy b
      -- What has no leaves does not come into the tree.
      else if node.leaves.isEmpty then []
      else node.balancedIds ++ s.mintedBy b

end State

open Node

/-- Nothing is lost and nothing gained. -/
theorem Change.of_mem_iff {old new : List NodeId} (h : ∀ id, id ∈ new ↔ id ∈ old) :
    Change old new [] [] :=
  ⟨List.nil_subset _, nofun, by simpa using h⟩

theorem Node.mem_pairParent {root : Node α} {id i : NodeId} :
    i ∈ root.pairParent id ↔ ∃ p, root.parent? id = some p ∧ p.children.length = 2 ∧ i = p.id := by
  rw [pairParent]
  cases root.parent? id with
  | none => simp
  | some p =>
    by_cases h : p.children.length = 2 <;> simp [h]

/-- What balancing leaves are the survivors. -/
theorem Node.balancedIds_eq (n : Node α) : n.balancedIds = n.survivors := by
  rw [balancedIds]
  cases h : n.balance? with
  | none => rw [survivors_of_not_bears ((balance?_eq_none n).mp h), Option.elim_none]
  | some m => rw [Option.elim_some, ids_of_balance? h]

namespace State

theorem gainedBy_of_mem {s : State α} {b : Action α} {node : Node α}
    (hcarried : b.carried? = some node) (h : node.id ∈ s.treeIds) :
    s.gainedBy b = s.mintedBy b := by
  simp [gainedBy, hcarried, h]

/-- A new node brings in its survivors, and the minted branch if it bears. -/
theorem mem_gainedBy_of_new {s : State α} {b : Action α} {node : Node α}
    (hcarried : b.carried? = some node) (h : node.id ∉ s.treeIds) (id : NodeId) :
    id ∈ s.gainedBy b ↔ id ∈ node.survivors ∨ node.bears ∧ id ∈ s.mintedBy b := by
  have hleaves : node.leaves.isEmpty = false ↔ node.bears := by
    rw [← leaves_ne_nil_iff, List.isEmpty_eq_false_iff]
  simp only [gainedBy, hcarried, if_neg h]
  cases hempty : node.leaves.isEmpty with
  | true =>
    have hbears : node.bears = false := by
      rw [← Bool.not_eq_true, ← hleaves, hempty]
      exact Bool.noConfusion
    simp [hbears, survivors_of_not_bears hbears]
  | false => simp [hleaves.mp hempty, balancedIds_eq]

/-- A new node takes nothing out of the tree. -/
theorem lostBy_of_new {s : State α} {b : Action α} {root node : Node α}
    (hcarried : b.carried? = some node) (hroot : s.root = some root)
    (hnew : ∀ id ∈ node.ids, id ∉ root.ids) : s.lostBy b = [] := by
  cases b with
  | move parent atRoot i node' =>
    cases hcarried
    have hnot : ¬root.contains node.id := mt contains_iff.mp (hnew _ (id_mem_ids node))
    simp only [lostBy, hroot, if_neg hnot]
  | insert => simp only [lostBy, hroot]
  | _ => cases hcarried

theorem lostBy_of_empty {s : State α} (hroot : s.root = none) (b : Action α) :
    s.lostBy b = [] := by
  simp only [lostBy, hroot]

theorem gainedBy_of_carries_none {s : State α} {b : Action α} (h : b.carried? = none) :
    s.gainedBy b = [] := by
  rw [gainedBy, h]

/-- An action that edits nothing and one that only rearranges carry nothing and lose nothing. -/
theorem accounts_of_stills {s : State α} {b : Action α}
    (hb : b.isEdit = false ∨ b.rearranges = true) : b.carried? = none ∧ s.lostBy b = [] := by
  cases b with
  | move | insert | delete => simp [Action.isEdit, Action.rearranges] at hb
  | _ => exact ⟨rfl, by rw [lostBy] <;> exact nofun⟩

/-- A move loses the old parent alone, and only if it was a pair and does not get the node back. -/
theorem mem_lostBy_move {s : State α} {parent : Option NodeId} {atRoot : Bool} {i : Nat}
    {root node p : Node α} (hroot : s.root = some root) (hmem : node.id ∈ root.ids)
    (hp : root.parent? node.id = some p) (id : NodeId) :
    id ∈ s.lostBy (.move parent atRoot i node) ↔
      id = p.id ∧ parent ≠ some p.id ∧ p.children.length = 2 := by
  simp only [lostBy, hroot, if_pos (contains_iff.mpr hmem), List.mem_filter, mem_pairParent, hp,
    Option.some.injEq, decide_eq_true_iff]
  constructor
  · rintro ⟨⟨_, rfl, hpair, rfl⟩, hne⟩
    exact ⟨rfl, hne, hpair⟩
  · rintro ⟨rfl, hne, hpair⟩
    exact ⟨⟨p, rfl, hpair, rfl⟩, hne⟩

/-- A deletion loses the subtree, and the parent if that was a pair. -/
theorem mem_lostBy_delete {s : State α} {root k : Node α} {target : NodeId}
    (hroot : s.root = some root) (hk : root.find? target = some k) (id : NodeId) :
    id ∈ s.lostBy (.delete target) ↔ id ∈ k.ids ∨
      ∃ p, root.parent? target = some p ∧ p.children.length = 2 ∧ id = p.id := by
  simp only [lostBy, hroot, hk, Option.elim_some, List.mem_append, mem_pairParent]

/-! ## 2. Each edit makes its change -/

/-- The change that an action makes. Only a new node of repeated identifiers can repeat identifiers
in the tree. -/
structure Accounted (s : State α) (b : Action α) (new : List NodeId) : Prop where
  change : Change s.treeIds new (s.lostBy b) (s.gainedBy b)
  nodup : (∀ node, b.carried? = some node → node.id ∉ s.treeIds → node.ids.Nodup) → new.Nodup

/-- The first tree is all gained. -/
theorem accounted_plant {s : State α} {b : Action α} {node : Node α}
    (hcarried : b.carried? = some node) (hroot : s.root = none) :
    s.Accounted b node.survivors := by
  have htree : s.treeIds = [] := by rw [treeIds, hroot, Option.elim_none]
  -- without a tree there is nothing to wrap
  have hmint : s.mintedBy b = [] := by rw [mintedBy, hroot]
  have hnot : node.id ∉ s.treeIds := htree ▸ List.not_mem_nil
  refine ⟨⟨?_, fun id _ => htree ▸ List.not_mem_nil, fun id => ?_⟩, fun hnode => ?_⟩
  · rw [lostBy_of_empty hroot]
    exact List.nil_subset _
  · rw [mem_gainedBy_of_new hcarried hnot, htree, hmint]
    simp
  · exact (hnode node hcarried hnot).sublist node.survivors_sublist

/-- Grafting a new node gains its survivors and the minted branch. -/
theorem accounted_graft {s : State α} {b : Action α} {root node : Node α} {goal : Goal} {i : Nat}
    {r : Node α × IdSupply} (hcarried : b.carried? = some node) (hroot : s.root = some root)
    (hgoal : s.goal? b = some goal) (hnew : ∀ id ∈ node.ids, id ∉ root.ids)
    (hr : root.Placed i node (s.ids.reserveAll node.ids) goal r) (hf : root.Forked)
    (hd : s.treeIds.Nodup) (hfresh : ∀ id ∈ s.mintedBy b, id ∉ s.treeIds)
    (hapart : ∀ id ∈ s.mintedBy b, id ∉ node.ids) : s.Accounted b r.1.survivors := by
  have htree := treeIds_eq hroot
  have hnot : node.id ∉ s.treeIds := htree ▸ hnew _ (id_mem_ids node)
  have hlost := lostBy_of_new hcarried hroot hnew
  have hmint := mintedBy_eq hroot hgoal (grafted?_of_new hcarried hroot hnew)
  refine ⟨⟨?_, fun id hid => ?_, fun id => ?_⟩, fun hnode => ?_⟩
  · rw [hlost]
    exact List.nil_subset _
  · rcases (mem_gainedBy_of_new hcarried hnot id).mp hid with hid | ⟨-, hid⟩
    · exact htree ▸ hnew id (node.survivors_sublist.subset hid)
    · exact hfresh id hid
  · rw [mem_gainedBy_of_new hcarried hnot, hlost, htree, hr.mem_survivors hf, hmint]
    by_cases hsplits : goal.splits root <;> simp [hsplits]
  · -- the tree has the minted identifier, the old ones and those of the node
    have hperm := hr.ids_perm hf
    rw [← hmint, ← htree] at hperm
    refine (hperm.nodup_iff.mpr ?_).sublist (survivors_sublist _)
    refine List.nodup_append'.mpr ⟨s.nodup_mintedBy b, List.nodup_append'.mpr
      ⟨hd, hnode node hcarried hnot, ?_⟩, ?_⟩
    · exact fun id hid hid' => hnew id hid' (htree ▸ hid)
    · intro id hid hid'
      rcases List.mem_append.mp hid' with hid' | hid'
      · exact hfresh id hid hid'
      · exact hapart id hid hid'

/-- Moving a node within the tree gains and loses branches only. -/
theorem accounted_relocate {s : State α} {parent : Option NodeId} {atRoot : Bool} {i : Nat}
    {root node k p : Node α} {goal : Goal} {r : Node α × IdSupply} (hroot : s.root = some root)
    (hgoal : Goal.of parent atRoot = .ok goal) (hk : root.find? node.id = some k)
    (hp : root.parent? node.id = some p) (hout : root.checkOutside k goal = .ok ())
    (hr : root.Placed i k (s.ids.reserveAll k.ids) goal r) (hf : root.Forked)
    (hd : s.treeIds.Nodup) (hcovers : s.ids.Covers s.treeIds) (hbound : r.2.next.toNat < 2 ^ 63)
    (hfresh : ∀ id ∈ s.mintedBy (.move parent atRoot i node), id ∉ s.treeIds) :
    s.Accounted (.move parent atRoot i node)
      (r.1.dropStale node.id (some p.id)
        (root.staleStart node.id (some p.id) goal i)).survivors := by
  have htree := treeIds_eq hroot
  have hid := id_of_find? hk
  have hkn := mem_nodes_of_find? hk
  have hmem : node.id ∈ root.ids := hid ▸ id_mem_of_mem_nodes hkn
  have hmint := mintedBy_eq hroot (goal?_move hgoal i node)
    (grafted?_of_find? (b := .move parent atRoot i node) rfl hroot hk)
  have hgained :
      s.gainedBy (.move parent atRoot i node) = s.mintedBy (.move parent atRoot i node) :=
    gainedBy_of_mem rfl (htree ▸ hmem)
  -- the next identifier is new even where the move does not mint it
  have hpeek : (s.ids.reserveAll k.ids).peek ∉ root.ids := by
    rw [← htree]
    refine (hcovers.mono (IdSupply.next_le_reserveAll s.ids k.ids)).peek_not_mem ?_
    exact Nat.lt_of_le_of_lt (UInt64.le_iff_toNat_le.mp (hr.next_le hf)) hbound
  rw [← hid] at hp
  obtain ⟨hnodup, hkept⟩ := hr.survivors_move (htree ▸ hd) hf hkn hp hout hpeek rfl
  rw [hid] at hp hnodup hkept
  refine ⟨⟨fun id hlost => ?_, fun id hgain => ?_, fun id => ?_⟩, fun _ => hnodup⟩
  · obtain ⟨rfl, -⟩ := (mem_lostBy_move hroot hmem hp id).mp hlost
    obtain ⟨c, hc, -⟩ := exists_plug_of_parent? hp
    rw [htree, hc]
    exact id_mem_of_mem_nodes (mem_nodes_plug c p)
  · exact hfresh id (hgained ▸ hgain)
  · rw [hgained, mem_lostBy_move hroot hmem hp, htree, hkept, hmint, Goal.of_eq_ok hgoal, or_comm]
    refine or_congr_right ?_
    split <;> simp [*]

theorem accounted_clear {s : State α} {root : Node α} (hroot : s.root = some root) :
    s.Accounted (.delete root.id) [] := by
  have hfind : root.find? root.id = some root := find?_plug (c := []) List.not_mem_nil
  have hparent : root.parent? root.id = none := parent?_eq_none.mpr (.inl rfl)
  have hlost : ∀ id, id ∈ s.lostBy (.delete root.id) ↔ id ∈ root.ids := fun id => by
    rw [mem_lostBy_delete hroot hfind, hparent]
    simp
  refine ⟨?_, fun _ => List.nodup_nil⟩
  rw [gainedBy_of_carries_none rfl, treeIds_eq hroot]
  refine ⟨fun id hid => (hlost id).mp hid, by simp, fun id => ?_⟩
  rw [hlost]
  simp

/-- Deleting a node below the root loses it and perhaps its parent. -/
theorem accounted_delete {s : State α} {target : NodeId} {root k p tree : Node α}
    (hroot : s.root = some root) (hk : root.find? target = some k)
    (hp : root.parent? target = some p)
    (htree : root.updateParent? target (fun parent => parent.dropChild target 0) = some tree)
    (hf : root.Forked) (hd : s.treeIds.Nodup) : s.Accounted (.delete target) tree.survivors := by
  rw [treeIds_eq hroot] at hd
  obtain ⟨hnodup, hkept⟩ := survivors_delete hd hf hk hp htree
  have hlost : ∀ id, id ∈ s.lostBy (.delete target) ↔
      id ∈ k.ids ∨ (id = p.id ∧ p.children.length = 2) := fun id => by
    rw [mem_lostBy_delete hroot hk, hp]
    simp [and_comm]
  refine ⟨?_, fun _ => hnodup⟩
  rw [gainedBy_of_carries_none rfl, treeIds_eq hroot]
  refine ⟨fun id hid => ?_, by simp, fun id => ?_⟩
  · rcases (hlost id).mp hid with hid | ⟨rfl, -⟩
    · exact mem_ids_trans hid (mem_nodes_of_find? hk)
    · obtain ⟨c, hc, -⟩ := exists_plug_of_parent? hp
      rw [hc]
      exact id_mem_of_mem_nodes (mem_nodes_plug c p)
  · rw [hkept, hlost, not_or]
    simp

/-- An action that keeps the identifiers of the tree, in any order. -/
theorem accounted_still {s : State α} {b : Action α} {new : List NodeId}
    (hb : b.isEdit = false ∨ b.rearranges = true) (h : new.Perm s.treeIds)
    (hd : s.treeIds.Nodup) : s.Accounted b new := by
  obtain ⟨hcarried, hlost⟩ := accounts_of_stills (s := s) hb
  refine ⟨?_, fun _ => h.nodup_iff.mpr hd⟩
  rw [gainedBy_of_carries_none hcarried, hlost]
  exact .of_mem_iff fun _ => h.mem_iff

/-- Every edit is accounted for. -/
theorem Edited.accounted {s : State α} {b : Action α} {tree : Option (Node α)} {ids : IdSupply}
    (h : s.Edited b tree ids) (hf : ∀ root, s.root = some root → root.Forked)
    (hd : s.treeIds.Nodup) (hcovers : s.ids.Covers s.treeIds) (hbound : ids.next.toNat < 2 ^ 63) :
    s.Accounted b (tree.elim [] Node.survivors) := by
  have hfresh : ∀ id ∈ s.mintedBy b, id ∉ s.treeIds := fun id hid =>
    (h.minted_fresh hf hbound hid).2.1 _ hcovers
  have hapart : ∀ child, s.grafted? b = some child → ∀ id ∈ s.mintedBy b, id ∉ child.ids :=
    fun child hchild id hid => (h.minted_fresh hf hbound hid).2.2 child hchild
  cases h with
  | plant hcarried hroot => exact accounted_plant hcarried hroot
  | graft hcarried hroot hgoal hnew hr =>
    exact accounted_graft hcarried hroot hgoal hnew hr (hf _ hroot) hd hfresh
      (hapart _ (grafted?_of_new hcarried hroot hnew))
  | relocate hroot hgoal hk hp hout hr =>
    exact accounted_relocate hroot hgoal hk hp hout hr (hf _ hroot) hd hcovers hbound hfresh
  | clear hroot => exact accounted_clear hroot
  | delete hroot hk hp htree => exact accounted_delete hroot hk hp htree (hf _ hroot) hd
  | rearrange hb hroot htree =>
    refine accounted_still (.inr hb) ?_ hd
    rw [treeIds_eq hroot]
    exact (hf _ hroot).survivors_perm htree

/-! ## 3. Every action makes its change -/

/-- Settling leaves the survivors of the edited tree. -/
theorem treeIds_settle (s : State α) : s.settle.treeIds = s.root.elim [] Node.survivors := by
  show (s.root.bind Node.balance?).elim [] Node.ids = _
  cases s.root with
  | none => rfl
  | some root => rw [Option.bind_some, Option.elim_some, ← balancedIds_eq, balancedIds]

/-- An accepted action is an edit followed by balancing, or keeps the tree and the supply. -/
theorem perform_cases {s t : State α} {b : Action α} (hs : s.Settled) (h : s.perform b = .ok t) :
    (∃ tree, s.Edited b tree t.ids ∧ t.treeIds = tree.elim [] Node.survivors) ∨
      (b.isEdit = false ∧ t.treeIds = s.treeIds ∧ t.ids = s.ids) := by
  by_cases hb : b.isEdit
  · obtain ⟨r, hr, rfl⟩ := perform_edit hb h
    exact .inl ⟨r.root, edit_edited hs.forked hb hr, treeIds_settle r⟩
  · obtain ⟨⟨hroot, -, hids, -⟩, -⟩ := perform_other (Bool.eq_false_iff.mpr hb) h
    exact .inr ⟨Bool.eq_false_iff.mpr hb, by rw [treeIds, hroot, treeIds], hids⟩

/-- Every action that is performed is accounted for. -/
theorem perform_accounted {s t : State α} {b : Action α} (hs : s.Settled)
    (h : s.perform b = .ok t) (hd : s.treeIds.Nodup) (hcovers : s.ids.Covers s.treeIds)
    (hbound : t.ids.next.toNat < 2 ^ 63) : s.Accounted b t.treeIds := by
  rcases perform_cases hs h with ⟨tree, hedited, htree⟩ | ⟨hb, htree, -⟩
  · rw [htree]
    exact hedited.accounted hs.forked hd hcovers hbound
  · rw [htree]
    exact accounted_still (.inl hb) (.refl _) hd

/-- A supply that covers the tree covers it after every action, and with it what the action mints
and all that was covered before. -/
theorem perform_covers {s t : State α} {b : Action α} (hs : s.Settled) (h : s.perform b = .ok t)
    (hcovers : s.ids.Covers s.treeIds) :
    s.ids.next ≤ t.ids.next ∧ t.ids.Covers (s.mintedBy b ++ t.treeIds) := by
  rcases perform_cases hs h with ⟨tree, hedited, htree⟩ | ⟨hb, htree, hids⟩
  · obtain ⟨hle, hminted, hgrafted⟩ := hedited.covers hs.forked
    refine ⟨hle, IdSupply.covers_append.mpr ⟨hminted, ?_⟩⟩
    rw [htree]
    -- each identifier of the new tree is an old one, is grafted or is minted
    refine IdSupply.Covers.of_subset ?_ (hedited.subset hs.forked)
    refine IdSupply.covers_append.mpr ⟨hcovers.mono hle, IdSupply.covers_append.mpr ⟨?_, hminted⟩⟩
    cases hchild : s.grafted? b with
    | none => exact IdSupply.covers_nil _
    | some child => exact hgrafted child hchild
  · have hcarried := (accounts_of_stills (s := s) (.inl hb)).1
    rw [hids, htree, mintedBy_eq_nil (grafted?_eq_none hcarried)]
    exact ⟨UInt64.le_refl _, hcovers⟩

/-- The identifier of a minted branch is new to the tree and to the grafted node. -/
theorem perform_minted {s t : State α} {b : Action α} (hs : s.Settled) (h : s.perform b = .ok t)
    (hbound : t.ids.next.toNat < 2 ^ 63) {id : NodeId} (hid : id ∈ s.mintedBy b) :
    id.isGenerated ∧ (∀ l, s.ids.Covers l → id ∉ l) ∧
      ∀ child, s.grafted? b = some child → id ∉ child.ids := by
  rcases perform_cases hs h with ⟨tree, hedited, -⟩ | ⟨hb, -⟩
  · exact hedited.minted_fresh hs.forked hbound hid
  · have hcarried := (accounts_of_stills (s := s) (.inl hb)).1
    rw [mintedBy_eq_nil (grafted?_eq_none hcarried)] at hid
    cases hid

theorem covers_ofRoot (root : Node α) : (ofRoot root).ids.Covers root.ids :=
  IdSupply.covers_reserveAll _ _

theorem treeIds_ofRoot (root : Node α) : (ofRoot root).treeIds = root.survivors :=
  root.balancedIds_eq

end State

/-- In a reachable state the supply has left all identifiers of the tree behind. -/
theorem Reachable.covers {s : State α} (h : Reachable s) : s.ids.Covers s.treeIds := by
  induction h with
  | empty => exact IdSupply.covers_nil _
  | ofRoot root =>
    rw [State.treeIds_ofRoot]
    exact (State.covers_ofRoot root).of_subset root.survivors_sublist.subset
  | @call s c hs ih =>
    -- what an edit brings is known for settled states only, so that they are settled goes along
    have hinvariant := State.call_invariant
      (P := fun s : State α => s.Settled ∧ s.ids.Covers s.treeIds)
      (fun s b t hs h => ⟨hs.1.perform h,
        (IdSupply.covers_append.mp (State.perform_covers hs.1 h hs.2).2).2⟩)
      (fun s hs => ⟨hs.1.congr rfl rfl, hs.2⟩)
      (fun s hs => ⟨hs.1.congr rfl rfl, hs.2.mono s.ids.next_le_advance⟩)
      (fun s config hs => ⟨hs.1.congr rfl rfl, hs.2⟩) ⟨hs.settled, ih⟩ c
    exact hinvariant.2

/-- The accounts of an action do not look at the staged action. -/
theorem State.accounts_taken (s : State α) (a b : Action α) :
    (s.taken a).treeIds = s.treeIds ∧ (s.taken a).lostBy b = s.lostBy b ∧
      (s.taken a).gainedBy b = s.gainedBy b ∧ (s.taken a).mintedBy b = s.mintedBy b ∧
      (s.taken a).grafted? b = s.grafted? b := by
  cases a with
  | commitStaged => cases b <;> exact ⟨rfl, rfl, rfl, rfl, rfl⟩
  | _ => exact ⟨rfl, rfl, rfl, rfl, rfl⟩

/-- An accepted action changes the identifiers of the tree by its losses and its gains, and in no
other way. What it mints is generated, and it is neither in the tree nor in what is grafted. -/
theorem action_conserves_ids (s : State α) (a : Action α) (hs : Reachable s)
    (hd : s.treeIds.Nodup) (ha : (s.step a).2 = none)
    (hbound : (s.step a).1.ids.next.toNat < 2 ^ 63) :
    Change s.treeIds (s.step a).1.treeIds (s.lostBy (s.performed a)) (s.gainedBy (s.performed a)) ∧
      ∀ id ∈ s.mintedBy (s.performed a), id.isGenerated ∧ id ∉ s.treeIds ∧
        ∀ child, s.grafted? (s.performed a) = some child → id ∉ child.ids := by
  obtain ⟨htree, hlost, hgained, hminted, hgrafted⟩ := s.accounts_taken a (s.performed a)
  have hcovers : (s.taken a).ids.Covers s.treeIds := (s.taken_keeps a).2.2.1 ▸ hs.covers
  have hperform := State.step_accepted ha
  rw [← htree] at hd hcovers
  have hchange := (State.perform_accounted (hs.settled.taken a) hperform hd hcovers hbound).change
  rw [htree, hlost, hgained] at hchange
  refine ⟨hchange, fun id hid => ?_⟩
  rw [← hminted] at hid
  obtain ⟨hgen, hnew, hcome⟩ := State.perform_minted (hs.settled.taken a) hperform hbound hid
  rw [hgrafted] at hcome
  exact ⟨hgen, htree ▸ hnew _ hcovers, hcome⟩

/-- A leaf that moves under another leaf: its old parent had two children and goes, the other leaf
gets a new parent. -/
theorem move_under_leaf_conserves :
    ∃ (s : State Unit) (a : Action Unit), s.treeIds = [⟨1⟩, ⟨2⟩, ⟨3⟩, ⟨4⟩, ⟨5⟩] ∧
      Change s.treeIds (s.step a).1.treeIds [⟨2⟩] [.generated 1] := by
  let pane (n : UInt64) : Node Unit := .leaf { id := ⟨n⟩ } ()
  let group : Node Unit := .branch { id := ⟨2⟩ } [pane 3, pane 4]
  let a : Action Unit := .move (some ⟨5⟩) false 0 (pane 3)
  -- the sizes after balancing are floats that do not reduce, so they are only named
  obtain ⟨u, v, hgroup⟩ := prune?_pair (h := { id := ⟨2⟩ }) (a := pane 3) (b := pane 4) rfl rfl
  obtain ⟨x, y, hwhole⟩ := prune?_pair (h := { id := ⟨1⟩ }) (b := pane 5) hgroup rfl
  let s := State.ofRoot (.branch { id := ⟨1⟩ } [group, pane 5])
  have hroot := congrArg (Option.map fun n : Node Unit => n.orient n.orientation) hwhole
  have hs : s = { s with root := _ } := congrArg (fun root => { s with root }) hroot
  have hids : s.treeIds = [⟨1⟩, ⟨2⟩, ⟨3⟩, ⟨4⟩, ⟨5⟩] := by
    rw [hs]
    rfl
  have hd : s.treeIds.Nodup := by
    rw [hids]
    decide
  have hok : (s.step a).2 = none ∧ (s.step a).1.ids.next = 2 := by
    rw [hs]
    exact ⟨rfl, rfl⟩
  have hbooks : s.lostBy a = [⟨2⟩] ∧ s.gainedBy a = [.generated 1] := by
    rw [hs]
    exact ⟨rfl, rfl⟩
  have hchange := (action_conserves_ids s a (.ofRoot _) hd hok.1 (by rw [hok.2]; decide)).1
  refine ⟨s, a, hids, ?_⟩
  rw [← hbooks.1, ← hbooks.2]
  exact hchange

end Tiling
