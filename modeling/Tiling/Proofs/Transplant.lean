import Tiling.Proofs.Families
import Tiling.Proofs.Relocation

/-!
# A move, row by row

A move changes three rows of the table of families. The host gets the moved node at the index, the
old parent loses it, and where a leaf is split, the new branch takes its place in the row of its
parent. The stale copy is told from the new one by the index where the search for it starts.
-/

namespace Tiling

variable {α : Type}

open Node Context
open scoped List

/-- The list with `moved` at the index and nowhere else. -/
def placedAmong (moved : NodeId) (i : Nat) (l : List NodeId) : List NodeId :=
  (l.take i).filter (· ≠ moved) ++ moved :: (l.drop i).filter (· ≠ moved)

namespace Goal

/-- The branch that takes the moved node in, where `new` is made if a branch is made. -/
def host (root : Node α) (new : NodeId) (goal : Goal) : NodeId :=
  if goal.splits root then new else goal.parent?.getD new

def siblings (root : Node α) (goal : Goal) : List NodeId :=
  match goal with
  | .under parent => if goal.splits root then [parent] else root.childIds parent
  | .besideRoot => [root.id]

/-- A leaf that takes the moved node in gets a branch in its place. -/
def rename (root : Node α) (new : NodeId) (goal : Goal) (id : NodeId) : NodeId :=
  if goal = .under id ∧ goal.splits root then new else id

/-- A goal under a node splits it when it is a leaf. -/
theorem splits_under {root m : Node α} {parent : NodeId} (h : root.find? parent = some m) :
    (Goal.under parent).splits root = m.isLeaf := by
  rw [splits, h, Option.any_some]

theorem under_branch {root : Node α} {parent : NodeId} {h : Header} {cs : Forest α}
    (hfind : root.find? parent = some (branch h cs)) (new : NodeId) :
    (Goal.under parent).host root new = parent ∧
      (Goal.under parent).siblings root = cs.map Node.id := by
  have hsplits := splits_under hfind
  rw [isLeaf_branch] at hsplits
  rw [host, siblings, hsplits, childIds, hfind]
  exact ⟨rfl, rfl⟩

theorem under_leaf {root : Node α} {parent : NodeId} {h : Header} {d : α}
    (hfind : root.find? parent = some (leaf h d)) (new : NodeId) :
    (Goal.under parent).host root new = new ∧ (Goal.under parent).siblings root = [parent] := by
  have hsplits := splits_under hfind
  rw [isLeaf_leaf] at hsplits
  rw [host, siblings, hsplits]
  exact ⟨rfl, rfl⟩

theorem rename_leaf {root : Node α} {parent : NodeId} {h : Header} {d : α}
    (hfind : root.find? parent = some (leaf h d)) (new : NodeId) :
    (Goal.under parent).rename root new parent = new := by
  rw [rename, if_pos ⟨rfl, splits_under hfind⟩]

/-- Without a split no parent changes its name. -/
theorem rename_of_not_splits {root : Node α} {goal : Goal} (h : goal.splits root = false)
    (new : NodeId) : goal.rename root new = fun id => id := by
  funext id
  rw [rename, h, if_neg (by simp)]

theorem rename_besideRoot (root : Node α) (new : NodeId) :
    Goal.besideRoot.rename root new = fun id => id := by
  funext id
  rw [rename, if_neg (by simp)]

/-- No other node takes the place of one that is in the tree and is not the goal. -/
theorem rename_eq_iff {root : Node α} {new id j : NodeId} {goal : Goal} (hnew : new ∉ root.ids)
    (hid : id ∈ root.ids) (hne : goal ≠ .under id) : goal.rename root new j = id ↔ j = id := by
  rw [rename]
  split
  · next h =>
    refine iff_of_false (fun heq => hnew (heq ▸ hid)) ?_
    rintro rfl
    exact hne h.1
  · rfl

theorem host_eq_iff {root p : Node α} {new : NodeId} {goal : Goal} (hd : root.ids.Nodup)
    (hp : p ∈ root.nodes) (hleaf : p.isLeaf = false) (hnew : new ∉ root.ids) :
    goal.host root new = p.id ↔ goal.parent? = some p.id := by
  have hne : new ≠ p.id := fun heq => hnew (heq ▸ id_mem_of_mem_nodes hp)
  cases goal with
  | besideRoot => exact iff_of_false hne (by simp [parent?])
  | under parent =>
    rw [host, parent?, Option.getD_some, Option.some_inj]
    split
    · next hsplits =>
      refine iff_of_false hne ?_
      rintro rfl
      rw [splits_under (find?_of_mem_nodes hd hp), hleaf] at hsplits
      cases hsplits
    · rfl

end Goal

/-! ## 1. Lists -/

theorem filter_ne_of_not_mem {k : NodeId} {l : List NodeId} (h : k ∉ l) :
    l.filter (· ≠ k) = l :=
  List.filter_eq_self.mpr fun _ hid => decide_eq_true fun heq => h (heq ▸ hid)

theorem filter_ne_append_cons {k : NodeId} {x y : List NodeId} (hx : k ∉ x) (hy : k ∉ y) :
    (x ++ k :: y).filter (· ≠ k) = x ++ y := by
  rw [List.filter_append, List.filter_cons_of_neg (by simp), filter_ne_of_not_mem hx,
    filter_ne_of_not_mem hy]

/-- A newcomer goes between the children that were there. -/
theorem placedAmong_of_not_mem {moved : NodeId} {l : List NodeId} (h : moved ∉ l) (i : Nat) :
    placedAmong moved i l = l.take i ++ moved :: l.drop i := by
  rw [placedAmong, filter_ne_of_not_mem fun hid => h (List.mem_of_mem_take hid),
    filter_ne_of_not_mem fun hid => h (List.mem_of_mem_drop hid)]

theorem placedAmong_singleton {moved id : NodeId} (h : id ≠ moved) (i : Nat) :
    placedAmong moved i [id] = if i = 0 then [moved, id] else [id, moved] := by
  rw [placedAmong_of_not_mem (by simpa using h.symm)]
  cases i with
  | zero => rfl
  | succ i => simp

/-- The old copy is the first one behind the new copy if it was there, and else the first one. -/
theorem placedAmong_eq_erase {k : NodeId} {x y : List NodeId} (hx : k ∉ x) (hy : k ∉ y) (i : Nat) :
    let placed := (x ++ k :: y).take i ++ k :: (x ++ k :: y).drop i
    let start := if i ≤ x.length then i + 1 else 0
    placed.take start ++ (placed.drop start).erase k = placedAmong k i (x ++ k :: y) := by
  intro placed start
  by_cases hi : i ≤ x.length
  · -- the old copy is behind the new one
    have hstart : start = i + 1 := if_pos hi
    have hplaced : placed = (x.take i ++ [k]) ++ (x.drop i ++ k :: y) := by
      simp only [placed, List.take_append_of_le_length hi, List.drop_append_of_le_length hi,
        List.append_assoc, List.singleton_append]
    have hlength : (x.take i ++ [k]).length = i + 1 := by
      rw [List.length_append, List.length_take, Nat.min_eq_left hi, List.length_singleton]
    have hdrop : k ∉ x.drop i := fun h => hx (List.mem_of_mem_drop h)
    rw [hstart, hplaced, ← hlength, List.take_left, List.drop_left,
      List.erase_append_right _ hdrop, List.erase_cons_head, placedAmong,
      List.take_append_of_le_length hi, List.drop_append_of_le_length hi,
      filter_ne_append_cons hdrop hy, filter_ne_of_not_mem fun h => hx (List.mem_of_mem_take h),
      List.append_assoc, List.singleton_append]
  · -- the old copy is before the new one
    obtain ⟨j, rfl⟩ := Nat.exists_eq_add_of_lt (Nat.lt_of_not_le hi)
    have hstart : start = 0 := if_neg hi
    have htake : (x ++ k :: y).take (x.length + j + 1) = x ++ k :: y.take j := by
      rw [Nat.add_assoc, List.take_length_add_append, List.take_succ_cons]
    have hdrop : (x ++ k :: y).drop (x.length + j + 1) = y.drop j := by
      rw [Nat.add_assoc, List.drop_length_add_append, List.drop_succ_cons]
    have hplaced : placed = x ++ k :: (y.take j ++ k :: y.drop j) := by
      simp only [placed, htake, hdrop, List.append_assoc, List.cons_append]
    rw [hstart, hplaced, List.take_zero, List.drop_zero, List.nil_append,
      List.erase_append_right _ hx, List.erase_cons_head, placedAmong, htake, hdrop,
      filter_ne_append_cons hx fun h => hy (List.mem_of_mem_take h),
      filter_ne_of_not_mem fun h => hy (List.mem_of_mem_drop h), List.append_assoc]

namespace Node

/-! ## 2. The tree before balancing -/

theorem find?_hole {root m : Node α} {c : Context α} (hroot : root = plug c m)
    (hc : m.id ∉ idsBefore c) : root.find? m.id = some m :=
  hroot ▸ find?_plug hc

/-- A node that is split is not found around its place. -/
theorem rename_around {root : Node α} {c : Context α} {m : Node α} (hd : root.ids.Nodup)
    (hroot : root = plug c m) (new : NodeId) :
    ∀ j ∈ idsBefore c ++ idsAfter c, (Goal.under m.id).rename root new j = j := by
  intro j hj
  rw [Goal.rename, if_neg]
  rintro ⟨heq, -⟩
  obtain rfl := Goal.under.inj heq
  rw [hroot, ids_plug, List.nodup_append, List.nodup_append] at hd
  rcases List.mem_append.mp hj with hj | hj
  · exact hd.1.2.2 _ hj _ (id_mem_ids m) rfl
  · exact hd.2.2 _ (List.mem_append_right _ (id_mem_ids m)) _ hj rfl

/-- A graft gives the host a row with the new child in it and renames a leaf that is split. -/
theorem Placed.exists_families {root k : Node α} {goal : Goal} {i : Nat} {ids : IdSupply}
    {r : Node α × IdSupply} (hr : Placed root i k ids goal r) (hd : root.ids.Nodup)
    (hfresh : ids.peek ∉ root.ids) :
    ∃ rest : List (NodeId × List NodeId),
      (∀ e, e ∈ rest ↔ e ∈ root.families ∧ e.1 ≠ goal.host root ids.peek) ∧
      r.1.families ~ (goal.host root ids.peek,
        (goal.siblings root).take i ++ k.id :: (goal.siblings root).drop i) ::
          (rest.map (renameChildren (goal.rename root ids.peek)) ++ k.families) := by
  have hkeys : (root.families.map Prod.fst).Nodup := by rwa [map_fst_families]
  -- no row of the old tree is that of a new branch
  have hall : ∀ e, e ∈ root.families ↔ e ∈ root.families ∧ e.1 ≠ ids.peek := fun e => by
    refine (and_iff_left_of_imp fun he heq => hfresh ?_).symm
    rw [← heq, ← map_fst_families]
    exact List.mem_map_of_mem he
  cases hr with
  | @joins c h cs hroot hc =>
    have hfind := find?_hole (m := branch h cs) hroot hc
    rw [id_branch] at hfind
    obtain ⟨hhost, hsiblings⟩ := Goal.under_branch hfind ids.peek
    have hbefore := families_plug c (branch h cs)
    rw [families_branch, ← hroot, List.cons_append] at hbefore
    have hafter := families_plug c ((branch h cs).graft i k)
    refine ⟨cs.flatMap families ++ c.families h.id, fun e => ?_, ?_⟩
    · rw [hhost]
      exact mem_tail_iff hbefore hkeys
    · rw [hhost, hsiblings, Goal.rename_of_not_splits (Goal.splits_under hfind), renameChildren_id,
        List.map_id']
      refine hafter.trans (((families_graft h cs i k).append_right _).trans ?_)
      rw [List.cons_append, List.append_assoc, List.append_assoc]
      exact .cons _ (List.perm_append_comm.append_left _)
  | @splits c h d hroot hc =>
    have hfind := find?_hole (m := leaf h d) hroot hc
    rw [id_leaf] at hfind
    obtain ⟨hhost, hsiblings⟩ := Goal.under_leaf hfind ids.peek
    rw [hhost, hsiblings]
    refine ⟨root.families, hall, ?_⟩
    -- the leaf is below its parent alone, and there the new branch takes its place
    have hrename := Goal.rename_leaf hfind ids.peek
    have hothers := rename_around hd hroot ids.peek
    rw [id_leaf] at hothers
    have hbefore := (families_plug c (leaf h d)).map
      (renameChildren ((Goal.under h.id).rename root ids.peek))
    rw [← hroot, List.map_append, id_leaf, ← families_rename hothers, hrename] at hbefore
    have hafter := families_plug c (((leaf h d).wrap ids.peek h.orientation).graft i k)
    rw [wrap_eq, graft_branch, id_branch, ← graft_branch, ← wrap_eq] at hafter
    refine hafter.trans (((families_wrap_graft _ _ _ i k).append_right _).trans ?_)
    rw [List.cons_append, List.append_assoc]
    refine .cons _ ?_
    calc ((leaf h d).families ++ (k.families ++ c.families ids.peek))
      _ ~ ((leaf h d).families ++ (c.families ids.peek ++ k.families)) :=
        List.perm_append_comm.append_left _
      _ ~ _ := by
        rw [← List.append_assoc]
        exact hbefore.symm.append_right _
  | crosses =>
    refine ⟨root.families, hall, ?_⟩
    rw [Goal.rename_besideRoot, renameChildren_id, List.map_id']
    exact families_wrap_graft root ids.peek _ i k

/-- The root of the tree after placing a child. -/
theorem Placed.id_eq {root k : Node α} {goal : Goal} {i : Nat} {ids : IdSupply}
    {r : Node α × IdSupply} (hr : Placed root i k ids goal r) (hd : root.ids.Nodup) :
    r.1.id = if goal = .besideRoot then ids.peek else goal.rename root ids.peek root.id := by
  cases hr with
  | @joins c h cs hroot hc =>
    have hfind := find?_hole (m := branch h cs) hroot hc
    rw [id_branch] at hfind
    rw [if_neg Goal.noConfusion, Goal.rename_of_not_splits (Goal.splits_under hfind), hroot,
      id_plug, id_plug, graft_branch]
    rfl
  | @splits c h d hroot hc =>
    have hfind := find?_hole (m := leaf h d) hroot hc
    rw [id_leaf] at hfind
    have hrename := Goal.rename_leaf hfind ids.peek
    have htop := top_rename (rename_around hd hroot ids.peek) h.id
    rw [id_leaf, hrename] at htop
    rw [if_neg Goal.noConfusion, id_plug, wrap_eq, graft_branch]
    refine htop.trans ?_
    rw [hroot, id_plug]
    rfl
  | crosses =>
    rw [if_pos rfl, wrap_eq, graft_branch]
    rfl

def withoutStale (old moved : NodeId) (start : Nat) (e : NodeId × List NodeId) : List NodeId :=
  -- The row of the old parent loses the stale copy.
  if e.1 = old then e.2.take start ++ (e.2.drop start).erase moved else e.2

/-- A move of `k` from its parent `p` to the goal: `r` is the tree with both copies and `tree` the
one without the stale copy, not balanced yet. -/
structure Transfer (root k p : Node α) (goal : Goal) (i : Nat) (ids : IdSupply)
    (r : Node α × IdSupply) (tree : Node α) : Prop where
  placed : Placed root i k ids goal r
  nodup : root.ids.Nodup
  forked : root.Forked
  moved_mem : k ∈ root.nodes
  parent_eq : root.parent? k.id = some p
  outside : root.checkOutside k goal = .ok ()
  fresh : ids.peek ∉ root.ids
  tree_eq : r.1.dropStale k.id (some p.id) (root.staleStart k.id (some p.id) goal i) = tree

/-- The rows of the tree after a move that is not balanced yet. -/
structure Transplanted (root : Node α) (moved new : NodeId) (goal : Goal) (i : Nat) (tree : Node α) :
    Prop where
  nodup : tree.ids.Nodup
  host_eq : tree.childIds (goal.host root new) = placedAmong moved i (goal.siblings root)
  others_eq : ∀ id ∈ root.ids, id ≠ goal.host root new →
    tree.childIds id = ((root.childIds id).filter (· ≠ moved)).map (goal.rename root new)

namespace Transfer

variable {root k p tree : Node α} {goal : Goal} {i : Nat} {ids : IdSupply} {r : Node α × IdSupply}

theorem parent_mem (h : Transfer root k p goal i ids r tree) :
    p ∈ root.nodes ∧ k ∈ p.children ∧ p.id ∉ k.ids :=
  exists_plug_parent h.nodup h.moved_mem h.parent_eq

theorem parent_not_leaf (h : Transfer root k p goal i ids r tree) : p.isLeaf = false := by
  cases p with
  | leaf hd d => cases h.parent_mem.2.1
  | branch hd cs => rfl

theorem ids_perm (h : Transfer root k p goal i ids r tree) :
    tree.ids ~ (if goal.splits root then [ids.peek] else []) ++ root.ids :=
  h.tree_eq ▸ h.placed.ids_move h.nodup h.forked h.moved_mem h.parent_eq h.outside h.fresh

/-- What survives a transfer: the new container, and all but an old parent that is left with one
child. -/
theorem mem_survivors_iff (h : Transfer root k p goal i ids r tree) (id : NodeId) :
    id ∈ tree.survivors ↔ (goal.splits root ∧ id = ids.peek) ∨
      (id ∈ root.ids ∧ ¬(id = p.id ∧ goal.parent? ≠ some p.id ∧ p.children.length = 2)) :=
  (h.placed.survivors_move h.nodup h.forked h.moved_mem h.parent_eq h.outside h.fresh h.tree_eq).2
    id

theorem tree_nodup (h : Transfer root k p goal i ids r tree) : tree.ids.Nodup := by
  rw [h.ids_perm.nodup_iff]
  split
  · exact List.nodup_cons.mpr ⟨h.fresh, h.nodup⟩
  · exact h.nodup

theorem goal_ne (h : Transfer root k p goal i ids r tree) : goal ≠ .under k.id := by
  rintro rfl
  exact not_mem_of_checkOutside h.outside (id_mem_ids k)

theorem host_eq_iff (h : Transfer root k p goal i ids r tree) :
    goal.host root ids.peek = p.id ↔ goal.parent? = some p.id :=
  Goal.host_eq_iff h.nodup h.parent_mem.1 h.parent_not_leaf h.fresh

/-- The old parent before the stale copy is taken out of it and after. -/
theorem exists_stale (h : Transfer root k p goal i ids r tree) {start : Nat}
    (hstart : root.staleStart k.id (some p.id) goal i = start) :
    ∃ (d : Context α) (hd : Header) (x y : Forest α), hd.id = p.id ∧
      r.1 = plug d (branch hd (x ++ k :: y)) ∧ tree = plug d (branch hd (x ++ y)) ∧
      (x ++ y).map id = withoutStale p.id k.id start (p.id, (x ++ k :: y).map id) := by
  obtain ⟨hpn, hkp, hpk⟩ := h.parent_mem
  have honce := h.placed.count_le_one h.nodup h.forked h.fresh (id_mem_of_mem_nodes hpn) hpk
  obtain ⟨d, hd, x, y, hid, hplug, hdrop, hrow⟩ :=
    h.placed.dropStale_at h.nodup hpn hkp h.outside h.fresh honce hstart
  rw [← hstart, h.tree_eq] at hdrop
  exact ⟨d, hd, x, y, hid, hplug, hdrop, by rw [withoutStale, if_pos rfl]; exact hrow⟩

theorem header_eq (h : Transfer root k p goal i ids r tree) : tree.header = r.1.header := by
  obtain ⟨d, hd, x, y, -, hplug, hdrop, -⟩ := h.exists_stale rfl
  rw [hplug, hdrop]
  cases d <;> rfl

/-- The rows of the tree are those after the graft, without the stale copy. -/
theorem childIds_eq (h : Transfer root k p goal i ids r tree) {start : Nat}
    (hstart : root.staleStart k.id (some p.id) goal i = start) :
    tree.childIds (goal.host root ids.peek) = withoutStale p.id k.id start
      (goal.host root ids.peek,
        (goal.siblings root).take i ++ k.id :: (goal.siblings root).drop i) ∧
    ∀ id ∈ root.ids, id ≠ goal.host root ids.peek → tree.childIds id =
      withoutStale p.id k.id start (id, (root.childIds id).map (goal.rename root ids.peek)) := by
  obtain ⟨d, hd, x, y, hid, hplug, hdrop, hrow⟩ := h.exists_stale hstart
  obtain ⟨others, hafter, hbefore⟩ := families_plug_child d hd x y k
  obtain ⟨rest, hrest, hplaced⟩ := h.placed.exists_families h.nodup h.fresh
  rw [← hdrop, hid] at hafter
  rw [← hplug, hid] at hbefore
  -- the rows of the new copy cancel
  have hcopies := hplaced.symm.trans hbefore
  rw [← List.cons_append, ← List.cons_append] at hcopies
  have hrows := (List.perm_append_right_iff k.families).mp hcopies
  have hread : ∀ e ∈ (goal.host root ids.peek,
      (goal.siblings root).take i ++ k.id :: (goal.siblings root).drop i) ::
        rest.map (renameChildren (goal.rename root ids.peek)),
      tree.childIds e.1 = withoutStale p.id k.id start e := by
    intro e he
    rcases List.mem_cons.mp (hrows.mem_iff.mp he) with rfl | he
    · rw [← hrow]
      exact childIds_of_mem_families h.tree_nodup (hafter.mem_iff.mpr List.mem_cons_self)
    · have hkeys : (tree.families.map Prod.fst).Nodup := by
        rw [map_fst_families]
        exact h.tree_nodup
      obtain ⟨he, hne⟩ := (mem_tail_iff hafter hkeys).mp he
      rw [withoutStale, if_neg hne]
      exact childIds_of_mem_families h.tree_nodup he
  refine ⟨hread _ List.mem_cons_self, fun id hid hne => ?_⟩
  have hold := (hrest _).mpr ⟨mem_families h.nodup hid, hne⟩
  exact hread _ (List.mem_cons_of_mem _ (List.mem_map_of_mem hold))

theorem not_mem_siblings (h : Transfer root k p goal i ids r tree)
    (hne : goal.parent? ≠ some p.id) : k.id ∉ goal.siblings root := by
  have hp := h.parent_eq
  have hgoal := h.goal_ne
  cases goal with
  | besideRoot =>
    rw [Goal.siblings, List.mem_singleton]
    intro heq
    rw [parent?_eq_none.mpr (.inl heq)] at hp
    cases hp
  | under parent =>
    rw [Goal.siblings]
    split
    · rw [List.mem_singleton]
      exact fun heq => hgoal (congrArg Goal.under heq.symm)
    · exact not_mem_childIds h.nodup hp fun heq => hne (congrArg some heq)

/-- A transfer transplants the node: its families are those of the tree with the node moved over. -/
theorem transplanted (h : Transfer root k p goal i ids r tree) :
    Transplanted root k.id ids.peek goal i tree := by
  obtain ⟨hhost, hothers⟩ := h.childIds_eq rfl
  obtain ⟨hpn, hkp, -⟩ := h.parent_mem
  have hself := h.host_eq_iff
  obtain ⟨hd, x, y, rfl, hx, hy⟩ := exists_first_child (nodup_ids_of_mem_nodes h.nodup hpn) hkp
  rw [id_branch] at hhost hothers hself
  have hrow : root.childIds hd.id = x.map id ++ k.id :: y.map id := by
    rw [← List.map_cons, ← List.map_append]
    exact childIds_of_mem_nodes h.nodup hpn
  have hxids : k.id ∉ x.map id := by simpa using hx
  have hyids : k.id ∉ y.map id := by simpa using hy
  refine ⟨h.tree_nodup, ?_, fun id hid hne => ?_⟩
  · rw [hhost, withoutStale]
    by_cases hparent : goal.parent? = some hd.id
    · -- the node goes back to its old parent
      obtain rfl : goal = .under hd.id := by
        cases goal with
        | besideRoot => cases hparent
        | under parent => rw [Option.some.inj hparent]
      have hfind : root.find? hd.id = some (branch hd (x ++ k :: y)) :=
        find?_of_mem_nodes h.nodup hpn
      rw [if_pos (hself.mpr hparent), (Goal.under_branch hfind ids.peek).2,
        staleStart_of_eq hfind hx, List.map_append, List.map_cons,
        ← placedAmong_eq_erase hxids hyids, List.length_map]
    · rw [if_neg (mt hself.mp hparent), placedAmong_of_not_mem (h.not_mem_siblings hparent)]
  · rw [hothers id hid hne, withoutStale]
    by_cases heq : id = hd.id
    · subst heq
      have hparent : goal.parent? ≠ some hd.id := fun hparent => hne (hself.mpr hparent).symm
      have hrename := fun j =>
        Goal.rename_eq_iff (j := j) h.fresh (id_mem_of_mem_nodes h.moved_mem) h.goal_ne
      have hxmap : k.id ∉ (x.map Node.id).map (goal.rename root ids.peek) := fun hmem => by
        obtain ⟨j, hj, hjk⟩ := List.mem_map.mp hmem
        exact hxids ((hrename j).mp hjk ▸ hj)
      rw [if_pos rfl, staleStart_of_ne hparent, List.take_zero, List.drop_zero, List.nil_append,
        hrow, filter_ne_append_cons hxids hyids, List.map_append, List.map_cons,
        (hrename k.id).mpr rfl, List.erase_append_right _ hxmap, List.erase_cons_head,
        List.map_append]
    · rw [if_neg heq, filter_ne_of_not_mem (not_mem_childIds h.nodup h.parent_eq heq)]

end Transfer

end Node

end Tiling
