import Tiling.Proofs.Distinct
import Tiling.Proofs.Graft
import Tiling.State.Move

/-!
# Moving a node within its tree

A move grafts a second copy of the node and then takes out the stale one, which is found by its
identifier among the children of the old parent. In a tree with distinct identifiers what is taken
out is the stale copy, wherever the new one went.
-/

namespace Tiling

variable {α : Type}

open Context
open scoped List

/-! ## 1. What a graft makes of the tree -/

def Goal.splits (root : Node α) : Goal → Bool
  | .under parent => (root.find? parent).any Node.isLeaf
  | .besideRoot => true

namespace Node

/-- The tree and the supply after a graft, with the place of the graft in view. -/
inductive Placed (root : Node α) (i : Nat) (child : Node α) (ids : IdSupply) :
    Goal → Node α × IdSupply → Prop where
  | joins {c : Context α} {h : Header} {cs : Forest α} (hroot : root = plug c (branch h cs))
      (hc : h.id ∉ idsBefore c) :
      Placed root i child ids (.under h.id) (plug c ((branch h cs).graft i child), ids)
  | splits {c : Context α} {h : Header} {d : α} (hroot : root = plug c (leaf h d))
      (hc : h.id ∉ idsBefore c) :
      Placed root i child ids (.under h.id)
        (plug c (((leaf h d).wrap ids.peek h.orientation).graft i child), ids.advance)
  | crosses :
      Placed root i child ids .besideRoot
        ((root.wrap ids.peek root.orientation.reverse).graft i child, ids.advance)

theorem adopt_wrap (n : Node α) (id : NodeId) (o : Orientation) (i : Nat) (child : Node α)
    (ids : IdSupply) : (n.wrap id o).adopt i child ids = ((n.wrap id o).graft i child, ids) := by
  rw [wrap_eq]
  rfl

/-- What placing returns is one of the three ways to place a child. -/
theorem place_placed {root : Node α} {goal : Goal} (h : root.checkGoal goal = .ok ())
    (child : Node α) (i : Nat) (ids : IdSupply) :
    Placed root i child ids goal (root.place goal i child ids) := by
  cases goal with
  | besideRoot =>
    show Placed _ _ _ _ _ ((root.wrap ids.peek root.orientation.reverse).adopt i child ids.advance)
    rw [adopt_wrap]
    exact .crosses
  | under parent =>
    rw [checkGoal] at h
    split at h
    · next hmem =>
      obtain ⟨t, ht⟩ := Option.isSome_iff_exists.mp hmem
      obtain ⟨rfl, c, rfl, hc⟩ := exists_plug_of_find? ht
      -- the node that is found takes the child in if it is a branch and is wrapped if it is a leaf
      simp only [place, ht, update?_plug _ hc, Option.getD_some]
      cases t with
      | leaf hd d => exact .splits rfl hc
      | branch hd cs => exact .joins rfl hc
    · cases h

/-- A placed child adds its census, and a split leaf the entry of the new container. -/
theorem Placed.census {root child : Node α} {i : Nat} {ids : IdSupply} {goal : Goal}
    {r : Node α × IdSupply} (hp : Placed root i child ids goal r) (hf : root.Forked) :
    (goal.splits root = true ∧ r.2 = ids.advance ∧
      r.1.census ~ ⟨ids.peek, some (1 + child.bears.toNat)⟩ :: (root.census ++ child.census)) ∨
    (goal.splits root = false ∧ r.2 = ids ∧ ∃ q k rest, goal = .under q ∧
      root.census ~ ⟨q, some k⟩ :: rest ∧
      r.1.census ~ ⟨q, some (k + child.bears.toNat)⟩ :: (rest ++ child.census)) := by
  cases hp with
  | @joins c h cs hroot hc =>
    subst hroot
    have hb : (branch h cs).bears := (hf.of_mem_nodes (mem_nodes_plug c _)).bears
    obtain ⟨rest, hbefore, hafter⟩ := census_graft (d := c) hb i child
    refine .inr ⟨?_, rfl, h.id, _, rest, rfl, hbefore, hafter⟩
    have hfind : (plug c (branch h cs)).find? h.id = some (branch h cs) :=
      find?_plug (m := branch h cs) hc
    rw [Goal.splits, hfind]
    rfl
  | @splits c h d hroot hc =>
    subst hroot
    have hb : (leaf h d).bears := rfl
    refine .inl ⟨?_, rfl, census_wrap_graft hb ids.peek h.orientation i child⟩
    have hfind : (plug c (leaf h d)).find? h.id = some (leaf h d) :=
      find?_plug (m := leaf h d) hc
    rw [Goal.splits, hfind]
    rfl
  | crosses =>
    exact .inl ⟨rfl, rfl, census_wrap_graft (d := []) hf.bears ids.peek _ i child⟩

/-! ## 2. The stale copy -/

/-- Without repetitions a child is the only one with its id. -/
theorem exists_first_child {k p : Node α} (hd : p.ids.Nodup) (hk : k ∈ p.children) :
    ∃ h x y, p = branch h (x ++ k :: y) ∧ (∀ c ∈ x, c.id ≠ k.id) ∧ ∀ c ∈ y, c.id ≠ k.id := by
  obtain ⟨⟨h, x, y⟩, rfl⟩ := exists_fill_of_mem_children hk
  rw [ids_fill, List.nodup_cons, List.nodup_append, List.nodup_append] at hd
  -- no identifier of `k` occurs before it or after it
  obtain ⟨-, ⟨-, -, hx⟩, -, hy⟩ := hd
  refine ⟨h, x, y, rfl, fun c hc heq => ?_, fun c hc heq => ?_⟩
  · exact hx _ (List.mem_flatMap.mpr ⟨c, hc, id_mem_ids c⟩) _ (id_mem_ids k) heq
  · exact hy _ (List.mem_append_right _ (id_mem_ids k)) _
      (List.mem_flatMap.mpr ⟨c, hc, id_mem_ids c⟩) heq.symm

/-- A node of the tree lies in the hole, around it or beside it; a node beside the hole stays when
the hole is filled anew. -/
theorem mem_nodes_plug_cases {c : Context α} {m p : Node α} (hp : p ∈ (plug c m).nodes) :
    p ∈ m.nodes ∨ (∃ a f b, c = a ++ f :: b ∧ p = f.fill (plug b m)) ∨
      ∀ m', p ∈ (plug c m').nodes := by
  induction c with
  | nil => exact .inl hp
  | cons f c ih =>
    rw [plug_cons, Frame.fill, nodes_branch, List.mem_cons, List.flatMap_append,
      List.flatMap_cons, List.mem_append, List.mem_append] at hp
    have hbeside : (p ∈ f.before.flatMap nodes ∨ p ∈ f.after.flatMap nodes) →
        ∀ m', p ∈ (plug (f :: c) m').nodes := by
      intro h m'
      rw [plug_cons, Frame.fill, nodes_branch, List.flatMap_append, List.flatMap_cons]
      simp only [List.mem_cons, List.mem_append]
      rcases h with h | h
      · exact .inr (.inl h)
      · exact .inr (.inr (.inr h))
    -- the branch around the hole, or below it: before the hole, in it or after it
    rcases hp with rfl | hp | hp | hp
    · exact .inr (.inl ⟨[], f, c, rfl, rfl⟩)
    · exact .inr (.inr (hbeside (.inl hp)))
    · rcases ih hp with h | ⟨a, g, b, rfl, rfl⟩ | h
      · exact .inl h
      · exact .inr (.inl ⟨f :: a, g, b, rfl, rfl⟩)
      · refine .inr (.inr fun m' => mem_nodes_trans (h m') ?_)
        exact mem_nodes_of_mem_children (mem_children_fill f (plug c m'))
    · exact .inr (.inr (hbeside (.inr hp)))

/-- Filling a hole anew outside the old parent's own subtree leaves the old parent with the same
first child of that identifier. -/
theorem exists_stale_outside {c : Context α} {m m' p k : Node α} (hd : (plug c m).ids.Nodup)
    (hp : p ∈ (plug c m).nodes) (hk : k ∈ p.children) (hpm : p ∉ m.nodes) (hkm : m.id ∉ k.ids)
    (hid : m'.id ≠ k.id) :
    ∃ h x y, branch h (x ++ k :: y) ∈ (plug c m').nodes ∧ h.id = p.id ∧ ∀ b ∈ x, b.id ≠ k.id := by
  obtain ⟨h, x, y, hpeq, hx, hy⟩ := exists_first_child (nodup_ids_of_mem_nodes hd hp) hk
  rcases mem_nodes_plug_cases hp with hin | ⟨a, f, b, rfl, hfill⟩ | hstays
  · exact absurd hin hpm
  · -- the hole is below `p`, in a child other than `k`
    have hne : plug b m ≠ k := by
      rintro rfl
      exact hkm (id_mem_of_mem_nodes (mem_nodes_plug b m))
    -- what the child with the hole turns into is no second `k`
    have hhole : (plug b m').id ≠ k.id := by
      cases b with
      | nil => exact hid
      | cons g b =>
        intro heq
        have hchild : plug (g :: b) m ∈ p.children := hfill ▸ mem_children_fill f _
        rw [hpeq, children_branch, List.mem_append, List.mem_cons] at hchild
        rcases hchild with hc | hc | hc
        · exact hx _ hc heq
        · exact hne hc
        · exact hy _ hc heq
    have hmem : f.fill (plug b m') ∈ (plug (a ++ f :: b) m').nodes := by
      rw [plug_append]
      exact mem_nodes_plug a _
    rw [hpeq, Frame.fill, branch.injEq] at hfill
    obtain ⟨rfl, hforest⟩ := hfill
    rw [hpeq]
    rcases List.append_eq_append_iff.mp hforest with ⟨z, hbefore, hrest⟩ | ⟨z, hbefore, hrest⟩
    · -- `k` stands at or before the hole
      cases z with
      | nil => exact absurd (List.cons.inj hrest).1.symm hne
      | cons z₀ z =>
        obtain ⟨rfl, hrest⟩ := List.cons.inj hrest
        refine ⟨f.header, x, z ++ plug b m' :: f.after, ?_, rfl, hx⟩
        rw [Frame.fill, hbefore, List.append_assoc] at hmem
        exact hmem
    · cases z with
      | nil => exact absurd (List.cons.inj hrest).1 hne
      | cons z₀ z =>
        obtain ⟨rfl, hafter⟩ := List.cons.inj hrest
        refine ⟨f.header, f.before ++ plug b m' :: z, y, ?_, rfl, ?_⟩
        · rw [Frame.fill, hafter] at hmem
          rw [List.append_assoc]
          exact hmem
        · intro j hj
          rw [List.mem_append, List.mem_cons] at hj
          rcases hj with hj | rfl | hj
          · exact hx j (hbefore ▸ List.mem_append_left _ hj)
          · exact hhole
          · exact hx j (hbefore ▸ List.mem_append_right _ (List.mem_cons_of_mem _ hj))
  · exact ⟨h, x, y, hpeq ▸ hstays m', by rw [hpeq]; rfl, hx⟩

theorem mem_children_graft {h : Header} {cs : Forest α} {m : Node α} (hm : m ∈ cs) (i : Nat)
    (child : Node α) : m ∈ ((branch h cs).graft i child).children := by
  rw [← List.take_append_drop i cs, List.mem_append] at hm
  rw [graft_branch, children_branch, List.mem_append]
  exact hm.imp (fun h => h) (List.mem_cons_of_mem _)

theorem mem_nodes_graft {h : Header} {cs : Forest α} {m : Node α} (hm : m ∈ cs.flatMap nodes)
    (i : Nat) (child : Node α) : m ∈ ((branch h cs).graft i child).nodes := by
  obtain ⟨c, hc, hmc⟩ := List.mem_flatMap.mp hm
  exact mem_nodes_trans hmc (mem_nodes_of_mem_children (mem_children_graft hc i child))

theorem staleStart_of_ne {root : Node α} {id parent : NodeId} {goal : Goal} {i : Nat}
    (h : goal.parent? ≠ some parent) : root.staleStart id (some parent) goal i = 0 := by
  rw [staleStart, if_neg]
  simpa using fun heq => h heq.symm

/-- In the same group the search for the stale copy starts behind the newcomer. -/
theorem staleStart_of_eq {root k : Node α} {h : Header} {x y : Forest α} {i : Nat}
    (hfind : root.find? h.id = some (branch h (x ++ k :: y))) (hx : ∀ b ∈ x, b.id ≠ k.id) :
    root.staleStart k.id (some h.id) (.under h.id) i = if i ≤ x.length then i + 1 else 0 := by
  simp [staleStart, Goal.parent?, hfind, childIndex?_branch hx]

/-- A goal that passes the check does not lie inside the moved node. -/
theorem not_mem_of_checkOutside {root k : Node α} {q : NodeId}
    (h : root.checkOutside k (.under q) = .ok ()) : q ∉ k.ids := by
  rw [checkOutside] at h
  split at h
  · cases h
  · next hnot => exact mt contains_iff.mpr hnot

/-- Under the same parent the search starts behind the new copy if the old one lies behind it. -/
theorem exists_stale_same {h : Header} {x y : Forest α} {k : Node α} (hx : ∀ b ∈ x, b.id ≠ k.id)
    (i : Nat) :
    ∃ w x' y', (branch h (x ++ k :: y)).graft i k = branch h (w ++ (x' ++ k :: y')) ∧
      (∀ b ∈ x', b.id ≠ k.id) ∧ (if i ≤ x.length then i + 1 else 0) = w.length := by
  rw [graft_branch]
  generalize k.joined h (x ++ k :: y) = new
  -- the new copy comes before the old one or after it
  by_cases hi : i ≤ x.length
  · refine ⟨x.take i ++ [new], x.drop i, y, ?_, fun b hb => hx b (List.mem_of_mem_drop hb), ?_⟩
    · rw [List.take_append_of_le_length hi, List.drop_append_of_le_length hi]
      simp
    · rw [if_pos hi, List.length_append, List.length_take, Nat.min_eq_left hi]
      rfl
  · obtain ⟨j, rfl⟩ := Nat.exists_eq_add_of_lt (Nat.lt_of_not_le hi)
    refine ⟨[], x, y.take j ++ new :: y.drop j, ?_, hx, by rw [if_neg hi]; rfl⟩
    rw [Nat.add_assoc, List.take_length_add_append, List.drop_length_add_append]
    simp

/-- The old parent in the tree after a graft: from the start index on, the first child of the
identifier is the stale copy. -/
def Stale (k p : Node α) (start : Nat) (tree : Node α) : Prop :=
  ∃ (h : Header) (w x y : Forest α), branch h (w ++ (x ++ k :: y)) ∈ tree.nodes ∧ h.id = p.id ∧
    (∀ b ∈ x, b.id ≠ k.id) ∧ start = w.length

theorem stale_of_mem {k p tree : Node α} {h : Header} {x y : Forest α}
    (hmem : branch h (x ++ k :: y) ∈ tree.nodes) (hid : h.id = p.id) (hx : ∀ b ∈ x, b.id ≠ k.id) :
    Stale k p 0 tree :=
  ⟨h, [], x, y, hmem, hid, hx, rfl⟩

/-- Joining a container leaves one stale copy behind, in the old parent. -/
theorem stale_joins {root k p : Node α} {c : Context α} {hdr : Header} {cs : Forest α}
    (hd : root.ids.Nodup) (hp : p ∈ root.nodes) (hk : k ∈ p.children)
    (hroot : root = plug c (branch hdr cs)) (hout : hdr.id ∉ k.ids) (i : Nat) :
    Stale k p (root.staleStart k.id (some p.id) (.under hdr.id) i)
      (plug c ((branch hdr cs).graft i k)) := by
  obtain ⟨h, x, y, hpeq, hx, -⟩ := exists_first_child (nodup_ids_of_mem_nodes hd hp) hk
  have hmem : branch hdr cs ∈ root.nodes := hroot ▸ mem_nodes_plug c _
  by_cases hsame : p = branch hdr cs
  · -- the new parent is the old one
    rw [hpeq, branch.injEq] at hsame
    obtain ⟨rfl, rfl⟩ := hsame
    obtain ⟨w, x', y', hgraft, hx', hw⟩ := exists_stale_same (h := h) (y := y) hx i
    have hfind : root.find? h.id = some (branch h (x ++ k :: y)) := find?_of_mem_nodes hd hmem
    refine ⟨h, w, x', y', hgraft ▸ mem_nodes_plug c _, by rw [hpeq]; rfl, hx', ?_⟩
    rw [hpeq]
    exact (staleStart_of_eq hfind hx).trans hw
  · have hne : Goal.parent? (.under hdr.id) ≠ some p.id := fun heq =>
      hsame (eq_of_id_eq hd hp hmem (Option.some.inj heq).symm)
    rw [staleStart_of_ne hne]
    by_cases hin : p ∈ (branch hdr cs).nodes
    · -- the old parent lies below the new one and is there as it was
      rw [nodes_branch, List.mem_cons] at hin
      refine stale_of_mem (h := h) (x := x) (y := y) ?_ (by rw [hpeq]; rfl) hx
      rw [← hpeq]
      exact mem_nodes_trans (mem_nodes_graft (hin.resolve_left hsame) i k) (mem_nodes_plug c _)
    · -- the old parent lies around the new one or beside it
      subst hroot
      have hid : ((branch hdr cs).graft i k).id ≠ k.id := by
        rw [graft_branch, id_branch]
        intro heq
        exact hout (heq ▸ id_mem_ids k)
      obtain ⟨h', x', y', hin', hid', hx'⟩ := exists_stale_outside hd hp hk hin hout hid
      exact stale_of_mem hin' hid' hx'

/-- Splitting a leaf leaves one stale copy behind, in the old parent. -/
theorem stale_splits {root k p : Node α} {c : Context α} {hdr : Header} {datum : α}
    {fresh : NodeId} (hd : root.ids.Nodup) (hp : p ∈ root.nodes) (hk : k ∈ p.children)
    (hroot : root = plug c (leaf hdr datum)) (hout : hdr.id ∉ k.ids) (hfresh : fresh ∉ root.ids)
    (i : Nat) :
    Stale k p (root.staleStart k.id (some p.id) (.under hdr.id) i)
      (plug c (((leaf hdr datum).wrap fresh hdr.orientation).graft i k)) := by
  subst hroot
  have hkroot : k.id ∈ (plug c (leaf hdr datum)).ids :=
    id_mem_of_mem_nodes (mem_nodes_trans (mem_nodes_of_mem_children hk) hp)
  -- the old parent has a child, so it is not the leaf
  have hleaf : p ∉ (leaf hdr datum).nodes := by
    rw [nodes_leaf, List.mem_singleton]
    rintro rfl
    cases hk
  have hne : Goal.parent? (.under hdr.id) ≠ some p.id := by
    intro heq
    have hpl := eq_of_id_eq hd hp (mem_nodes_plug c (leaf hdr datum)) (Option.some.inj heq).symm
    exact hleaf (hpl ▸ self_mem_nodes _)
  rw [staleStart_of_ne hne]
  have hid : (((leaf hdr datum).wrap fresh hdr.orientation).graft i k).id ≠ k.id := by
    rw [wrap_eq, graft_branch, id_branch]
    intro heq
    exact hfresh ((show fresh = k.id from heq) ▸ hkroot)
  obtain ⟨h', x', y', hin', hid', hx'⟩ := exists_stale_outside hd hp hk hleaf hout hid
  exact stale_of_mem hin' hid' hx'

/-- A wrapper around the root leaves one stale copy behind, in the old parent. -/
theorem stale_crosses {root k p : Node α} (hd : root.ids.Nodup) (hp : p ∈ root.nodes)
    (hk : k ∈ p.children) (fresh : NodeId) (o : Orientation) (i : Nat) :
    Stale k p (root.staleStart k.id (some p.id) .besideRoot i)
      ((root.wrap fresh o).graft i k) := by
  obtain ⟨h, x, y, hpeq, hx, -⟩ := exists_first_child (nodup_ids_of_mem_nodes hd hp) hk
  have hne : Goal.parent? .besideRoot ≠ some p.id := by
    rw [Goal.parent?]
    exact (Option.some_ne_none p.id).symm
  rw [staleStart_of_ne hne, wrap_eq]
  have hinner : root.inner o ∈
      ((branch ⟨fresh, o, root.size, root.visible⟩ [root.inner o]).graft i k).nodes :=
    mem_nodes_of_mem_children (mem_children_graft (List.mem_singleton_self _) i k)
  by_cases hsame : p = root
  · -- the wrapped root has a new size and its old children
    subst hsame hpeq
    exact stale_of_mem (h := { h with size := Share.whole }) hinner rfl hx
  · refine stale_of_mem (h := h) (x := x) (y := y) ?_ (by rw [hpeq]; rfl) hx
    rw [← hpeq]
    refine mem_nodes_trans ?_ hinner
    cases root with
    | leaf hdr d =>
      rw [nodes_leaf, List.mem_singleton] at hp
      exact absurd hp hsame
    | branch hdr cs =>
      rw [nodes_branch, List.mem_cons] at hp
      rw [inner_branch, nodes_branch]
      exact List.mem_cons_of_mem _ (hp.resolve_left hsame)

/-- However the node was placed, the old parent holds one stale copy of it. -/
theorem Placed.stale {root k p : Node α} {goal : Goal} {i : Nat} {ids : IdSupply}
    {r : Node α × IdSupply} (hr : Placed root i k ids goal r) (hd : root.ids.Nodup)
    (hp : p ∈ root.nodes) (hk : k ∈ p.children) (hout : root.checkOutside k goal = .ok ())
    (hfresh : ids.peek ∉ root.ids) :
    Stale k p (root.staleStart k.id (some p.id) goal i) r.1 := by
  cases hr with
  | joins hroot hc => exact stale_joins hd hp hk hroot (not_mem_of_checkOutside hout) i
  | splits hroot hc => exact stale_splits hd hp hk hroot (not_mem_of_checkOutside hout) hfresh i
  | crosses => exact stale_crosses hd hp hk ids.peek root.orientation.reverse i

/-- The old parent is left with the children that it has after the graft, without the first of the
identifier from the start index on. -/
theorem Placed.dropStale_at {root k p : Node α} {goal : Goal} {i : Nat} {ids : IdSupply}
    {r : Node α × IdSupply} {start : Nat} (hr : Placed root i k ids goal r) (hd : root.ids.Nodup)
    (hp : p ∈ root.nodes) (hk : k ∈ p.children) (hout : root.checkOutside k goal = .ok ())
    (hfresh : ids.peek ∉ root.ids) (honce : r.1.ids.count p.id ≤ 1)
    (hstart : root.staleStart k.id (some p.id) goal i = start) :
    ∃ (d : Context α) (h : Header) (x y : Forest α), h.id = p.id ∧
      r.1 = plug d (branch h (x ++ k :: y)) ∧
      r.1.dropStale k.id (some p.id) start = plug d (branch h (x ++ y)) ∧
      (x ++ y).map id = ((x ++ k :: y).map id).take start ++
        (((x ++ k :: y).map id).drop start).erase k.id := by
  obtain ⟨h, w, x, y, hmem, hid, hx, hw⟩ := hr.stale hd hp hk hout hfresh
  obtain rfl := hstart.symm.trans hw
  obtain ⟨d, hplug⟩ := exists_plug_of_mem_nodes hmem
  refine ⟨d, h, w ++ x, y, hid, by rw [List.append_assoc]; exact hplug, ?_, ?_⟩
  · rw [hplug, ← hid] at honce
    -- no node before the old parent has its identifier, so the update finds the old parent
    have hupdate := update?_plug (fun n => n.dropChild k.id w.length)
      (not_mem_idsBefore (m := branch h (w ++ (x ++ k :: y))) honce)
    rw [dropChild_branch h w x y k hx, id_branch, hid] at hupdate
    rw [Node.dropStale, hplug, hupdate, Option.getD_some, List.append_assoc]
  · have hxids : k.id ∉ x.map id := by
      simpa using hx
    rw [List.append_assoc, List.append_assoc, List.map_append, List.map_append, ← List.map_take,
      ← List.map_drop, List.take_left, List.drop_left, List.map_append,
      List.erase_append_right _ hxids, List.map_cons, List.erase_cons_head]

/-- Taking out the stale copy leaves the tree as the graft made it, without that copy. -/
theorem Placed.dropStale {root k p : Node α} {goal : Goal} {i : Nat} {ids : IdSupply}
    {r : Node α × IdSupply} (hr : Placed root i k ids goal r) (hd : root.ids.Nodup)
    (hp : p ∈ root.nodes) (hk : k ∈ p.children) (hout : root.checkOutside k goal = .ok ())
    (hfresh : ids.peek ∉ root.ids) (honce : r.1.ids.count p.id ≤ 1) :
    ∃ (d : Context α) (h : Header) (x y : Forest α), h.id = p.id ∧
      r.1 = plug d (branch h (x ++ k :: y)) ∧
      r.1.dropStale k.id (some p.id) (root.staleStart k.id (some p.id) goal i) =
        plug d (branch h (x ++ y)) := by
  obtain ⟨d, h, x, y, hid, hplug, hdrop, -⟩ := hr.dropStale_at hd hp hk hout hfresh honce rfl
  exact ⟨d, h, x, y, hid, hplug, hdrop⟩

end Node

end Tiling
