import Tiling.Proofs.DropTarget

/-!
# A drop onto a side, step by step

The move that a drop asks for grafts a copy of the node into the host and takes out the old one. The
new copy stays in the hole of its frame, next to the anchor; the frames on the way to it lose the
leaves of the old copy and nothing else.
-/

namespace Tiling

variable {α : Type}

open Node Context
open scoped List

namespace Node

/-! ## 1. The copy -/

@[simp] theorem ids_joined (child : Node α) (h : Header) (cs : Forest α) :
    (child.joined h cs).ids = child.ids := by
  rw [← map_id_census, census_joined, map_id_census]

theorem forked_joined {child : Node α} (hf : child.Forked) (h : Header) (cs : Forest α) :
    (child.joined h cs).Forked := by
  have horient := forked_orient h.orientation.reverse hf
  rw [joined, joining]
  split
  · exact horient
  · rwa [withSize, forked_mapHeader]

/-- The node as it stands at a new place. -/
structure CopyOf (m copy : Node α) : Prop where
  id_eq : copy.id = m.id
  ids_eq : copy.ids = m.ids
  leafIds_eq : copy.leafIds = m.leafIds
  forked : copy.Forked

theorem copyOf_self {m : Node α} (hf : m.Forked) : m.CopyOf m :=
  ⟨rfl, rfl, rfl, hf⟩

theorem copyOf_joined {m : Node α} (hf : m.Forked) (h : Header) (cs : Forest α) :
    m.CopyOf (m.joined h cs) :=
  ⟨id_joined m h cs, ids_joined m h cs, leafIds_joined m h cs, forked_joined hf h cs⟩

/-! ## 2. The host opens -/

/-- The frame around a place in the host next to the anchor. The leaves beside its hole are those of
the host, but for `gone`. -/
structure Opens (host anchor : Node α) (zone : DropZone) (gone : List NodeId) (f : Frame α) :
    Prop where
  orientation_eq : f.header.orientation = host.orientation
  leaves_eq : (f.before.flatMap leafIds ++ f.after.flatMap leafIds).filter (· ∉ gone) =
    host.leafIds.filter (· ∉ gone)
  next : ∃ b, f.NextTo zone b ∧ b.leafIds = anchor.leafIds

/-- The tree after a drop of `m`: a copy of `m` is next to the anchor, and the frames around it have
lost the leaves of the old one. -/
inductive Landed (root host anchor m : Node α) (zone : DropZone) : Node α → Prop where
  | intro {c c' : Context α} {f f' : Frame α} {copy : Node α} (root_eq : root = plug c host)
      (opens : host.Opens anchor zone m.leafIds f) (around : Sheds m.leafIds c c')
      (sheds : f.Sheds m.leafIds f') (copyOf : m.CopyOf copy) :
      Landed root host anchor m zone (plug (c' ++ [f']) copy)

/-- At a spot in a group, the host opens between its children. -/
theorem Spot.opens_branch {t m b : Node α} {zone : DropZone} {h : Header} {cs : Forest α} {i : Nat}
    (hs : Spot t zone (branch h cs) b i) (hleaf : t.isLeaf) :
    (branch h cs).Opens b zone m.leafIds ⟨h, cs.take i, cs.drop i⟩ := by
  refine ⟨rfl, ?_, b, hs.nextTo hleaf, rfl⟩
  rw [← List.flatMap_append, List.take_append_drop, leafIds_branch]

/-- At a spot beside a leaf, the host opens into the new container. -/
theorem Spot.opens_leaf {t m b : Node α} {zone : DropZone} {h : Header} {d : α} {i : Nat}
    (hs : Spot t zone (leaf h d) b i) (id : NodeId) :
    (leaf h d).Opens b zone m.leafIds ⟨⟨id, h.orientation, h.size, h.visible⟩,
      [(leaf h d).inner h.orientation].take i, [(leaf h d).inner h.orientation].drop i⟩ := by
  cases hs with
  | within =>
    refine ⟨rfl, ?_, (leaf h d).inner h.orientation, ?_, leafIds_inner _ _⟩
    · rw [← List.flatMap_append, List.take_append_drop, List.flatMap_singleton, leafIds_inner]
    · rw [Frame.NextTo]
      rcases zone.offset_cases with hzero | hone
      · rw [if_pos hzero, hzero]
        rfl
      · rw [if_neg (by rw [hone]; decide), hone]
        rfl

/-! ## 3. The old copy goes -/

/-- Under the same parent the old copy is taken out beside the new one. -/
theorem dropChild_graft {h : Header} {x y : Forest α} {m : Node α} (hx : ∀ c ∈ x, c.id ≠ m.id)
    (i : Nat) :
    ∃ f', Frame.Sheds m.leafIds ⟨h, (x ++ m :: y).take i, (x ++ m :: y).drop i⟩ f' ∧
      ((branch h (x ++ m :: y)).graft i m).dropChild m.id (if i ≤ x.length then i + 1 else 0) =
        f'.fill (m.joined h (x ++ m :: y)) := by
  rw [graft_branch]
  generalize m.joined h (x ++ m :: y) = copy
  -- the new copy comes before the old one or after it
  by_cases hi : i ≤ x.length
  · rw [if_pos hi, List.take_append_of_le_length hi, List.drop_append_of_le_length hi]
    refine ⟨⟨h, x.take i, x.drop i ++ y⟩, ⟨rfl, rfl, ?_⟩, ?_⟩
    · simp only [List.flatMap_append, List.flatMap_cons, List.filter_append,
        filter_not_mem_self, List.nil_append]
    · have hlength : (x.take i ++ [copy]).length = i + 1 := by
        rw [List.length_append, List.length_take, Nat.min_eq_left hi, List.length_singleton]
      have hdrop := dropChild_branch h (x.take i ++ [copy]) (x.drop i) y m fun c hc =>
        hx c (List.mem_of_mem_drop hc)
      rw [hlength] at hdrop
      simpa [Frame.fill] using hdrop
  · obtain ⟨j, rfl⟩ := Nat.exists_eq_add_of_lt (Nat.lt_of_not_le hi)
    rw [if_neg hi, Nat.add_assoc, List.take_length_add_append, List.drop_length_add_append]
    refine ⟨⟨h, x ++ y.take j, y.drop j⟩, ⟨rfl, ?_, rfl⟩, ?_⟩
    · simp only [List.take_succ_cons, List.flatMap_append, List.flatMap_cons, List.filter_append,
        filter_not_mem_self, List.nil_append]
    · have hdrop := dropChild_branch h [] x (y.take j ++ copy :: y.drop j) m hx
      simpa [Frame.fill] using hdrop

/-- Under another parent the old copy is taken out of another hole. -/
theorem landed_of_other {root host anchor m copy : Node α} {zone : DropZone} {c d : Context α}
    {f : Frame α} {hd : Header} {x y : Forest α} (hroot : root = plug c host)
    (hopens : host.Opens anchor zone m.leafIds f) (hcopy : m.CopyOf copy)
    (hne : f.header.id ≠ hd.id)
    (htwice : plug (c ++ [f]) copy = plug d (branch hd (x ++ m :: y))) :
    Landed root host anchor m zone (plug d (branch hd (x ++ y))) := by
  have hplug : plug (c ++ [f]) copy = plug (d ++ [⟨hd, x, y⟩]) m := by
    rw [htwice, plug_append]
    rfl
  have hholes : c ++ [f] ≠ d ++ [⟨hd, x, y⟩] := by
    intro heq
    obtain ⟨-, hf⟩ := List.append_inj' heq rfl
    exact hne (by rw [List.singleton_inj.mp hf])
  have hlength : copy.ids.length = m.ids.length := by rw [hcopy.ids_eq]
  obtain ⟨e, hvacant, hsheds⟩ := exists_vacant_eq hplug hholes hlength
  obtain ⟨c', f', rfl, hc, hf⟩ := hsheds.of_concat
  rw [vacant_concat, List.singleton_inj] at hvacant
  rw [hvacant]
  exact .intro hroot hopens hc hf hcopy

/-- A graft leaves the tree with a copy in the hole of a frame that opens the host. The frame's
branch is the host itself or a new one. -/
theorem Placed.exists_opens {root t m host anchor : Node α} {zone : DropZone} {i : Nat}
    {ids : IdSupply} {r : Node α × IdSupply} (h : root.Droppable t m)
    (hr : Placed root i m ids (.under host.id) r) (hs : Spot t zone host anchor i)
    (hhost : host ∈ root.nodes) :
    ∃ (c : Context α) (f : Frame α) (copy : Node α), root = plug c host ∧
      r.1 = plug (c ++ [f]) copy ∧ host.Opens anchor zone m.leafIds f ∧ m.CopyOf copy ∧
      (f.header.id = host.id ∨ f.header.id = ids.peek) := by
  have hforked := h.normalForm.forked.of_mem_nodes h.moved_mem
  generalize hgoal : Goal.under host.id = goal at hr
  cases hr with
  | @joins c hdr cs hroot hc =>
    have hself : branch hdr cs ∈ root.nodes := hroot ▸ mem_nodes_plug c _
    obtain rfl := eq_of_id_eq h.nodup hhost hself (Goal.under.inj hgoal)
    rw [graft_branch]
    exact ⟨c, ⟨_, _, _⟩, _, hroot, (plug_append c [⟨_, _, _⟩] _).symm, hs.opens_branch h.isLeaf,
      copyOf_joined hforked hdr cs, .inl rfl⟩
  | @splits c hdr d hroot hc =>
    have hself : leaf hdr d ∈ root.nodes := hroot ▸ mem_nodes_plug c _
    obtain rfl := eq_of_id_eq h.nodup hhost hself (Goal.under.inj hgoal)
    rw [wrap_eq, graft_branch]
    exact ⟨c, ⟨_, _, _⟩, _, hroot, (plug_append c [⟨_, _, _⟩] _).symm, hs.opens_leaf ids.peek,
      copyOf_joined hforked _ _, .inr rfl⟩
  | crosses => cases hgoal

/-- The host is the old parent, which has the copy and the node side by side. -/
theorem Placed.landed_same {root t m host anchor : Node α} {zone : DropZone} {i : Nat}
    {ids : IdSupply} {r : Node α × IdSupply} (h : root.Droppable t m)
    (hr : Placed root i m ids (.under host.id) r) (hs : Spot t zone host anchor i)
    (hhost : host ∈ root.nodes) (hm : m ∈ host.children) :
    Landed root host anchor m zone (r.1.dropStale m.id (some host.id)
      (root.staleStart m.id (some host.id) (.under host.id) i)) := by
  have hforked := h.normalForm.forked.of_mem_nodes h.moved_mem
  generalize hgoal : Goal.under host.id = goal at hr
  cases hr with
  | @joins c hdr cs hroot hc =>
    have hself : branch hdr cs ∈ root.nodes := hroot ▸ mem_nodes_plug c _
    obtain rfl := eq_of_id_eq h.nodup hhost hself (Goal.under.inj hgoal)
    obtain ⟨_, x, y, heq, hx, -⟩ :=
      exists_first_child (nodup_ids_of_mem_nodes h.nodup hhost) hm
    obtain ⟨rfl, rfl⟩ := branch.inj heq
    obtain ⟨f', hsheds, hdrop⟩ := dropChild_graft (h := hdr) (y := y) hx i
    have hfind : root.find? hdr.id = some (branch hdr (x ++ m :: y)) :=
      find?_of_mem_nodes h.nodup hhost
    have hupdate : (plug c ((branch hdr (x ++ m :: y)).graft i m)).update? hdr.id
        (fun n => n.dropChild m.id (if i ≤ x.length then i + 1 else 0)) =
          some (plug (c ++ [f']) (m.joined hdr (x ++ m :: y))) := by
      rw [plug_append, plug_cons, plug_nil, ← hdrop]
      exact update?_plug (m := (branch hdr (x ++ m :: y)).graft i m) _ hc
    rw [← hgoal, id_branch, staleStart_of_eq hfind hx, Node.dropStale, hupdate, Option.getD_some]
    exact .intro hroot (hs.opens_branch h.isLeaf) (.refl _ c) hsheds (copyOf_joined hforked hdr _)
  | @splits c hdr d hroot hc =>
    have hself : leaf hdr d ∈ root.nodes := hroot ▸ mem_nodes_plug c _
    obtain rfl := eq_of_id_eq h.nodup hhost hself (Goal.under.inj hgoal)
    cases hm
  | crosses => cases hgoal

theorem Placed.landed {root t m p host anchor : Node α} {zone : DropZone} {i : Nat}
    {ids : IdSupply} {r : Node α × IdSupply} (h : root.Droppable t m)
    (hr : Placed root i m ids (.under host.id) r) (hs : Spot t zone host anchor i)
    (hhost : host ∈ root.nodes) (hout : host.id ∉ m.ids) (hp : root.parent? m.id = some p)
    (hfresh : ids.peek ∉ root.ids) :
    Landed root host anchor m zone (r.1.dropStale m.id (some p.id)
      (root.staleStart m.id (some p.id) (.under host.id) i)) := by
  obtain ⟨hpn, hmp, hpm⟩ := exists_plug_parent h.nodup h.moved_mem hp
  by_cases hsame : p = host
  · subst hsame
    exact hr.landed_same h hs hhost hmp
  · have hcheck : root.checkOutside m (.under host.id) = .ok () := by
      rw [checkOutside, if_neg (mt contains_iff.mp hout)]
    have honce :=
      hr.count_le_one h.nodup h.normalForm.forked hfresh (id_mem_of_mem_nodes hpn) hpm
    obtain ⟨d, hd, x, y, hid, hplug, hdrop⟩ :=
      hr.dropStale h.nodup hpn hmp hcheck hfresh honce
    obtain ⟨c, f, copy, hroot, hcopy, hopens, hcopyOf, hheader⟩ := hr.exists_opens h hs hhost
    rw [hdrop]
    refine landed_of_other hroot hopens hcopyOf ?_ (hcopy.symm.trans hplug)
    -- the frame's branch is the host or new, and the old parent is neither
    rw [hid]
    rcases hheader with heq | heq
    · rw [heq]
      exact fun h' => hsame (eq_of_id_eq h.nodup hpn hhost h'.symm)
    · rw [heq]
      exact fun h' => hfresh (h' ▸ id_mem_of_mem_nodes hpn)

/-! ## 4. The move performed -/

/-- The tree after the move that a drop of `m` asks for, not balanced yet. Of the old nodes only the
old parent can go, if it had two children and is not the host. -/
structure Relocated (root host anchor m : Node α) (zone : DropZone) (tree : Node α) : Prop where
  landed : Landed root host anchor m zone tree
  nodup : tree.ids.Nodup
  mem_survivors_iff : ∀ p, root.parent? m.id = some p → ∀ id ∈ root.ids,
    (id ∈ tree.survivors ↔ ¬(id = p.id ∧ host.id ≠ p.id ∧ p.children.length = 2))

/-- Without the old copy the tree has the identifiers that it had and the one that was minted. -/
theorem Placed.ids_move {root k p : Node α} {i : Nat} {ids : IdSupply} {goal : Goal}
    {r : Node α × IdSupply} (hr : Placed root i k ids goal r) (hd : root.ids.Nodup)
    (hf : root.Forked) (hk : k ∈ root.nodes) (hp : root.parent? k.id = some p)
    (hout : root.checkOutside k goal = .ok ()) (hfresh : ids.peek ∉ root.ids) :
    (r.1.dropStale k.id (some p.id) (root.staleStart k.id (some p.id) goal i)).ids ~
      (if goal.splits root then [ids.peek] else []) ++ root.ids := by
  obtain ⟨S, R, n, hS, hlowered, hids, -⟩ := hr.exists_lowered hd hf hk hp hout hfresh
  have hmap := hlowered.map Entry.id
  rw [map_id_census] at hmap
  exact hmap.trans ((hS.map Entry.id).symm.trans hids)

end Node

namespace State

/-- A move of a node that the tree has puts a copy at the goal and takes the node out of its old
parent. -/
theorem relocates_of_move {s r : State α} {root k : Node α} {parent : Option NodeId} {atRoot : Bool}
    {i : Nat} {goal : Goal} (hroot : s.root = some root) (hgoal : Goal.of parent atRoot = .ok goal)
    (hk : root.find? k.id = some k) (h : s.move parent atRoot i k = .ok r) :
    ∃ p placed, root.parent? k.id = some p ∧ root.checkOutside k goal = .ok () ∧
      Placed root i k (s.ids.reserveAll k.ids) goal placed ∧
      r.root = some (placed.1.dropStale k.id (some p.id)
        (root.staleStart k.id (some p.id) goal i)) := by
  have hedited := move_edited h
  generalize hb : Action.move parent atRoot i k = b at hedited
  generalize htree : r.root = tree at hedited
  generalize r.ids = ids at hedited
  cases hedited with
  | plant hcarried hnone =>
    rw [hroot] at hnone
    cases hnone
  | @graft _ root' node goal' j placed hcarried hroot' hgoal' hnew hr =>
    -- the node is not new to the tree
    subst hb
    obtain rfl := Option.some.inj hcarried
    obtain rfl := Option.some.inj (hroot.symm.trans hroot')
    exact absurd (id_of_find? hk ▸ id_mem_of_mem_nodes (mem_nodes_of_find? hk))
      (hnew _ (id_mem_ids k))
  | @relocate parent' atRoot' j root' node k' p goal' placed hroot' hgoal' hk' hp hout hr =>
    obtain ⟨rfl, rfl, rfl, rfl⟩ := Action.move.inj hb
    obtain rfl := Option.some.inj (hroot.symm.trans hroot')
    obtain rfl := Except.ok.inj (hgoal.symm.trans hgoal')
    obtain rfl := Option.some.inj (hk.symm.trans hk')
    exact ⟨p, placed, hp, hout, hr, rfl⟩
  | rearrange hrearranges =>
    subst hb
    cases hrearranges
  | clear | delete => cases hb

/-- The move that a drop onto a side asks for is accepted. -/
theorem move_relocated {s : State α} {root t m host anchor : Node α} {zone : DropZone} {i : Nat}
    (h : root.Droppable t m) (hroot : s.root = some root) (hcovers : s.ids.Covers root.ids)
    (hbound : s.ids.next.toNat < 2 ^ 63) (hs : Spot t zone host anchor i)
    (hhost : host ∈ root.nodes) :
    ∃ r tree, s.move (some host.id) false i m = .ok r ∧ r.root = some tree ∧
      Relocated root host anchor m zone tree := by
  have hout : host.id ∉ m.ids :=
    not_mem_ids_of_below h.nodup h.moved_mem hhost hs.mem_nodes h.outside
  have hcheck : root.checkOutside m (.under host.id) = .ok () := by
    rw [checkOutside, if_neg (mt contains_iff.mp hout)]
  have hin : root.checkGoal (.under host.id) = .ok () := by
    rw [checkGoal, if_pos (contains_iff.mpr (id_mem_of_mem_nodes hhost))]
  have hgoal : Goal.of (some host.id) false = .ok (.under host.id) := rfl
  have hfind := find?_of_mem_nodes h.nodup h.moved_mem
  have hforked := h.normalForm.forked
  -- the moved node is in the tree, so the next identifier is the one of the supply as it is
  have hreserved : s.ids.reserveAll m.ids = s.ids :=
    (hcovers.of_subset fun id hid => mem_ids_trans hid h.moved_mem).reserveAll_eq
  have hfresh : s.ids.peek ∉ root.ids := hcovers.peek_not_mem hbound
  obtain ⟨r, hr, -⟩ := move_of_goal hroot hgoal hfind hcheck hin i
  obtain ⟨p, placed, hp, -, hplaced, htree⟩ := relocates_of_move hroot hgoal hfind hr
  rw [hreserved] at hplaced
  have hids := hplaced.ids_move h.nodup hforked h.moved_mem hp hcheck hfresh
  obtain ⟨-, hkept⟩ := hplaced.survivors_move h.nodup hforked h.moved_mem hp hcheck hfresh rfl
  refine ⟨r, _, hr, htree, hplaced.landed h hs hhost hout hp hfresh, ?_, fun p' hp' id hid => ?_⟩
  · rw [hids.nodup_iff]
    split
    · exact List.nodup_cons.mpr ⟨hfresh, h.nodup⟩
    · exact h.nodup
  · obtain rfl := Option.some.inj (hp.symm.trans hp')
    have hne : id ≠ s.ids.peek := fun heq => hfresh (heq ▸ hid)
    rw [hkept]
    simp [hne, hid, Goal.parent?]

/-! ## 5. The drop performed -/

def afterDrop (s : State α) (target moved : NodeId) (zone : DropZone) : State α :=
  -- There is nothing to commit where the drop is suppressed or rejected.
  let t := s.apply (.stageDrop target moved zone)
  if t.staged.isSome then t.apply .commitStaged else t

/-- Two nodes found by their identifiers are nodes of the tree, and what was read off them holds. -/
theorem exists_of_finds {β : Type} {s : State α} {target moved : NodeId}
    {f : Node α → Node α → Node α → β} {b : β}
    (h : (s.root.bind fun root => (root.find? target).bind fun t =>
      (root.find? moved).map fun m => f root t m) = some b) :
    ∃ root t m, s.root = some root ∧ t ∈ root.nodes ∧ m ∈ root.nodes ∧ t.id = target ∧
      m.id = moved ∧ f root t m = b := by
  obtain ⟨root, hroot, h⟩ := Option.bind_eq_some_iff.mp h
  obtain ⟨t, ht, h⟩ := Option.bind_eq_some_iff.mp h
  obtain ⟨m, hm, h⟩ := Option.map_eq_some_iff.mp h
  exact ⟨root, t, m, hroot, mem_nodes_of_find? ht, mem_nodes_of_find? hm, id_of_find? ht,
    id_of_find? hm, h⟩

/-- A resolved drop is staged and nothing else changes. -/
theorem step_stageDrop {s : State α} {root : Node α} {target moved : NodeId} {zone : DropZone}
    {staged : Option (Action α)} (hroot : s.root = some root)
    (h : root.resolveDrop target moved zone = .ok staged) :
    s.step (.stageDrop target moved zone) = ({ s with staged }, none) := by
  have hdrop : s.stageDrop target moved zone = .ok { s with staged } := by
    rw [stageDrop, rootOf, hroot, ok_bind, h]
    rfl
  show s.attempt _ = _
  rw [attempt, perform, hdrop]

/-- A drop onto a side leaves the tree as it is, or moves the node and settles the state. -/
inductive Outcome (s : State α) (root t m : Node α) (zone : DropZone) : State α → Prop where
  | stays (hstaged : (s.apply (.stageDrop t.id m.id zone)).staged = none)
      (h : Stays root (root.dropHost t zone) (root.dropAnchor t zone) m zone) :
      Outcome s root t m zone { s with staged := none }
  | moves {r : State α} {tree : Node α}
      (hcommit : ((s.apply (.stageDrop t.id m.id zone)).step .commitStaged).2 = none)
      (hroot : r.root = some tree)
      (h : Relocated root (root.dropHost t zone) (root.dropAnchor t zone) m zone tree) :
      Outcome s root t m zone r.settle

/-- A drop onto a side of a leaf is accepted, and so is the commit of what it stages. -/
theorem afterDrop_outcome {s : State α} {root t m : Node α} {zone : DropZone} {axis : Orientation}
    (h : root.Droppable t m) (hroot : s.root = some root) (hcovers : s.ids.Covers root.ids)
    (hbound : s.ids.next.toNat < 2 ^ 63) (hzone : zone.axis? = some axis) :
    (s.step (.stageDrop t.id m.id zone)).2 = none ∧
      s.Outcome root t m zone (s.afterDrop t.id m.id zone) := by
  rcases h.resolveDrop_side hzone with ⟨i, hdrop, hs⟩ | ⟨hdrop, hstays⟩
  · have hstep := step_stageDrop hroot hdrop
    obtain ⟨-, -, -, hhost, -⟩ := h.spotted hzone
    -- the move is performed from the state with nothing staged
    obtain ⟨r, tree, hr, htree, hrelocated⟩ :=
      move_relocated (s := { s with staged := none }) h hroot hcovers hbound hs hhost
    have hcommit : (s.apply (.stageDrop t.id m.id zone)).step .commitStaged = (r.settle, none) := by
      rw [apply, hstep]
      show { s with staged := none }.attempt _ = _
      rw [attempt, perform, hr]
      rfl
    have hafter : s.afterDrop t.id m.id zone = r.settle := by
      have hsome : (s.apply (.stageDrop t.id m.id zone)).staged.isSome := by
        rw [apply, hstep]
        rfl
      rw [afterDrop, if_pos hsome, apply, hcommit]
    rw [hstep, hafter]
    exact ⟨rfl, .moves (by rw [hcommit]) htree hrelocated⟩
  · have hstep := step_stageDrop hroot hdrop
    have happly : s.apply (.stageDrop t.id m.id zone) = { s with staged := none } := by
      rw [apply, hstep]
    rw [hstep, afterDrop, happly]
    exact ⟨rfl, .stays (by rw [happly]) hstays⟩

end State

end Tiling
