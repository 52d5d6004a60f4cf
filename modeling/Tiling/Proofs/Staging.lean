import Tiling.Proofs.Conservation

/-!
# Staged drops

What is staged was worked out for the tree that is there: every action that changes the tree clears
the staged action, and every other call leaves both alone. The checks of a drop are stricter than
those of the move or swap that it stages, so a staged action can be committed.
-/

namespace Tiling

variable {α : Type}

open Node Context

/-! ## 1. What is staged fits the tree -/

namespace State

/-- The staged action is what some drop onto the present tree asks for. -/
def StagedFits (s : State α) : Prop :=
  ∀ a, s.staged = some a → ∃ root target moved zone, s.root = some root ∧
    root.resolveDrop target moved zone = .ok (some a)

theorem StagedFits.of_none {s : State α} (h : s.staged = none) : s.StagedFits := by
  intro a ha
  rw [h] at ha
  cases ha

theorem StagedFits.congr {s t : State α} (hs : s.StagedFits) (hstaged : t.staged = s.staged)
    (hroot : t.root = s.root) : t.StagedFits := by
  intro a ha
  rw [hroot]
  exact hs a (hstaged ▸ ha)

/-- Whatever succeeds leaves a staged action that still fits the tree. -/
theorem StagedFits.perform {s t : State α} {b : Action α} (hs : s.StagedFits)
    (h : s.perform b = .ok t) : t.StagedFits := by
  by_cases hb : b.isEdit
  · obtain ⟨r, -, rfl⟩ := perform_edit hb h
    exact .of_none rfl
  · obtain ⟨⟨hroot, -⟩, hnone | hkept | ⟨root, target, moved, zone, hsome, hdrop⟩⟩ :=
      perform_other (Bool.eq_false_iff.mpr hb) h
    · exact .of_none hnone
    · exact hs.congr hkept hroot
    · -- the drop was worked out for the tree that is kept
      exact fun a ha => ⟨root, target, moved, zone, hroot.trans hsome, ha ▸ hdrop⟩

end State

/-- In every reachable state the staged action fits the tree. -/
theorem Reachable.stagedFits {s : State α} (h : Reachable s) : s.StagedFits := by
  induction h with
  | empty => exact .of_none rfl
  | ofRoot root => exact .of_none rfl
  | call c _ ih =>
    exact State.call_invariant (fun _ _ _ hs h => hs.perform h) (fun _ _ => .of_none rfl)
      (fun _ hs => hs.congr rfl rfl) (fun _ _ hs => hs.congr rfl rfl) ih c

/-! ## 2. What a drop asks for -/

namespace Node

/-- A swap or a move within the tree that no check of the tree rejects. -/
inductive Fits (root : Node α) : Action α → Prop where
  | swap {a b : Node α} (ha : a ∈ root.nodes) (hb : b ∈ root.nodes) (hne : a.id ≠ b.id)
      (haroot : a.id ≠ root.id) (hbroot : b.id ≠ root.id) (hab : b.id ∉ a.ids)
      (hba : a.id ∉ b.ids) : Fits root (.swap a.id b.id)
  | under {node p : Node α} {i : Nat} (hnode : node ∈ root.nodes) (hp : p ∈ root.nodes)
      (hout : p.id ∉ node.ids) : Fits root (.move (some p.id) false i node)
  | besideRoot {node : Node α} {i : Nat} (hnode : node ∈ root.nodes) (hne : node.id ≠ root.id) :
      Fits root (.move none true i node)

/-- Whoever has the target below it lies outside every node that does not have the target. -/
theorem not_mem_ids_of_below {root node p t : Node α} (hd : root.ids.Nodup)
    (hnode : node ∈ root.nodes) (hp : p ∈ root.nodes) (ht : t ∈ p.nodes) (hout : t.id ∉ node.ids) :
    p.id ∉ node.ids := by
  intro hmem
  obtain ⟨m, hm, hid⟩ := mem_ids.mp hmem
  rw [eq_of_id_eq hd (mem_nodes_trans hm hnode) hp hid] at hm
  exact hout (id_mem_of_mem_nodes (mem_nodes_trans ht hm))

end Node

/-- The target of a drop, its parent and its grandparent are all outside the moved node. -/
theorem Placement.ofDrop?_fits {root target node : Node α} {axis : Orientation} {zone : DropZone}
    {place : Placement} (hd : root.ids.Nodup) (htarget : target ∈ root.nodes)
    (hnode : node ∈ root.nodes) (hout : target.id ∉ node.ids)
    (h : Placement.ofDrop? root target axis zone = some place) :
    root.Fits (.move place.parent place.parent.isNone place.index node) := by
  -- the target has itself, its parent and its grandparent above it
  have hunder : ∀ p ∈ root.nodes, target ∈ p.nodes → ∀ i,
      root.Fits (.move (some p.id) false i node) := fun p hp ht i =>
    .under hnode hp (not_mem_ids_of_below hd hnode hp ht hout)
  rw [ofDrop?] at h
  split at h
  · cases h
    -- an outer zone goes past the parent, under the grandparent
    cases hfurther : if zone.isOuter then besideParent? root target zone.offset else none with
    | none => exact hunder target htarget (self_mem_nodes target) _
    | some further =>
      rw [Option.ite_none_right_eq_some] at hfurther
      obtain ⟨p, hp, h⟩ := Option.bind_eq_some_iff.mp hfurther.2
      obtain ⟨g, hg, h⟩ := Option.bind_eq_some_iff.mp h
      obtain ⟨i, -, h⟩ := Option.bind_eq_some_iff.mp h
      cases h
      obtain ⟨hpn, hkp, -⟩ := exists_plug_parent hd htarget hp
      obtain ⟨hgn, hpg, -⟩ := exists_plug_parent hd hpn hg
      exact hunder g hgn (mem_nodes_trans (mem_nodes_of_mem_children hkp)
        (mem_nodes_of_mem_children hpg)) _
  · -- beside the target: under its parent, or beside the root if the target is the root
    rw [beside?] at h
    split at h
    · next p hp =>
      obtain ⟨i, -, rfl⟩ := Option.map_eq_some_iff.mp h
      obtain ⟨hpn, hkp, -⟩ := exists_plug_parent hd htarget hp
      exact hunder p hpn (mem_nodes_of_mem_children hkp) _
    · rw [Option.ite_none_right_eq_some] at h
      obtain ⟨hroot, h⟩ := h
      cases h
      refine .besideRoot hnode fun hid => hout ?_
      rw [hroot, ← hid]
      exact id_mem_ids node

namespace Node

/-- A drop resolves to an action that fits. -/
theorem resolveDrop_fits {root : Node α} {target moved : NodeId} {zone : DropZone} {a : Action α}
    (hd : root.ids.Nodup) (h : root.resolveDrop target moved zone = .ok (some a)) :
    root.Fits a := by
  rw [resolveDrop] at h
  split at h
  · cases h
  · next hne =>
    split at h
    · cases h
    · cases h
    · next t m ht hm =>
      obtain rfl := id_of_find? ht
      obtain rfl := id_of_find? hm
      have htn := mem_nodes_of_find? ht
      have hmn := mem_nodes_of_find? hm
      split at h
      · cases h
      · next hout =>
        rw [contains_iff] at hout
        split at h
        · -- a drop onto the middle swaps the two, and any other one moves
          obtain ⟨b, hb, h⟩ := State.map_eq_ok h
          rw [resolveSwap] at hb
          split at hb
          · cases hb
          · next hroot =>
            rw [Bool.or_eq_true, decide_eq_true_iff, decide_eq_true_iff, not_or] at hroot
            split at hb
            · cases hb
            · next hin =>
              rw [contains_iff] at hin
              cases hb
              cases h
              exact .swap htn hmn hne hroot.1 hroot.2 hin hout
        · split at h
          · cases h
          · next place hplace =>
            split at h
            · cases h
            · cases h
              exact Placement.ofDrop?_fits hd htn hmn hout hplace

end Node

/-! ## 3. What fits is performed -/

namespace State

theorem swap_of_parts {s : State α} {root a b : Node α} (hd : root.ids.Nodup)
    (hroot : s.root = some root) (ha : a ∈ root.nodes) (hb : b ∈ root.nodes) (hab : b.id ∉ a.ids)
    (hba : a.id ∉ b.ids) :
    ∃ r, s.swap a.id b.id = .ok r ∧ r.generation = s.generation := by
  have hpath : ∀ m ∈ root.nodes, ∃ p, root.path? m.id = some p ∧ root.at? p = some m := by
    intro m hm
    cases hp : root.path? m.id with
    | none => exact absurd (id_mem_of_mem_nodes hm) (path?_eq_none.mp hp)
    | some p =>
      obtain ⟨k, hk, hid⟩ := at?_of_path? hp
      exact ⟨p, rfl, eq_of_id_eq hd (mem_nodes_of_at? hk) hm hid ▸ hk⟩
  obtain ⟨p, hp, hpa⟩ := hpath a ha
  obtain ⟨q, hq, hqb⟩ := hpath b hb
  -- a path that began the other would put one node below the other
  have hpq : p.isPrefixOf q = false := Bool.eq_false_iff.mpr fun h =>
    hab (id_mem_of_mem_nodes (mem_nodes_of_isPrefixOf hpa hqb h))
  have hqp : q.isPrefixOf p = false := Bool.eq_false_iff.mpr fun h =>
    hba (id_mem_of_mem_nodes (mem_nodes_of_isPrefixOf hqb hpa h))
  exact ⟨{ s with root := some (root.swapAt p q a b) },
    swap_eq_ok_iff.mpr ⟨root, p, q, a, b, hroot, hp, hq, ⟨⟨hpq, hqp⟩, hpa, hqb⟩, rfl⟩, rfl⟩

theorem move_of_goal {s : State α} {root node : Node α} {parent : Option NodeId} {atRoot : Bool}
    {goal : Goal} (hroot : s.root = some root) (hgoal : Goal.of parent atRoot = .ok goal)
    (hnode : root.find? node.id = some node) (hout : root.checkOutside node goal = .ok ())
    (hcheck : root.checkGoal goal = .ok ()) (i : Nat) :
    ∃ r, s.move parent atRoot i node = .ok r ∧ r.generation = s.generation := by
  -- the tree has the node under its identifier, so it moves as it is
  have hmoved : root.moved node goal = .ok node := by
    simp only [moved, hnode, hout, hcheck, ok_bind]
    rfl
  simp only [move, hgoal, hroot, moveWithin, hmoved, ok_bind]
  exact ⟨_, rfl, rfl⟩

/-- An action that fits the tree succeeds. -/
theorem perform_of_fits {s : State α} {root : Node α} {a : Action α} (hd : root.ids.Nodup)
    (hroot : s.root = some root) (h : root.Fits a) :
    ∃ r : State α, s.perform a = .ok r.settle ∧ r.generation = s.generation := by
  cases h with
  | swap ha hb _ _ _ hab hba =>
    obtain ⟨r, hr, hgen⟩ := swap_of_parts hd hroot ha hb hab hba
    exact ⟨r, congrArg (Except.map settle) hr, hgen⟩
  | @under node p i hnode hp hout =>
    have hgoal : Goal.of (some p.id) false = .ok (.under p.id) := rfl
    have hgoes : root.checkOutside node (.under p.id) = .ok () := by
      rw [checkOutside, if_neg (mt contains_iff.mp hout)]
    have hcheck : root.checkGoal (.under p.id) = .ok () := by
      rw [checkGoal, if_pos (contains_iff.mpr (id_mem_of_mem_nodes hp))]
    obtain ⟨r, hr, hgen⟩ := move_of_goal hroot hgoal (find?_of_mem_nodes hd hnode) hgoes hcheck i
    exact ⟨r, congrArg (Except.map settle) hr, hgen⟩
  | @besideRoot node i hnode hne =>
    have hgoal : Goal.of none true = .ok .besideRoot := rfl
    have hgoes : root.checkOutside node .besideRoot = .ok () := by rw [checkOutside, if_neg hne]
    obtain ⟨r, hr, hgen⟩ := move_of_goal hroot hgoal (find?_of_mem_nodes hd hnode) hgoes rfl i
    exact ⟨r, congrArg (Except.map settle) hr, hgen⟩

end State

/-- What is staged is a swap or a move within the tree, and it can be committed whatever happened
since it was staged. -/
theorem staged_commits (s : State α) (a : Action α) (hs : Reachable s) (hd : s.treeIds.Nodup)
    (ha : s.staged = some a) :
    ((∃ first second, a = .swap first second ∧ first ≠ second ∧ first ∈ s.treeIds ∧
        second ∈ s.treeIds) ∨
      ∃ parent atRoot i node, a = .move parent atRoot i node ∧
        (∃ root, s.root = some root ∧ node ∈ root.nodes) ∧
        ∀ p, parent = some p → p ∈ s.treeIds) ∧
    (s.step .commitStaged).2 = none ∧ (s.step .commitStaged).1.staged = none ∧
      (s.step .commitStaged).1.generation = s.generation + 1 := by
  obtain ⟨root, target, moved, zone, hroot, hdrop⟩ := hs.stagedFits a ha
  rw [State.treeIds_eq hroot] at hd ⊢
  have hfits := resolveDrop_fits hd hdrop
  refine ⟨?_, ?_⟩
  · cases hfits with
    | swap hin hin' hne =>
      exact .inl ⟨_, _, rfl, hne, id_mem_of_mem_nodes hin, id_mem_of_mem_nodes hin'⟩
    | under hnode hp hout =>
      refine .inr ⟨_, _, _, _, rfl, ⟨root, hroot, hnode⟩, fun q hq => ?_⟩
      exact Option.some.inj hq ▸ id_mem_of_mem_nodes hp
    | besideRoot hnode hne =>
      refine .inr ⟨_, _, _, _, rfl, ⟨root, hroot, hnode⟩, fun q hq => ?_⟩
      cases hq
  · have hperformed : s.performed .commitStaged = a := by rw [State.performed, ha, Option.getD_some]
    obtain ⟨r, hr, hgen⟩ := State.perform_of_fits (s := s.taken .commitStaged) hd hroot hfits
    rw [State.step_eq_attempt, hperformed, State.attempt, hr]
    exact ⟨rfl, rfl, congrArg (· + 1) hgen⟩

/-- Of two leaves side by side one is dropped onto the middle of the other. -/
theorem staged_swap_commits :
    ∃ s : State Unit, Reachable s ∧ s.treeIds.Nodup ∧ s.staged = some (.swap ⟨3⟩ ⟨2⟩) ∧
      (s.step .commitStaged).2 = none := by
  let pane (n : UInt64) : Node Unit := .leaf { id := ⟨n⟩ } ()
  -- the balanced tree with its two sizes named
  obtain ⟨u, v, hpair⟩ := prune?_pair (h := { id := ⟨1⟩ }) (a := pane 2) (b := pane 3) rfl rfl
  let first := State.ofRoot (.branch { id := ⟨1⟩ } [pane 2, pane 3])
  let s := first.call (.perform (.stageDrop ⟨3⟩ ⟨2⟩ .center))
  have hs : Reachable s := .call _ (.ofRoot _)
  have hroot := congrArg (Option.map fun n : Node Unit => n.orient n.orientation) hpair
  have hfirst : first = { first with root := _ } := congrArg (fun root => { first with root }) hroot
  have hstaged : s.staged = some (.swap ⟨3⟩ ⟨2⟩) ∧ s.treeIds = [⟨1⟩, ⟨2⟩, ⟨3⟩] := by
    show (first.call _).staged = _ ∧ (first.call _).treeIds = _
    rw [hfirst]
    exact ⟨rfl, rfl⟩
  have hd : s.treeIds.Nodup := by
    rw [hstaged.2]
    decide
  exact ⟨s, hs, hd, hstaged.1, (staged_commits s _ hs hd hstaged.1).2.1⟩

end Tiling
