import Tiling.Drag
import Tiling.Proofs.DropTarget
import Tiling.Proofs.Layout
import Mathlib.Data.List.Induction

/-!
# What a drag performs

Each zone that a drag comes to hover is sent to the tree as a drop, and the release commits what is
staged by then. The drag takes note of the new zone even where the tree rejects its drop, and the
rejected drop leaves the one before staged. So a release performs the drop of the last hover that
the tree answered, which is the hovered one if the hovered leaf lies outside the dragged node.
-/

namespace Tiling

variable {α : Type}

/-- A move of the pointer, with the bounds that the tree is laid out in at that time. -/
structure PointerMove where
  point : Point
  bounds : Rect

namespace State

def hoverAt (s : State α) (fractions : ZoneFractions) (node : NodeId) (m : PointerMove) :
    Option Hover :=
  Hover.find? (s.layout m.bounds) node m.point fractions

def dispatch (s : State α) (a : Option (Action α)) : State α :=
  a.elim s s.apply

def follow (fractions : ZoneFractions) : Drag × State α → PointerMove → Drag × State α
  | (drag, s), m =>
      let (drag, a) := drag.moveTo m.point (s.layout m.bounds) fractions
      (drag, s.dispatch a)

def dragged (s : State α) (fractions : ZoneFractions) (node : NodeId)
    (moves : List PointerMove) : State α :=
  let (drag, t) := moves.foldl (follow fractions) (.start node, s)
  t.dispatch drag.release.2

def answer (s : State α) (node : NodeId) (hover : Hover) :
    Except Rejection (Option (Action α)) := do
  (← s.rootOf).resolveDrop hover.target node hover.zone

def accepts (s : State α) (node : NodeId) (hover : Option Hover) : Bool :=
  -- Leaving all zones is never rejected.
  hover.all fun h => (s.answer node h).isOk

def wanted (s : State α) (node : NodeId) (hover : Option Hover) : Option (Action α) :=
  hover.bind fun h => (s.answer node h).toOption.join

def dropped (s : State α) (node : NodeId) (hover : Option Hover) : State α :=
  -- A drop that is suppressed or rejected and the absence of a hover leave the state as it is.
  s.dispatch (s.wanted node hover)

def lastHover (s : State α) (fractions : ZoneFractions) (node : NodeId)
    (moves : List PointerMove) : Option Hover :=
  (moves.map (s.hoverAt fractions node)).getLast?.join

def lastAccepted (s : State α) (fractions : ZoneFractions) (node : NodeId)
    (moves : List PointerMove) : Option Hover :=
  ((moves.map (s.hoverAt fractions node)).filter (s.accepts node)).getLast?.join

/-! ## 1. One move of the pointer -/

theorem lastHover_concat (s : State α) (fractions : ZoneFractions) (node : NodeId)
    (moves : List PointerMove) (m : PointerMove) :
    s.lastHover fractions node (moves ++ [m]) = s.hoverAt fractions node m := by
  simp [lastHover]

theorem lastAccepted_concat (s : State α) (fractions : ZoneFractions) (node : NodeId)
    (moves : List PointerMove) (m : PointerMove) :
    s.lastAccepted fractions node (moves ++ [m]) =
      if s.accepts node (s.hoverAt fractions node m) then s.hoverAt fractions node m
      else s.lastAccepted fractions node moves := by
  rw [lastAccepted, List.map_append, List.filter_append, List.map_singleton]
  by_cases h : s.accepts node (s.hoverAt fractions node m) <;> simp [lastAccepted, h]

/-- When the last hover is accepted, it is the one that counts. -/
theorem lastAccepted_eq_lastHover {s : State α} {fractions : ZoneFractions} {node : NodeId}
    {moves : List PointerMove} (h : s.accepts node (s.lastHover fractions node moves)) :
    s.lastAccepted fractions node moves = s.lastHover fractions node moves := by
  induction moves using List.reverseRecOn with
  | nil => rfl
  | append_singleton moves m =>
    rw [lastHover_concat] at h
    rw [lastAccepted_concat, if_pos h, lastHover_concat]

/-- To ask for a drop stages it if it is accepted, and leaves what is staged if it is not. -/
theorem apply_request (s : State α) (staged : Option (Action α)) (node : NodeId)
    (hover : Option Hover) :
    { s with staged }.apply (Drag.request node hover) =
      { s with staged := if s.accepts node hover then s.wanted node hover else staged } := by
  cases hover with
  | none => rfl
  | some h =>
    have hdrop : { s with staged }.stageDrop h.target node h.zone =
        (s.answer node h).map fun staged => { s with staged } := by
      show s.rootOf >>= _ = (s.rootOf >>= _).map _
      cases s.rootOf with
      | error r => rfl
      | ok root =>
        show root.resolveDrop h.target node h.zone >>= _ = Except.map _ _
        rw [ok_bind]
        cases root.resolveDrop h.target node h.zone <;> rfl
    show ({ s with staged }.attempt (.stageDrop h.target node h.zone)).1 = _
    rw [attempt, perform, hdrop, accepts, wanted, Option.all_some, Option.bind_some]
    cases s.answer node h <;> rfl

/-- A move of the pointer takes note of the zone it hovers. Where that is a new one and its drop is
accepted, the drop is staged. -/
theorem follow_dragging (s : State α) (staged : Option (Action α)) (fractions : ZoneFractions)
    (node : NodeId) (hover : Option Hover) (m : PointerMove) :
    follow fractions (.dragging node hover, { s with staged }) m =
      (.dragging node (s.hoverAt fractions node m),
        { s with staged :=
            if s.hoverAt fractions node m ≠ hover ∧ s.accepts node (s.hoverAt fractions node m) then
              s.wanted node (s.hoverAt fractions node m)
            else staged }) := by
  -- the layout does not depend on what is staged
  have hnext : Hover.find? ({ s with staged }.layout m.bounds) node m.point fractions =
      s.hoverAt fractions node m := rfl
  rw [follow, Drag.moveTo, hnext]
  by_cases heq : s.hoverAt fractions node m = hover
  · subst heq
    simp [dispatch]
  · simp only [heq, if_false, dispatch, Option.elim_some, apply_request, ne_eq, not_false_eq_true,
      true_and]

/-! ## 2. The whole drag -/

/-- All the while only the staged action differs from the state at the start. -/
theorem foldl_follow {s : State α} (hs : s.staged = none) (fractions : ZoneFractions)
    (node : NodeId) (moves : List PointerMove) :
    moves.foldl (follow fractions) (.start node, s) =
      (.dragging node (s.lastHover fractions node moves),
        { s with staged := s.wanted node (s.lastAccepted fractions node moves) }) := by
  induction moves using List.reverseRecOn with
  | nil =>
    show (Drag.start node, s) = (_, { s with staged := none })
    rw [← hs]
    rfl
  | append_singleton moves m ih =>
    rw [List.foldl_append, ih, lastHover_concat, lastAccepted_concat, List.foldl_cons,
      List.foldl_nil, follow_dragging]
    by_cases haccepts : s.accepts node (s.hoverAt fractions node m)
    · by_cases hsame : s.hoverAt fractions node m = s.lastHover fractions node moves
      · -- nothing is sent, and the hover that is kept was accepted when it was new
        rw [hsame] at haccepts ⊢
        simp [haccepts, lastAccepted_eq_lastHover haccepts]
      · simp [haccepts, hsame]
    · simp [haccepts]

theorem step_of_unstaged {s : State α} (hs : s.staged = none) (a : Action α) :
    s.step a = s.attempt a := by
  cases a with
  | commitStaged =>
    rw [step, hs]
    rfl
  | _ => rfl

/-- The release of a node over a zone performs what is staged. -/
theorem apply_commitStaged {s : State α} (hs : s.staged = none) (staged : Option (Action α)) :
    { s with staged }.apply .commitStaged = s.dispatch staged := by
  have htaken : { s with staged := none } = s := by
    rw [← hs]
  cases staged with
  | none =>
    rw [htaken]
    show (s.step .commitStaged).1 = s
    rw [step, hs]
  | some a =>
    show ({ s with staged := none }.attempt a).1 = (s.step a).1
    rw [htaken, step_of_unstaged hs]

/-- A whole drag is one drop of the last hover that was accepted, or nothing when the pointer ends
outside. -/
theorem dragged_eq {s : State α} (hs : s.staged = none) (fractions : ZoneFractions) (node : NodeId)
    (moves : List PointerMove) :
    s.dragged fractions node moves =
      if (s.lastHover fractions node moves).isNone then s
      else s.dropped node (s.lastAccepted fractions node moves) := by
  rw [dragged, foldl_follow hs]
  cases s.lastHover fractions node moves with
  | none =>
    show { s with staged := none } = s
    rw [← hs]
  | some hover => exact apply_commitStaged hs _

end State

/-! ## 3. What can be hovered -/

namespace State

/-- A zone that is hovered belongs to a leaf of the tree. -/
theorem exists_leaf_of_hoverAt {s : State α} {root : Node α} (hroot : s.root = some root)
    {fractions : ZoneFractions} {node : NodeId} {m : PointerMove} {hover : Hover}
    (h : s.hoverAt fractions node m = some hover) :
    ∃ t ∈ root.nodes, t.isLeaf ∧ t.id = hover.target := by
  obtain ⟨⟨target, rect⟩, hfind, h⟩ := Option.bind_eq_some_iff.mp h
  obtain ⟨zone, -, h⟩ := Option.bind_eq_some_iff.mp h
  cases h
  have hmem := List.mem_of_find?_eq_some hfind
  rw [layout, hroot] at hmem
  -- what is laid out is the root or the magnified node
  have hshown : (s.magnified.bind root.find?).getD root ∈ root.nodes := by
    cases hmag : s.magnified.bind root.find? with
    | none => exact Node.self_mem_nodes root
    | some n =>
      obtain ⟨id, -, hn⟩ := Option.bind_eq_some_iff.mp hmag
      exact Node.mem_nodes_of_find? hn
  simp only [Node.layout] at hmem
  split at hmem
  · obtain ⟨t, ht, hleaf⟩ := Node.exists_leaf_of_mem_arrange hmem
    exact ⟨t, Node.mem_nodes_trans ht hshown, hleaf⟩
  · cases hmem

/-- What the pointer hovers over is a leaf of the tree. -/
theorem exists_leaf_of_lastHover {s : State α} {root : Node α} (hroot : s.root = some root)
    {fractions : ZoneFractions} {node : NodeId} {moves : List PointerMove} {hover : Hover}
    (h : s.lastHover fractions node moves = some hover) :
    ∃ t ∈ root.nodes, t.isLeaf ∧ t.id = hover.target := by
  have hmem := List.mem_of_getLast? (Option.join_eq_some_iff.mp h)
  obtain ⟨m, -, hm⟩ := List.mem_map.mp hmem
  exact exists_leaf_of_hoverAt hroot hm

/-- A hovered leaf outside the dragged node accepts the drop. -/
theorem accepts_lastHover {s : State α} {root d : Node α} (hs : s.Settled)
    (hroot : s.root = some root) (hd : root.ids.Nodup) (hdn : d ∈ root.nodes)
    {fractions : ZoneFractions} {moves : List PointerMove}
    (hout : ∀ hover, s.lastHover fractions d.id moves = some hover → hover.target ∉ d.ids) :
    s.accepts d.id (s.lastHover fractions d.id moves) := by
  cases hlast : s.lastHover fractions d.id moves with
  | none => rfl
  | some hover =>
    obtain ⟨t, ht, hleaf, hid⟩ := exists_leaf_of_lastHover hroot hlast
    have hdrop : root.Droppable t d :=
      ⟨hs.normalForm root hroot, hd, ht, hleaf, hdn, hid ▸ hout hover hlast⟩
    have hanswer : s.answer d.id hover = root.resolveDrop t.id d.id hover.zone := by
      rw [answer, rootOf, hroot, hid]
      rfl
    rw [accepts, Option.all_some, hanswer]
    exact hdrop.resolveDrop_isOk hover.zone

end State

/-- A drag performs the drop of the last hover that the tree accepted, or nothing if it ends over no
zone. That is the drop of the last hover if the leaf hovered there lies outside the dragged node. -/
theorem drag_performs_last_accepted (s : State α) (hs : s.staged = none)
    (fractions : ZoneFractions) (node : NodeId) (moves : List PointerMove) :
    (s.dragged fractions node moves =
      if (s.lastHover fractions node moves).isNone then s
      else s.dropped node (s.lastAccepted fractions node moves)) ∧
    (Reachable s → s.treeIds.Nodup → ∀ root d, s.root = some root → root.find? node = some d →
      (∀ hover, s.lastHover fractions node moves = some hover → hover.target ∉ d.ids) →
      s.dragged fractions node moves = s.dropped node (s.lastHover fractions node moves)) := by
  refine ⟨State.dragged_eq hs fractions node moves, ?_⟩
  intro hreach hnodup root d hroot hd hout
  obtain rfl := Node.id_of_find? hd
  rw [State.treeIds_eq hroot] at hnodup
  have haccepts :=
    State.accepts_lastHover hreach.settled hroot hnodup (Node.mem_nodes_of_find? hd) hout
  rw [State.dragged_eq hs, State.lastAccepted_eq_lastHover haccepts]
  cases s.lastHover fractions d.id moves <;> rfl

/-- A container is dragged over one of its own leaves and then over the left side of another one. -/
theorem drag_ends_outside :
    ∃ (s : State Unit) (moves : List PointerMove), s.staged = none ∧
      s.lastHover {} ⟨3⟩ moves = some ⟨⟨2⟩, .left⟩ ∧
      s.dragged {} ⟨3⟩ moves = s.dropped ⟨3⟩ (some ⟨⟨2⟩, .left⟩) := by
  let pane (n : UInt64) : Node Unit := .leaf { id := ⟨n⟩ } ()
  let column : Node Unit := .branch { id := ⟨3⟩, orientation := .column } [pane 4, pane 5]
  let s := State.ofRoot (.branch { id := ⟨1⟩ } [pane 2, column])
  let bounds : Rect := ⟨0, 0, 200, 100⟩
  let moves : List PointerMove := [⟨⟨150, 25⟩, bounds⟩, ⟨⟨20, 50⟩, bounds⟩]
  have hlast : s.lastHover {} ⟨3⟩ moves = some ⟨⟨2⟩, .left⟩ := by decide +kernel
  have hd : s.treeIds.Nodup := by decide +kernel
  refine ⟨s, moves, rfl, hlast, ?_⟩
  rw [← hlast]
  have hids : (s.root.bind (Node.find? ⟨3⟩)).map Node.ids = some [⟨3⟩, ⟨4⟩, ⟨5⟩] := by
    decide +kernel
  obtain ⟨d, hfind, hids⟩ := Option.map_eq_some_iff.mp hids
  obtain ⟨root, hroot, hfind⟩ := Option.bind_eq_some_iff.mp hfind
  refine (drag_performs_last_accepted s rfl {} ⟨3⟩ moves).2 (.ofRoot _) hd root d hroot hfind ?_
  intro hover hhover
  rw [hlast] at hhover
  rw [← Option.some.inj hhover, hids]
  decide

/-- A drag over another leaf and then over a leaf of the dragged container itself does not perform
the drop of the last hover, which is rejected, but the one before. -/
theorem release_performs_stale_drop :
    ¬∀ (s : State Unit) (fractions : ZoneFractions) (node : NodeId) (moves : List PointerMove),
      Reachable s → s.treeIds.Nodup → s.ids.next.toNat < 2 ^ 63 → s.staged = none →
      node ∈ s.treeIds →
      s.dragged fractions node moves = s.dropped node (s.lastHover fractions node moves) := by
  intro h
  let pane (n : UInt64) : Node Unit := .leaf { id := ⟨n⟩ } ()
  let column : Node Unit := .branch { id := ⟨3⟩, orientation := .column } [pane 4, pane 5]
  let s := State.ofRoot (.branch { id := ⟨1⟩ } [pane 2, column])
  let bounds : Rect := ⟨0, 0, 200, 100⟩
  let moves : List PointerMove := [⟨⟨20, 50⟩, bounds⟩, ⟨⟨150, 25⟩, bounds⟩]
  have hsame := h s {} ⟨3⟩ moves (.ofRoot _) (by decide +kernel) (by decide +kernel) rfl
    (by decide +kernel)
  -- the stale drop was performed, so the tree has changed
  have hchanged : (s.dragged {} ⟨3⟩ moves).generation = 1 := by decide +kernel
  have hkept : (s.dropped ⟨3⟩ (s.lastHover {} ⟨3⟩ moves)).generation = 0 := by decide +kernel
  rw [hsame, hkept] at hchanged
  cases hchanged

end Tiling
