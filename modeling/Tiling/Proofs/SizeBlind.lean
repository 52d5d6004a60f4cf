import Tiling.Proofs.Sizeless

/-!
# Runs that differ in sizes alone

An action is accepted or rejected whatever the sizes in the tree are, and of the sizes that it
brings itself it matters only whether they can stand. Two runs that differ in sizes alone go the
same way and differ in sizes alone after every step.
-/

namespace Tiling

variable {α : Type}

/-! ## 1. Actions and states without sizes -/

def Resize.sizeless (r : Resize) : Resize :=
  -- A share that can stand and one that cannot stay apart.
  { r with size := if Share.usable r.size then Share.whole else 0.0 }

def Rejection.sizeless : Rejection → Rejection
  | .unusableSize id _ => .unusableSize id 0.0
  | r => r

namespace Action

def sizelessMove : Action α → Action α
  | .move parent atRoot i node => .move parent atRoot i node.sizeless
  | a => a

/-- The action without the sizes of what it carries. -/
def sizeless : Action α → Action α
  | .insert node magnified focused => .insert node.sizeless magnified focused
  | .resize shares => .resize (shares.map Resize.sizeless)
  | a => a.sizelessMove

end Action

namespace State

/-- The state without the sizes of its nodes, those of a staged move among them. -/
def sizeless (s : State α) : State α :=
  { s with
    root := s.root.map Node.sizeless
    leaves := s.leaves.map Node.sizeless
    staged := s.staged.map Action.sizelessMove }

def outcome : Except Rejection (State α) → Except Rejection (State α)
  | .ok s => .ok s.sizeless
  | .error r => .error r.sizeless

end State

theorem Resize.usable_sizeless (r : Resize) :
    Share.usable r.sizeless.size = Share.usable r.size := by
  have hwhole : Share.usable Share.whole = true := by decide +kernel
  have hzero : Share.usable 0.0 = false := by decide +kernel
  rw [sizeless]
  cases Share.usable r.size <;> simp [hwhole, hzero]

theorem Resize.sizeless_sizeless (r : Resize) : r.sizeless.sizeless = r.sizeless := by
  have h := r.usable_sizeless
  rw [sizeless, h]
  rfl

namespace Action

theorem sizelessMove_sizelessMove (a : Action α) :
    a.sizelessMove.sizelessMove = a.sizelessMove := by
  cases a <;> simp [sizelessMove]

theorem sizeless_sizelessMove (a : Action α) : a.sizelessMove.sizeless = a.sizeless := by
  cases a <;> simp [sizelessMove, sizeless]

theorem sizeless_sizeless (a : Action α) : a.sizeless.sizeless = a.sizeless := by
  cases a <;> simp [sizelessMove, sizeless, Resize.sizeless_sizeless]

end Action

theorem State.sizeless_sizeless (s : State α) : s.sizeless.sizeless = s.sizeless := by
  simp only [sizeless, Option.map_map, List.map_map]
  simp [Function.comp_def, Action.sizelessMove_sizelessMove]

/-! ## 2. Moves and drops -/

namespace Node

theorem checkFresh_sizeless (root node : Node α) :
    root.sizeless.checkFresh node.sizeless = root.checkFresh node := by
  simp only [checkFresh, ids_sizeless, funext (contains_sizeless root)]

theorem checkOutside_sizeless (root node : Node α) (goal : Goal) :
    root.sizeless.checkOutside node.sizeless goal = root.checkOutside node goal := by
  cases goal <;> simp [checkOutside]

theorem checkGoal_sizeless (root : Node α) (goal : Goal) :
    root.sizeless.checkGoal goal = root.checkGoal goal := by
  cases goal <;> simp [checkGoal]

/-- What a move carries is found without looking at sizes. -/
theorem moved_sizeless (root node : Node α) (goal : Goal) :
    root.sizeless.moved node.sizeless goal = (root.moved node goal).map sizeless := by
  rw [moved, moved, find?_sizeless, id_sizeless]
  cases root.find? node.id with
  | none =>
    simp only [Option.map_none, checkFresh_sizeless, checkGoal_sizeless]
    cases root.checkFresh node <;> cases root.checkGoal goal <;> rfl
  | some current =>
    simp only [Option.map_some, checkOutside_sizeless, checkGoal_sizeless]
    cases root.checkOutside current goal <;> cases root.checkGoal goal <;> rfl

theorem staleStart_sizeless (root : Node α) (id : NodeId) (oldParent : Option NodeId) (goal : Goal)
    (i : Nat) :
    root.sizeless.staleStart id oldParent goal i = root.staleStart id oldParent goal i := by
  have hindex : (oldParent.bind root.sizeless.find?).bind (·.childIndex? id) =
      (oldParent.bind root.find?).bind (·.childIndex? id) := by
    cases oldParent with
    | none => rfl
    | some parent =>
      simp only [Option.bind_some, find?_sizeless]
      cases root.find? parent <;> simp
  rw [staleStart, hindex, staleStart]

/-- An edit of one node whose effect up to sizes is `k`. -/
theorem sizeless_getD_update? {g k : Node α → Node α}
    (hg : Function.Semiconj sizeless g k) (id : NodeId) (n : Node α) :
    ((n.update? id g).getD n).sizeless = (n.sizeless.update? id k).getD n.sizeless := by
  have hupdate : (n.update? id g).map sizeless = n.sizeless.update? id k :=
    update?_mapHeaders id_header_sizeless hg id n
  rw [← hupdate]
  cases n.update? id g <;> rfl

/-- Placing a child is blind to sizes. -/
theorem place_sizeless (root child : Node α) (goal : Goal) (i : Nat) (ids : IdSupply) :
    (root.place goal i child ids).1.sizeless =
        (root.sizeless.place goal i child.sizeless ids).1.sizeless ∧
      (root.place goal i child ids).2 = (root.sizeless.place goal i child.sizeless ids).2 := by
  cases goal with
  | besideRoot =>
    simp only [place, IdSupply.mint, orientation_sizeless]
    have hleft := sizeless_adopt (root.wrap ids.peek root.orientation.reverse) i child ids.advance
    have hright := sizeless_adopt (root.sizeless.wrap ids.peek root.orientation.reverse) i
      child.sizeless ids.advance
    rw [← sizeless_wrap, sizeless_sizeless] at hright
    exact ⟨hleft.1.trans hright.1.symm, hleft.2.trans hright.2.symm⟩
  | under parent =>
    simp only [place, find?_sizeless]
    cases hk : root.find? parent with
    | none => simp
    | some target =>
      have hadopt := sizeless_adopt target i child ids
      simp only [Option.map_some]
      refine ⟨?_, hadopt.2⟩
      have hleft := sizeless_getD_update? (g := fun _ => (target.adopt i child ids).1)
        (k := fun _ => (target.adopt i child ids).1.sizeless) (fun _ => rfl) parent root
      have hright := sizeless_getD_update?
        (g := fun _ => (target.sizeless.adopt i child.sizeless ids).1)
        (k := fun _ => (target.adopt i child ids).1.sizeless) (fun _ => hadopt.1.symm) parent
        root.sizeless
      rw [sizeless_sizeless] at hright
      exact hleft.trans hright.symm

theorem dropStale_sizeless (root : Node α) (id : NodeId) (oldParent : Option NodeId) (start : Nat) :
    (root.dropStale id oldParent start).sizeless = root.sizeless.dropStale id oldParent start := by
  cases oldParent with
  | none => rfl
  | some parent =>
    exact sizeless_getD_update? (fun n => sizeless_dropChild n id start) parent root

theorem resized_sizeless (root : Node α) (r : Resize) :
    (root.resized r).sizeless = (root.sizeless.resized r.sizeless).sizeless := by
  have hleft := sizeless_getD_update? (k := fun n => n) (fun n => sizeless_withSize n r.size)
    r.node root
  have hright := sizeless_getD_update? (k := fun n => n)
    (fun n => sizeless_withSize n r.sizeless.size) r.node root.sizeless
  rw [sizeless_sizeless] at hright
  exact hleft.trans hright.symm

theorem resized_congr {m n : Node α} (h : m.sizeless = n.sizeless) (r : Resize) :
    (m.resized r).sizeless = (n.resized r.sizeless).sizeless := by
  have hn := resized_sizeless n r.sizeless
  rw [Resize.sizeless_sizeless] at hn
  rw [resized_sizeless, h, hn]

/-- Trees alike up to sizes stay so under any resizing. -/
theorem foldl_resized_congr (shares : List Resize) {m n : Node α} (h : m.sizeless = n.sizeless) :
    (shares.foldl resized m).sizeless =
      ((shares.map Resize.sizeless).foldl resized n).sizeless := by
  induction shares generalizing m n with
  | nil => exact h
  | cons r shares ih => exact ih (resized_congr h r)

/-- A resizing is rejected for the same reason, but for the size it names. -/
theorem checkResize_sizeless (root : Node α) (r : Resize) :
    (root.sizeless.checkResize r.sizeless).mapError Rejection.sizeless =
      (root.checkResize r).mapError Rejection.sizeless := by
  have hnode : r.sizeless.node = r.node := rfl
  rw [checkResize, checkResize, r.usable_sizeless, contains_sizeless, hnode]
  cases Share.usable r.size <;> cases root.contains r.node <;> rfl

/-- Each place keeps its share, and takes the other node in whatever its sizes. -/
theorem swapAt_sizeless (root a b : Node α) (p q : Path) :
    (root.swapAt p q a b).sizeless = (root.sizeless.swapAt p q a.sizeless b.sizeless).sizeless := by
  simp only [swapAt, sizeless, ← setAt_mapHeaders]
  simp only [← sizeless.eq_def, sizeless_orient, sizeless_withSize, sizeless_sizeless,
    orientation_sizeless]

end Node

/-! ## 3. Drops -/

namespace Placement

theorem besideParent?_sizeless (root target : Node α) (offset : Nat) :
    besideParent? root.sizeless target.sizeless offset = besideParent? root target offset := by
  simp only [besideParent?, Node.parent?_sizeless, Node.id_sizeless]
  cases root.parent? target.id with
  | none => rfl
  | some parent =>
    simp only [Option.map_some, Option.bind_eq_bind, Option.bind_some, Node.id_sizeless]
    cases root.parent? parent.id with
    | none => rfl
    | some grandparent => simp

theorem beside?_sizeless (root target : Node α) (offset : Nat) :
    beside? root.sizeless target.sizeless offset = beside? root target offset := by
  simp only [beside?, Node.parent?_sizeless, Node.id_sizeless]
  cases root.parent? target.id <;> simp

/-- Where a drop leads is read off the tree without its sizes. -/
theorem ofDrop?_sizeless (root target : Node α) (axis : Orientation) (zone : DropZone) :
    ofDrop? root.sizeless target.sizeless axis zone = ofDrop? root target axis zone := by
  simp only [ofDrop?, Node.orientation_sizeless, Node.id_sizeless, besideParent?_sizeless,
    beside?_sizeless]

theorem keeps_sizeless (p : Placement) (root : Node α) (moved : NodeId) :
    p.keeps root.sizeless moved = p.keeps root moved := by
  simp only [keeps, Node.parent?_sizeless]
  cases root.parent? moved <;> simp

end Placement

namespace Node

theorem resolveSwap_sizeless (root target moved : Node α) :
    root.sizeless.resolveSwap target.sizeless moved.sizeless = root.resolveSwap target moved := by
  simp only [resolveSwap, id_sizeless, contains_sizeless]

theorem resolveSwap_eq_swap {root target moved : Node α} {a : Action α}
    (h : root.resolveSwap target moved = .ok a) : a = .swap target.id moved.id := by
  rw [resolveSwap] at h
  split at h
  · cases h
  split at h
  · cases h
  · exact (Except.ok.inj h).symm

/-- A drop onto a tree without sizes asks for the same, with the moved node without its sizes. -/
theorem resolveDrop_sizeless (root : Node α) (target moved : NodeId) (zone : DropZone) :
    root.sizeless.resolveDrop target moved zone =
      (root.resolveDrop target moved zone).map (Option.map Action.sizelessMove) := by
  simp only [resolveDrop, find?_sizeless]
  split
  · rfl
  cases root.find? target with
  | none => rfl
  | some targetNode =>
    cases root.find? moved with
    | none => rfl
    | some movedNode =>
      simp only [Option.map_some, contains_sizeless, resolveSwap_sizeless,
        Placement.ofDrop?_sizeless]
      split
      · rfl
      cases zone.axis? with
      | none =>
        cases hswap : root.resolveSwap targetNode movedNode with
        | error r => rfl
        | ok a =>
          rw [resolveSwap_eq_swap hswap]
          rfl
      | some axis =>
        simp only [Placement.keeps_sizeless]
        cases Placement.ofDrop? root targetNode axis zone with
        | none => rfl
        | some place =>
          cases h : place.keeps root moved <;> simp [h, Except.map, Action.sizelessMove]

end Node

/-! ## 4. Actions -/

namespace State

theorem leavesOf_sizeless (root : Option (Node α)) :
    leavesOf (root.map Node.sizeless) = (leavesOf root).map Node.sizeless := by
  cases root with
  | none => rfl
  | some n => exact Node.leaves_sizeless n

/-- Settling is blind to sizes. -/
theorem settle_sizeless (s : State α) : s.sizeless.settle.sizeless = s.settle.sizeless := by
  have hroot : (s.sizeless.root.bind Node.balance?).map Node.sizeless =
      (s.root.bind Node.balance?).map Node.sizeless := by
    rw [sizeless]
    cases s.root with
    | none => rfl
    | some n => exact Node.balance?_sizeless n
  have hleaves := congrArg leavesOf hroot
  rw [leavesOf_sizeless, leavesOf_sizeless] at hleaves
  -- the marks ask for nothing but identifiers
  have halive : ∀ (r : Option (Node α)) (id : NodeId),
      (r.map Node.sizeless).any (·.contains id) = r.any (·.contains id) := by
    rintro (_ | n) id
    · rfl
    · exact Node.contains_sizeless n id
  have hhead : ∀ ls : List (Node α),
      (ls.map Node.sizeless).head?.map Node.id = ls.head?.map Node.id := by
    rintro (_ | ⟨n, ls⟩)
    · rfl
    · exact congrArg some (Node.id_sizeless n)
  have hsettle : ∀ t : State α, t.settle.sizeless = { t with
      root := (t.root.bind Node.balance?).map Node.sizeless
      leaves := (leavesOf (t.root.bind Node.balance?)).map Node.sizeless
      staged := none
      focused := t.focused.bind fun id =>
        if ((t.root.bind Node.balance?).map Node.sizeless).any (·.contains id) then some id
        else ((leavesOf (t.root.bind Node.balance?)).map Node.sizeless).head?.map Node.id
      magnified := t.magnified.filter fun id =>
        ((t.root.bind Node.balance?).map Node.sizeless).any (·.contains id)
      generation := t.generation + 1 } := by
    intro t
    simp only [halive, hhead]
    rfl
  rw [hsettle, hsettle, hroot, hleaves]
  rfl

/-- A new tree, up to sizes, in the state without its sizes. -/
theorem withRoot_sizeless (s : State α) {m n : Node α} (h : m.sizeless = n.sizeless)
    (ids : IdSupply) :
    { s.sizeless with root := some m, ids : State α }.sizeless =
      { s with root := some n, ids : State α }.sizeless := by
  have hsame := s.sizeless_sizeless
  simp only [sizeless, mk.injEq] at hsame
  simp [sizeless, h, hsame]

/-- What is done with the tree of a state may be done with the tree without its sizes. -/
theorem rootOf_bind_sizeless (s : State α) {f g : Node α → Except Rejection (State α)}
    (h : ∀ root, outcome (g root.sizeless) = outcome (f root)) :
    outcome (s.sizeless.rootOf >>= g) = outcome (s.rootOf >>= f) := by
  have hroot : s.sizeless.rootOf = s.rootOf.map Node.sizeless := by
    rw [rootOf, rootOf]
    cases hs : s.root <;> simp [sizeless, hs] <;> rfl
  rw [hroot]
  cases s.rootOf with
  | error r => rfl
  | ok root => exact h root

theorem stageDrop_sizeless (s : State α) (target moved : NodeId) (zone : DropZone) :
    outcome (s.sizeless.stageDrop target moved zone) = outcome (s.stageDrop target moved zone) := by
  refine s.rootOf_bind_sizeless fun root => ?_
  rw [Node.resolveDrop_sizeless]
  cases root.resolveDrop target moved zone with
  | error r => rfl
  | ok staged =>
    have hsame := s.sizeless_sizeless
    simp only [sizeless, mk.injEq] at hsame
    simp [Except.map, ok_bind, pure, Except.pure, outcome, sizeless, hsame, Function.comp_def,
      Action.sizelessMove_sizelessMove]

theorem plant_sizeless (s : State α) (node : Node α) :
    (s.sizeless.plant node.sizeless).sizeless = (s.plant node).sizeless := by
  rw [plant, plant, Node.ids_sizeless]
  exact s.withRoot_sizeless (Node.sizeless_sizeless node) _

theorem moveWithin_sizeless (s : State α) (root : Node α) (goal : Goal) (i : Nat) (node : Node α) :
    outcome (s.sizeless.moveWithin root.sizeless goal i node.sizeless) =
      outcome (s.moveWithin root goal i node) := by
  rw [moveWithin, moveWithin, Node.moved_sizeless]
  cases root.moved node goal with
  | error r => rfl
  | ok child =>
    have hplace := root.place_sizeless child goal i (s.ids.reserveAll child.ids)
    have hparent : (root.sizeless.parent? node.id).map Node.id =
        (root.parent? node.id).map Node.id := by
      rw [Node.parent?_sizeless, Option.map_map]
      exact congrArg (Option.map · _) (funext Node.id_sizeless)
    have hids : s.sizeless.ids = s.ids := rfl
    simp only [Except.map, ok_bind, Node.ids_sizeless, Node.id_sizeless, hparent,
      Node.staleStart_sizeless, hids, ← hplace.2]
    refine congrArg Except.ok (s.withRoot_sizeless ?_ _)
    rw [Node.dropStale_sizeless, ← hplace.1, ← Node.dropStale_sizeless]

theorem move_sizeless (s : State α) (parent : Option NodeId) (atRoot : Bool) (i : Nat)
    (node : Node α) :
    outcome (s.sizeless.move parent atRoot i node.sizeless) =
      outcome (s.move parent atRoot i node) := by
  rw [move, move]
  cases Goal.of parent atRoot with
  | error r => rfl
  | ok goal =>
    rw [ok_bind, ok_bind]
    cases hs : s.root with
    | none =>
      have hroot : s.sizeless.root = none := by rw [sizeless, hs, Option.map_none]
      rw [hroot]
      cases goal with
      | besideRoot => exact congrArg Except.ok (s.plant_sizeless node)
      | under parent => rfl
    | some root =>
      have hroot : s.sizeless.root = some root.sizeless := by rw [sizeless, hs, Option.map_some]
      rw [hroot]
      exact s.moveWithin_sizeless root goal i node

theorem insertInto_sizeless (s : State α) (root node : Node α) :
    outcome (s.sizeless.insertInto root.sizeless node.sizeless) =
      outcome (s.insertInto root node) := by
  rw [insertInto, insertInto, Node.checkFresh_sizeless]
  cases root.checkFresh node with
  | error r => rfl
  | ok _ =>
    have hconfig : s.sizeless.config = s.config := rfl
    rw [ok_bind, ok_bind, hconfig, Node.slot?_sizeless, Node.id_sizeless, Node.ids_sizeless]
    cases root.slot? s.config.maxChildren with
    | none => rfl
    | some slot =>
      have hplace := root.place_sizeless node (.under slot.node) slot.index
        (s.ids.reserveAll node.ids)
      have hids : s.sizeless.ids = s.ids := rfl
      simp only [hids, ← hplace.2]
      refine congrArg Except.ok (s.withRoot_sizeless ?_ _)
      exact hplace.1.symm

/-- A computation in two stages is blind to sizes when both stages are. -/
theorem outcome_bind {f g : State α → Except Rejection (State α)}
    (hfg : ∀ s t, s.sizeless = t.sizeless → outcome (f s) = outcome (g t))
    {x y : Except Rejection (State α)} (h : outcome x = outcome y) :
    outcome (x >>= f) = outcome (y >>= g) := by
  cases x <;> cases y <;>
    simp only [outcome, reduceCtorEq, Except.error.injEq, Except.ok.injEq] at h
  · exact congrArg Except.error h
  · exact hfg _ _ h

theorem insert_sizeless (s : State α) (node : Node α) (magnified focused : Bool) :
    outcome (s.sizeless.insert node.sizeless magnified focused) =
      outcome (s.insert node magnified focused) := by
  rw [insert, insert, Node.firstLeafId?_sizeless, Node.id_sizeless]
  have hmarks : ∀ (t u : State α) (id : NodeId), t.sizeless = u.sizeless →
      ({ t with
        focused := if focused then some id else t.focused
        magnified := if magnified then some id else t.magnified } : State α).sizeless =
      ({ u with
        focused := if focused then some id else u.focused
        magnified := if magnified then some id else u.magnified } : State α).sizeless := by
    intro t u id h
    simp only [sizeless, mk.injEq] at h
    simp [sizeless, h]
  cases hs : s.root with
  | none =>
    have hroot : s.sizeless.root = none := by rw [sizeless, hs, Option.map_none]
    rw [hroot]
    exact congrArg Except.ok (hmarks _ _ _ (s.plant_sizeless node))
  | some root =>
    have hroot : s.sizeless.root = some root.sizeless := by rw [sizeless, hs, Option.map_some]
    rw [hroot]
    refine outcome_bind (fun t u h => ?_) (s.insertInto_sizeless root node)
    exact congrArg Except.ok (hmarks t u _ h)

theorem delete_sizeless (s : State α) (id : NodeId) :
    outcome (s.sizeless.delete id) = outcome (s.delete id) := by
  refine s.rootOf_bind_sizeless fun root => ?_
  have hparent : (root.updateParent? id fun parent => parent.dropChild id 0).map Node.sizeless =
      root.sizeless.updateParent? id fun parent => parent.dropChild id 0 :=
    Node.updateParent?_mapHeaders Node.id_header_sizeless
      (g := fun parent => parent.dropChild id 0) (k := fun parent => parent.dropChild id 0)
      (fun parent => Node.sizeless_dropChild parent id 0) id root
  rw [Node.id_sizeless, ← hparent]
  split
  · have hsame := s.sizeless_sizeless
    simp only [sizeless, mk.injEq] at hsame
    simp [pure, Except.pure, outcome, sizeless, hsame]
  · cases root.updateParent? id fun parent => parent.dropChild id 0 with
    | none => rfl
    | some tree => exact congrArg Except.ok (s.withRoot_sizeless (Node.sizeless_sizeless tree) _)

theorem swap_sizeless (s : State α) (first second : NodeId) :
    outcome (s.sizeless.swap first second) = outcome (s.swap first second) := by
  refine s.rootOf_bind_sizeless fun root => ?_
  simp only [Node.id_sizeless, Node.path?_sizeless]
  split
  · rfl
  split
  · rfl
  cases root.path? first with
  | none => rfl
  | some p =>
    cases root.path? second with
    | none => rfl
    | some q =>
      simp only
      split
      · rfl
      split
      · rfl
      have hpair : root.sizeless.pairAt p q =
          (root.pairAt p q).map (Option.map (Prod.map Node.sizeless Node.sizeless)) :=
        root.pairAt_mapHeaders p q
      rw [hpair]
      rcases root.pairAt p q with _ | _ | ⟨a, b⟩
      · rfl
      · rfl
      · exact congrArg Except.ok (s.withRoot_sizeless (Node.swapAt_sizeless root a b p q).symm _)

theorem checkResizes_sizeless (root : Node α) (shares : List Resize) :
    ((shares.map Resize.sizeless).forM root.sizeless.checkResize).mapError Rejection.sizeless =
      (shares.forM root.checkResize).mapError Rejection.sizeless := by
  induction shares with
  | nil => rfl
  | cons r shares ih =>
    have hr := Node.checkResize_sizeless root r
    show (root.sizeless.checkResize r.sizeless >>= fun _ => _).mapError _ =
      (root.checkResize r >>= fun _ => _).mapError _
    cases hx : root.sizeless.checkResize r.sizeless <;> cases hy : root.checkResize r <;>
      rw [hx, hy] at hr
    · exact hr
    · cases hr
    · cases hr
    · exact ih

theorem resize_sizeless (s : State α) (shares : List Resize) :
    outcome (s.sizeless.resize (shares.map Resize.sizeless)) = outcome (s.resize shares) := by
  refine s.rootOf_bind_sizeless fun root => ?_
  have hchecks := checkResizes_sizeless root shares
  cases hx : (shares.map Resize.sizeless).forM root.sizeless.checkResize <;>
    cases hy : shares.forM root.checkResize <;> rw [hx, hy] at hchecks
  · exact congrArg Except.error (Except.error.inj hchecks)
  · cases hchecks
  · cases hchecks
  · refine congrArg Except.ok (s.withRoot_sizeless ?_ _)
    exact (Node.foldl_resized_congr shares (Node.sizeless_sizeless root).symm).symm

/-- New marks in the state without its sizes. -/
theorem withMarks_sizeless (s : State α) (focused magnified : Option NodeId)
    (generation : UInt64) :
    ({ s.sizeless with focused, magnified, generation } : State α).sizeless =
      ({ s with focused, magnified, generation } : State α).sizeless := by
  have hsame := s.sizeless_sizeless
  simp only [sizeless, mk.injEq] at hsame
  simp [sizeless, hsame]

theorem focus_sizeless (s : State α) (id : NodeId) :
    outcome (s.sizeless.focus id) = outcome (s.focus id) := by
  refine s.rootOf_bind_sizeless fun root => ?_
  have hfocused : s.sizeless.focused = s.focused := rfl
  rw [Node.contains_sizeless, hfocused]
  split
  · rfl
  split
  · exact congrArg Except.ok s.sizeless_sizeless
  · exact congrArg Except.ok (s.withMarks_sizeless _ _ _)

theorem toggleMagnified_sizeless (s : State α) (id : NodeId) :
    outcome (s.sizeless.toggleMagnified id) = outcome (s.toggleMagnified id) := by
  refine s.rootOf_bind_sizeless fun root => ?_
  have hmagnified : s.sizeless.magnified = s.magnified := rfl
  rw [Node.contains_sizeless, hmagnified]
  split
  · rfl
  split
  · exact congrArg Except.ok (s.withMarks_sizeless _ _ _)
  · exact congrArg Except.ok (s.withMarks_sizeless _ _ _)

/-- Every action is blind to sizes. -/
theorem perform_sizeless (s : State α) (a : Action α) :
    outcome (s.sizeless.perform a.sizeless) = outcome (s.perform a) := by
  have hsettle : ∀ {x y : Except Rejection (State α)}, outcome x = outcome y →
      outcome (x.map settle) = outcome (y.map settle) := by
    intro x y h
    refine outcome_bind (f := (.ok ·.settle)) (g := (.ok ·.settle)) (fun t u htu => ?_) h
    refine congrArg Except.ok ?_
    rw [← settle_sizeless, htu, settle_sizeless]
  cases a with
  | stageDrop target moved zone => exact s.stageDrop_sizeless target moved zone
  | clearStaged =>
    have hsame := { s with staged := none : State α }.sizeless_sizeless
    exact congrArg Except.ok hsame
  | commitStaged => rfl
  | move parent atRoot i node => exact hsettle (s.move_sizeless parent atRoot i node)
  | insert node magnified focused => exact hsettle (s.insert_sizeless node magnified focused)
  | delete id => exact hsettle (s.delete_sizeless id)
  | swap first second => exact hsettle (s.swap_sizeless first second)
  | focus id => exact s.focus_sizeless id
  | toggleMagnified id => exact s.toggleMagnified_sizeless id
  | resize shares => exact hsettle (s.resize_sizeless shares)

/-! ## 5. Runs -/

def sizelessStep : State α × Option Rejection → State α × Option Rejection :=
  Prod.map sizeless (Option.map Rejection.sizeless)

theorem attempt_alike {s t : State α} {a b : Action α} (hs : s.sizeless = t.sizeless)
    (ha : a.sizeless = b.sizeless) : sizelessStep (s.attempt a) = sizelessStep (t.attempt b) := by
  have hperform : outcome (s.perform a) = outcome (t.perform b) := by
    rw [← perform_sizeless, hs, ha, perform_sizeless]
  rw [attempt, attempt]
  cases hx : s.perform a <;> cases hy : t.perform b <;> rw [hx, hy] at hperform
  · exact congrArg₂ Prod.mk hs (congrArg some (Except.error.inj hperform))
  · cases hperform
  · cases hperform
  · exact congrArg₂ Prod.mk (Except.ok.inj hperform) rfl

theorem taken_sizeless (s : State α) (a : Action α) :
    (s.taken a).sizeless = s.sizeless.taken a.sizeless := by
  cases a <;> rfl

theorem performed_sizeless (s : State α) (a : Action α) :
    (s.performed a).sizeless = (s.sizeless.performed a.sizeless).sizeless := by
  cases a with
  | commitStaged =>
    show (s.staged.getD .commitStaged).sizeless =
      ((s.staged.map Action.sizelessMove).getD .commitStaged).sizeless
    cases s.staged with
    | none => rfl
    | some b => exact b.sizeless_sizelessMove.symm
  | _ => exact (Action.sizeless_sizeless _).symm

/-- States alike up to sizes take steps alike up to sizes. -/
theorem step_alike {s t : State α} {a b : Action α} (hs : s.sizeless = t.sizeless)
    (ha : a.sizeless = b.sizeless) : sizelessStep (s.step a) = sizelessStep (t.step b) := by
  have htaken : (s.taken a).sizeless = (t.taken b).sizeless := by
    rw [taken_sizeless, taken_sizeless, hs, ha]
  have hperformed : (s.performed a).sizeless = (t.performed b).sizeless := by
    rw [performed_sizeless, hs, ha, ← performed_sizeless]
  rw [step_eq_attempt, step_eq_attempt]
  exact attempt_alike htaken hperformed

/-- Two runs that differ in sizes alone accept and reject the same actions for the same reasons, and
differ in sizes alone after each of them. -/
theorem sizes_never_influence_structure {s t : State α} (hs : s.sizeless = t.sizeless)
    {as bs : List (Action α)} (hab : as.map Action.sizeless = bs.map Action.sizeless) :
    (s.trace as).map sizelessStep = (t.trace bs).map sizelessStep := by
  induction as generalizing s t bs with
  | nil =>
    rw [List.map_nil, eq_comm, List.map_eq_nil_iff] at hab
    rw [hab]
    rfl
  | cons a as ih =>
    obtain ⟨b, bs, rfl, hb, hbs⟩ := List.map_eq_cons_iff.mp hab.symm
    have hstep := step_alike hs hb.symm
    have hnext : (s.step a).1.sizeless = (t.step b).1.sizeless := congrArg Prod.fst hstep
    rw [trace, trace, List.map_cons, List.map_cons, hstep, ih hnext hbs.symm]

/-- A pane is given a share and goes to the other end of the row, and then the other pane is given a
share that cannot stand. In the second run no pane has a sound share to begin with. -/
theorem unsound_sizes_run_alike :
    ∃ (s t : State Unit) (as bs : List (Action Unit)),
      s.leaves.map (Share.usable ·.size) = [true, true] ∧
      t.leaves.map (Share.usable ·.size) = [false, false] ∧
      (s.trace as).map sizelessStep = (t.trace bs).map sizelessStep ∧
      (t.trace bs).map (fun after => after.2.map Rejection.sizeless) =
        [none, none, none, some (.unusableSize ⟨3⟩ 0.0)] := by
  let pane (n : UInt64) (size : Float32) : Node Unit := .leaf { id := ⟨n⟩, size } ()
  let row (x y : Float32) : State Unit :=
    { root := some (.branch { id := ⟨1⟩ } [pane 2 x, pane 3 y]), leaves := [pane 2 x, pane 3 y] }
  let run (x y : Float32) : List (Action Unit) :=
    [.resize [⟨⟨2⟩, x⟩], .stageDrop ⟨3⟩ ⟨2⟩ .right, .commitStaged, .resize [⟨⟨3⟩, y⟩]]
  have hstates : (row 50 50).sizeless = (row (0 / 0) (1 / 0)).sizeless := by
    simp only [row, pane, sizeless, Option.map, List.map, Node.sizeless_leaf, Node.sizeless_branch,
      Header.sizeless]
  have hactions : (run 30 0).map Action.sizeless = (run 1e-40 (-5)).map Action.sizeless := by
    have hsound : Share.usable 30 = true ∧ Share.usable 1e-40 = true := by decide +kernel
    have hunsound : Share.usable 0 = false ∧ Share.usable (-5) = false := by decide +kernel
    simp [run, Action.sizeless, Resize.sizeless, hsound, hunsound]
  have halike := sizes_never_influence_structure hstates hactions
  have hverdicts : ((row 50 50).trace (run 30 0)).map
      (fun after => after.2.map Rejection.sizeless) =
      [none, none, none, some (.unusableSize ⟨3⟩ 0.0)] := by decide +kernel
  refine ⟨_, _, _, _, by decide +kernel, by decide +kernel, halike, ?_⟩
  have hafter := congrArg (List.map Prod.snd) halike
  rw [List.map_map, List.map_map] at hafter
  exact hafter.symm.trans hverdicts

end State

end Tiling
