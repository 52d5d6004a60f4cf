import Tiling.Proofs.Attention
import Tiling.Proofs.Congruence

/-!
# Swaps

A swap of two nodes of a balanced tree gives a balanced tree again. So nothing is normalized when
the swap is settled, and a second swap of the same two nodes restores the tree and its leaves.
-/

namespace Tiling

open List (Perm)

variable {α : Type}

namespace Node

/-! ## 1. Nodes that stand in for others -/

def standing (n : Node α) : Float32 × Orientation :=
  (n.size, n.orientation)

/-- In a balanced tree the one node can be replaced by the other. -/
structure StandsIn (n m : Node α) : Prop where
  standing_eq : m.standing = n.standing
  balanced : n.Balanced → m.Balanced

@[simp] theorem standing_inPlaceOf (n place : Node α) :
    (n.inPlaceOf place).standing = place.standing := by
  rw [standing, size_inPlaceOf, orientation_inPlaceOf, standing]

theorem Balanced.standsIn_inPlaceOf {n : Node α} (h : n.Balanced) (place : Node α) :
    place.StandsIn (n.inPlaceOf place) :=
  ⟨standing_inPlaceOf n place, fun _ => (h.withSize place.size).orient place.orientation⟩

/-- Whether a branch is even depends on how its children stand and not on what is below them. -/
theorem Even.congr {h : Header} {cs ds : Forest α} (heven : (branch h cs).Even)
    (hstanding : ds.map standing = cs.map standing) : (branch h ds).Even := by
  have hlength : ds.length = cs.length := by simpa using congrArg List.length hstanding
  have hsizes : ds.map size = cs.map size := by
    simpa [Function.comp_def, standing] using congrArg (List.map Prod.fst) hstanding
  refine ⟨fun hbranch => hlength ▸ heven.two_le hbranch, ?_, ?_⟩
  · have hacross : ∀ x ∈ cs.map standing, x.2 = h.orientation.reverse :=
      List.forall_mem_map.mpr heven.across
    rw [← hstanding] at hacross
    exact List.forall_mem_map.mp hacross
  · have hnormalized := heven.normalized
    rwa [children_branch, Forest.Normalized, ← hsizes] at hnormalized

/-- What stands in for a child stands in for it in every container. -/
theorem congruence_standsIn : Congruence (StandsIn (α := α)) := by
  intro h cs ds hall
  have hchildren : ds.map standing = cs.map standing ∧
      ((∀ c ∈ cs, c.Balanced) → ∀ d ∈ ds, d.Balanced) := by
    induction hall with
    | nil => exact ⟨rfl, fun _ => nofun⟩
    | cons hcd _ ih =>
      refine ⟨congrArg₂ List.cons hcd.standing_eq ih.1, fun hbelow => ?_⟩
      rw [List.forall_mem_cons] at hbelow ⊢
      exact ⟨hcd.balanced hbelow.1, ih.2 hbelow.2⟩
  refine ⟨rfl, fun hbalanced => ?_⟩
  obtain ⟨heven, hbelow⟩ := balanced_branch.mp hbalanced
  exact balanced_branch.mpr ⟨heven.congr hchildren.1, hchildren.2 hbelow⟩

/-! ## 2. The swapped tree -/

/-- A swap keeps a balanced tree balanced. -/
theorem Apart.balanced_swapAt {n a b : Node α} {p q : Path} (h : n.Apart p q a b)
    (hd : n.ids.Nodup) (hn : n.Balanced) : (n.swapAt p q a b).Balanced := by
  have ha : a.Balanced := hn.of_mem_nodes (mem_nodes_of_at? h.at_first)
  have hb : b.Balanced := hn.of_mem_nodes (mem_nodes_of_at? h.at_second)
  exact (congruence_standsIn.setAt_setAt hd h (fun m _ _ _ _ => ⟨rfl, fun hm => hm⟩)
    (hb.standsIn_inPlaceOf a) (ha.standsIn_inPlaceOf b)).balanced hn

theorem Apart.perm_ids_swapAt {n a b : Node α} {p q : Path} (h : n.Apart p q a b)
    (hn : n.Balanced) : Perm (n.swapAt p q a b).ids n.ids := by
  have hbears : ∀ m ∈ n.nodes, m.bears := fun m hm => (hn.of_mem_nodes hm).forked.bears
  have hcensus := census_swapAt h.part h.at_first h.at_second
    (hbears a (mem_nodes_of_at? h.at_first)) (hbears b (mem_nodes_of_at? h.at_second))
  rw [← map_id_census, ← map_id_census n]
  exact hcensus.map Entry.id

/-- Each of the two is found where the other was. -/
theorem Apart.path?_swapAt {n a b : Node α} {p q : Path} (h : n.Apart p q a b)
    (hd : n.ids.Nodup) (hn : n.Balanced) :
    (n.swapAt p q a b).path? b.id = some p ∧ (n.swapAt p q a b).path? a.id = some q := by
  have hd' : (n.swapAt p q a b).ids.Nodup := (h.perm_ids_swapAt hn).nodup_iff.mpr hd
  have hfirst := path?_of_at? hd' h.swapAt.at_first
  have hsecond := path?_of_at? hd' h.swapAt.at_second
  rw [id_inPlaceOf] at hfirst hsecond
  exact ⟨hfirst, hsecond⟩

end Node

/-! ## 3. The swap as an action -/

namespace State

/-- What settling makes of a state whose focus and magnification are in the balanced tree. -/
theorem settle_of_balance? {s : State α} {n m : Node α} (hroot : s.root = some n)
    (hm : n.balance? = some m) (hs : { s with root := some m }.Anchored) :
    s.settle = { s with
      root := some m, leaves := m.leaves, staged := none, generation := s.generation + 1 } := by
  have hbalanced : s.root.bind Node.balance? = some m := by rw [hroot, Option.bind_some, hm]
  have hanchored : { s.settle with focused := s.focused, magnified := s.magnified }.Anchored :=
    hs.congr hbalanced rfl rfl
  have hfocused : s.settle.focused = s.focused := (settle_focused s).trans hanchored.refocused_eq
  have hmagnified : s.settle.magnified = s.magnified :=
    (settle_magnified s).trans hanchored.filter_eq
  calc s.settle
    _ = { s with
          root := s.root.bind Node.balance?, leaves := leavesOf (s.root.bind Node.balance?)
          staged := none, focused := s.settle.focused, magnified := s.settle.magnified
          generation := s.generation + 1 } := rfl
    _ = { s with
          root := some m, leaves := m.leaves, staged := none, generation := s.generation + 1 } := by
      rw [hfocused, hmagnified, hbalanced]
      rfl

/-- Settling changes nothing in the tree if it is balanced, nor what is anchored in it. -/
theorem settle_of_balanced {s : State α} {n : Node α} (hroot : s.root = some n) (hn : n.Balanced)
    (hs : s.Anchored) :
    s.settle = { s with leaves := n.leaves, staged := none, generation := s.generation + 1 } := by
  have hself := (Node.balance?_eq_self_iff n).mpr hn
  rw [settle_of_balance? hroot hself (hs.congr hroot.symm rfl rfl), ← hroot]

theorem Anchored.of_perm {s : State α} {root n : Node α} (hs : s.Anchored)
    (hroot : s.root = some root) (h : Perm n.ids root.ids) :
    { s with root := some n }.Anchored := by
  have hmem : ∀ id ∈ s.treeIds, id ∈ n.ids := fun id hid =>
    h.symm.subset (treeIds_eq hroot ▸ hid)
  exact ⟨fun id hid => hmem id (hs.focused_mem id hid),
    fun id hid => hmem id (hs.magnified_mem id hid)⟩

/-- An accepted swap is of two nodes that stand apart. -/
theorem apart_of_swap_accepted {s : State α} {root : Node α} {first second : NodeId}
    (hroot : s.root = some root) (haccepted : (s.step (.swap first second)).2 = none) :
    ∃ p q a b, root.path? first = some p ∧ root.path? second = some q ∧ root.Apart p q a b ∧
      a.id = first ∧ b.id = second := by
  obtain ⟨r, hr, -⟩ := perform_edit rfl (step_accepted haccepted)
  obtain ⟨n, p, q, a, b, hn, hp, hq, h, -⟩ := swap_eq_ok_iff.mp hr
  obtain rfl : root = n := Option.some.inj (hroot.symm.trans hn)
  -- the nodes at the two paths have the identifiers that the paths were found for
  obtain ⟨a', ha, hfirst⟩ := Node.at?_of_path? hp
  obtain ⟨b', hb, hsecond⟩ := Node.at?_of_path? hq
  rw [h.at_first, Option.some.injEq] at ha
  rw [h.at_second, Option.some.injEq] at hb
  exact ⟨p, q, a, b, hp, hq, h, ha ▸ hfirst, hb ▸ hsecond⟩

theorem step_swap {s : State α} {root a b : Node α} {p q : Path} {first second : NodeId}
    (hs : s.Anchored) (hroot : s.root = some root) (hd : root.ids.Nodup) (hbalanced : root.Balanced)
    (hp : root.path? first = some p) (hq : root.path? second = some q) (h : root.Apart p q a b) :
    s.step (.swap first second) =
      ({ s with
        root := some (root.swapAt p q a b), leaves := (root.swapAt p q a b).leaves
        staged := none, generation := s.generation + 1 }, none) := by
  have hswap := swap_eq_ok_iff.mpr ⟨root, p, q, a, b, hroot, hp, hq, h, rfl⟩
  have hanchored := hs.of_perm hroot (h.perm_ids_swapAt hbalanced)
  have hperform : s.perform (.swap first second) = _ := congrArg (Except.map settle) hswap
  rw [step_eq_attempt]
  show s.attempt (.swap first second) = _
  rw [attempt, hperform]
  exact congrArg (·, none) (settle_of_balanced rfl (h.balanced_swapAt hd hbalanced) hanchored)

end State

/-- To swap two nodes is the same as to swap them in the other order. Each comes to where the other
was and stands there as the other did; the focus, the magnification and the supply stay. To swap the
two once more restores the tree and its leaves. -/
theorem swap_twice_restores (s : State α) (root : Node α) (first second : NodeId)
    (hs : Reachable s) (hroot : s.root = some root) (hd : root.ids.Nodup)
    (hbalance : root.balance? = some root) (haccepted : (s.step (.swap first second)).2 = none) :
    let once := (s.step (.swap first second)).1
    s.step (.swap second first) = (once, none) ∧
    (∃ root' p q, once.root = some root' ∧ Perm root'.ids root.ids ∧
      root.path? first = some p ∧ root'.path? first = some q ∧
      root.path? second = some q ∧ root'.path? second = some p ∧
      (root'.at? p).map Node.standing = (root.at? p).map Node.standing ∧
      (root'.at? q).map Node.standing = (root.at? q).map Node.standing) ∧
    (once.focused = s.focused ∧ once.magnified = s.magnified ∧ once.ids = s.ids) ∧
    once.step (.swap first second) =
      ({ s with staged := none, generation := s.generation + 2 }, none) := by
  have hbalanced := (Node.balance?_eq_self_iff root).mp hbalance
  obtain ⟨p, q, a, b, hp, hq, h, rfl, rfl⟩ := State.apart_of_swap_accepted hroot haccepted
  have hback := h.swapAt
  have hperm := h.perm_ids_swapAt hbalanced
  obtain ⟨hp', hq'⟩ := h.path?_swapAt hd hbalanced
  have honce := State.step_swap hs.anchored hroot hd hbalanced hp hq h
  have hanchored := (hs.call (.perform (.swap a.id b.id))).anchored
  rw [State.call, State.apply, honce] at hanchored
  rw [honce]
  intro once
  refine ⟨?_, ⟨_, p, q, rfl, hperm, hp, hq', hq, hp', ?_, ?_⟩, ⟨rfl, rfl, rfl⟩, ?_⟩
  · rw [State.step_swap hs.anchored hroot hd hbalanced hq hp h.symm, Node.swapAt_comm h.part]
  · rw [hback.at_first, h.at_first, Option.map_some, Node.standing_inPlaceOf, Option.map_some]
  · rw [hback.at_second, h.at_second, Option.map_some, Node.standing_inPlaceOf, Option.map_some]
  · have hleaves : s.leaves = root.leaves := by
      rw [hs.settled.leaves_eq, hroot]
      rfl
    have halternating : ∀ m ∈ root.nodes, m.Alternating := fun m hm =>
      (hbalanced.of_mem_nodes hm).alternating
    rw [State.step_swap hanchored rfl (hperm.nodup_iff.mpr hd) (h.balanced_swapAt hd hbalanced) hq'
      hp' hback.symm, Node.swapAt_comm hback.part,
      h.swapAt_swapAt (halternating a (Node.mem_nodes_of_at? h.at_first))
        (halternating b (Node.mem_nodes_of_at? h.at_second)), ← hroot, ← hleaves]
    show ({ s with staged := none, generation := s.generation + 1 + 1 }, none) = _
    rw [UInt64.add_assoc]
    rfl

/-- A leaf of the row and a leaf of the column in it are swapped twice. -/
theorem leaf_of_row_swaps_with_leaf_of_column :
    ∃ (s : State Unit) (root : Node Unit), Reachable s ∧ s.root = some root ∧ root.ids.Nodup ∧
      root.balance? = some root ∧ (s.step (.swap ⟨2⟩ ⟨5⟩)).2 = none ∧
      (s.step (.swap ⟨2⟩ ⟨5⟩)).1.root.map Node.leafIds = some [⟨5⟩, ⟨4⟩, ⟨2⟩] ∧
      (s.step (.swap ⟨2⟩ ⟨5⟩)).1.step (.swap ⟨2⟩ ⟨5⟩) =
        ({ s with staged := none, generation := s.generation + 2 }, none) := by
  let pane (n : UInt64) (orientation : Orientation) (size : Float32) : Node Unit :=
    .leaf { id := ⟨n⟩, orientation, size } ()
  let column : Node Unit :=
    .branch { id := ⟨3⟩, orientation := .column, size := 70 } [pane 4 .row 40, pane 5 .row 60]
  let root : Node Unit := .branch { id := ⟨1⟩ } [pane 2 .column 30, column]
  have hbalance : root.balance? = some root :=
    (Node.balance?_eq_self_iff root).mpr (by decide +kernel)
  let s := State.ofRoot root
  have hs : Reachable s := .ofRoot root
  have hroot : s.root = some root := hbalance
  have hd : root.ids.Nodup := by decide +kernel
  have haccepted : (s.step (.swap ⟨2⟩ ⟨5⟩)).2 = none := by decide +kernel
  have hleaves : (s.step (.swap ⟨2⟩ ⟨5⟩)).1.root.map Node.leafIds = some [⟨5⟩, ⟨4⟩, ⟨2⟩] := by
    decide +kernel
  exact ⟨s, root, hs, hroot, hd, hbalance, haccepted, hleaves,
    (swap_twice_restores s root ⟨2⟩ ⟨5⟩ hs hroot hd hbalance haccepted).2.2.2⟩

end Tiling
