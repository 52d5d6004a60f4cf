import Tiling.Proofs.Layout
import Tiling.Proofs.Swap
import Mathlib.Logic.Equiv.Basic

/-!
# The layout after a swap

Of two nodes that are swapped each takes the room that the other had, as both are shown or both are
hidden. So every leaf outside them keeps its rectangle, and two leaves trade theirs.
-/

namespace Tiling

variable {α β : Type}

namespace Node

/-! ## 1. The layout of the swapped tree -/

/-- Readings of a layout that agree beside the two subtrees and match where they trade places agree
on the whole tree. -/
theorem Apart.laidOutAlike_swapAt {f g : NodeId × Rect → Option β} {n a b : Node α} {p q : Path}
    (h : n.Apart p q a b) (hd : n.ids.Nodup) (hvisible : a.visible = b.visible)
    (hkept : ∀ k bounds, k ∉ a.ids → k ∉ b.ids → g (k, bounds) = f (k, bounds))
    (hfirst : ∀ bounds,
      ((b.inPlaceOf a).layout bounds).filterMap g = (a.layout bounds).filterMap f)
    (hsecond : ∀ bounds,
      ((a.inPlaceOf b).layout bounds).filterMap g = (b.layout bounds).filterMap f) :
    n.LaidOutAlike f g (n.swapAt p q a b) := by
  rw [swapAt_eq]
  refine (congruence_laidOutAlike f g).setAt_setAt hd h (fun m _ hleaf hma hmb => ?_)
    ⟨size_inPlaceOf b a, by rw [visible_inPlaceOf, hvisible], hfirst⟩
    ⟨size_inPlaceOf a b, by rw [visible_inPlaceOf, hvisible], hsecond⟩
  refine ⟨rfl, rfl, fun bounds => ?_⟩
  rw [layout_of_isLeaf hleaf]
  split
  · rw [List.filterMap_cons, List.filterMap_cons, hkept m.id bounds hma hmb]
    rfl
  · rfl

/-- The leaves outside the two nodes are laid out as before. -/
theorem Apart.filter_layout_swapAt {n a b : Node α} {p q : Path} (h : n.Apart p q a b)
    (hd : n.ids.Nodup) (hvisible : a.visible = b.visible) (bounds : Rect) :
    ((n.swapAt p q a b).layout bounds).filter (fun e => e.1 ∉ a.ids ∧ e.1 ∉ b.ids) =
      (n.layout bounds).filter (fun e => e.1 ∉ a.ids ∧ e.1 ∉ b.ids) := by
  let outside (e : NodeId × Rect) : Bool := e.1 ∉ a.ids ∧ e.1 ∉ b.ids
  have hnone : ∀ m : Node α, m.ids = a.ids ∨ m.ids = b.ids → ∀ r,
      (m.layout r).filter outside = [] := by
    intro m hm r
    refine List.filter_eq_nil_iff.mpr fun e he => ?_
    have hid := mem_ids_of_mem_layout he
    rcases hm with hm | hm <;> simp [outside, hm ▸ hid]
  have hlayout := (h.laidOutAlike_swapAt (f := Option.guard outside) (g := Option.guard outside) hd
    hvisible (fun _ _ _ _ => rfl) ?_ ?_).layout_eq bounds
  · simpa only [List.filterMap_eq_filter] using hlayout
  · intro r
    rw [List.filterMap_eq_filter, hnone _ (.inr (ids_inPlaceOf b a)), hnone a (.inl rfl)]
  · intro r
    rw [List.filterMap_eq_filter, hnone _ (.inl (ids_inPlaceOf a b)), hnone b (.inr rfl)]

/-- Two leaves trade their identifiers in the layout. -/
theorem Apart.layout_swapAt_of_isLeaf {n a b : Node α} {p q : Path} (h : n.Apart p q a b)
    (hd : n.ids.Nodup) (hvisible : a.visible = b.visible) (ha : a.isLeaf) (hb : b.isLeaf)
    (bounds : Rect) :
    (n.swapAt p q a b).layout bounds =
      (n.layout bounds).map fun e => (Equiv.swap a.id b.id e.1, e.2) := by
  let renamed (e : NodeId × Rect) : NodeId × Rect := (Equiv.swap a.id b.id e.1, e.2)
  have htrade : ∀ m k : Node α, m.isLeaf → k.isLeaf → m.visible = k.visible →
      Equiv.swap a.id b.id k.id = m.id → ∀ r,
      ((m.inPlaceOf k).layout r).filterMap some = (k.layout r).filterMap (some ∘ renamed) := by
    intro m k hm hk hv hid r
    rw [layout_of_isLeaf hk, layout_of_isLeaf ((isLeaf_inPlaceOf m k).trans hm), visible_inPlaceOf,
      hv, id_inPlaceOf]
    split
    · simp [renamed, hid]
    · rfl
  have hkept : ∀ k r, k ∉ a.ids → k ∉ b.ids → some (k, r) = (some ∘ renamed) (k, r) := by
    intro k r hka hkb
    have hfixed : Equiv.swap a.id b.id k = k := Equiv.swap_apply_of_ne_of_ne
      (fun hk => hka (hk ▸ a.id_mem_ids)) (fun hk => hkb (hk ▸ b.id_mem_ids))
    simp [renamed, hfixed]
  have halike := h.laidOutAlike_swapAt hd hvisible hkept
    (htrade b a hb ha hvisible.symm (Equiv.swap_apply_left _ _))
    (htrade a b ha hb hvisible (Equiv.swap_apply_right _ _))
  simpa only [List.filterMap_some, List.filterMap_eq_map] using halike.layout_eq bounds

end Node

/-! ## 2. The layout of the swapped state -/

/-- A swap of two nodes that are both shown or both hidden keeps the rectangle of each leaf outside
them, in any bounds. If the two are leaves, all that changes is that they trade their rectangles. -/
theorem swap_keeps_rectangles (s : State α) (root a b : Node α) (hs : Reachable s)
    (hroot : s.root = some root) (hd : root.ids.Nodup) (hbalance : root.balance? = some root)
    (ha : a ∈ root.nodes) (hb : b ∈ root.nodes) (hvisible : a.visible = b.visible)
    (haccepted : (s.step (.swap a.id b.id)).2 = none) :
    ∃ root', (s.step (.swap a.id b.id)).1.root = some root' ∧ ∀ bounds,
      (root'.layout bounds).filter (fun e => e.1 ∉ a.ids ∧ e.1 ∉ b.ids) =
        (root.layout bounds).filter (fun e => e.1 ∉ a.ids ∧ e.1 ∉ b.ids) ∧
      (a.isLeaf → b.isLeaf → root'.layout bounds =
        (root.layout bounds).map fun e => (Equiv.swap a.id b.id e.1, e.2)) := by
  obtain ⟨p, q, a', b', hp, hq, h, hida, hidb⟩ :=
    State.apart_of_swap_accepted hroot haccepted
  obtain rfl := Node.eq_of_id_eq hd (Node.mem_nodes_of_at? h.at_first) ha hida
  obtain rfl := Node.eq_of_id_eq hd (Node.mem_nodes_of_at? h.at_second) hb hidb
  have hbalanced := (Node.balance?_eq_self_iff root).mp hbalance
  rw [State.step_swap hs.anchored hroot hd hbalanced hp hq h]
  exact ⟨_, rfl, fun bounds => ⟨h.filter_layout_swapAt hd hvisible bounds,
    fun ha hb => h.layout_swapAt_of_isLeaf hd hvisible ha hb bounds⟩⟩

/-- The left pane trades its rectangle with the lower one of the two panes to its right. -/
theorem left_pane_trades_with_lower_pane :
    ∃ (s : State Unit) (root root' : Node Unit), Reachable s ∧ s.root = some root ∧
      root.ids.Nodup ∧ root.balance? = some root ∧
      (s.step (.swap ⟨2⟩ ⟨5⟩)).2 = none ∧ (s.step (.swap ⟨2⟩ ⟨5⟩)).1.root = some root' ∧
      root'.layout ⟨0, 0, 200, 100⟩ =
        [(⟨5⟩, ⟨0, 0, 50, 100⟩), (⟨4⟩, ⟨50, 0, 150, 40⟩), (⟨2⟩, ⟨50, 40, 150, 60⟩)] := by
  let pane (n : UInt64) (orientation : Orientation) (size : Float32) : Node Unit :=
    .leaf { id := ⟨n⟩, orientation, size } ()
  let left := pane 2 .column 25
  let lower := pane 5 .row 60
  let right : Node Unit :=
    .branch { id := ⟨3⟩, orientation := .column, size := 75 } [pane 4 .row 40, lower]
  let root : Node Unit := .branch { id := ⟨1⟩ } [left, right]
  have hbalance : root.balance? = some root :=
    (Node.balance?_eq_self_iff root).mpr (by decide +kernel)
  let s := State.ofRoot root
  have hs : Reachable s := .ofRoot root
  have hroot : s.root = some root := hbalance
  have hd : root.ids.Nodup := by decide +kernel
  have haccepted : (s.step (.swap ⟨2⟩ ⟨5⟩)).2 = none := by decide +kernel
  have hleft : left ∈ root.nodes := Node.mem_nodes_of_mem_children List.mem_cons_self
  have hlower : lower ∈ root.nodes := by simp [root, right, lower, Node.self_mem_nodes]
  obtain ⟨root', hroot', hlayout⟩ := swap_keeps_rectangles s root left lower hs hroot hd hbalance
    hleft hlower rfl haccepted
  have hbefore : root.layout ⟨0, 0, 200, 100⟩ =
      [(⟨2⟩, ⟨0, 0, 50, 100⟩), (⟨4⟩, ⟨50, 0, 150, 40⟩), (⟨5⟩, ⟨50, 40, 150, 60⟩)] := by
    decide +kernel
  refine ⟨s, root, root', hs, hroot, hd, hbalance, haccepted, hroot', ?_⟩
  rw [(hlayout _).2 rfl rfl, hbefore]
  decide +kernel

end Tiling
