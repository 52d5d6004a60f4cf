import Tiling.Proofs.Condensing
import Tiling.Proofs.Layout

/-!
# What a layout shows

A pane is shown if it is visible and so is every branch around it. A layout lists the panes that are
shown, from first to last, and a hidden subtree has no effect on it: the layout is the same when the
subtree is taken out of the tree. The identifiers may repeat.
-/

namespace Tiling

variable {α : Type}

mutual

def Node.withoutHidden : Node α → Node α
  -- The node at the top stays, and so does a branch that loses all its children.
  | .leaf h d => .leaf h d
  | .branch h cs => .branch h (Forest.withoutHidden cs)

def Forest.withoutHidden : Forest α → Forest α
  | [] => []
  | c :: cs =>
      if c.visible then c.withoutHidden :: Forest.withoutHidden cs else Forest.withoutHidden cs

end

namespace Node

/-- The nodes that have a property together with all nodes above them. -/
def nodesUnder (p : Node α → Bool) (n : Node α) : List (Node α) :=
  (n.lineages.filter fun l => l.1.all p && p l.2).map Prod.snd

def leavesUnder (p : Node α → Bool) (n : Node α) : List (Node α) :=
  (n.nodesUnder p).filter isLeaf

def shown (n : Node α) : List (Node α) :=
  n.leavesUnder visible

/-! ## 1. Nodes below nodes that have a property -/

section Under

variable (p : Node α → Bool)

theorem nodesUnder_branch (h : Header) (cs : Forest α) :
    (branch h cs).nodesUnder p =
      if p (branch h cs) then branch h cs :: cs.flatMap (nodesUnder p) else [] := by
  have hbelow : cs.flatMap (nodesUnder p) =
      ((cs.flatMap lineages).filter fun l => l.1.all p && p l.2).map Prod.snd := by
    rw [List.filter_flatMap, List.map_flatMap]
    rfl
  rw [nodesUnder, lineages_branch, List.filter_cons, List.filter_map, hbelow]
  by_cases hp : p (branch h cs)
  · simp [hp, Function.comp_def]
  · simp [hp, Function.comp_def]

theorem nodesUnder_leaf (h : Header) (d : α) :
    (leaf h d).nodesUnder p = if p (leaf h d) then [leaf h d] else [] := by
  by_cases hp : p (leaf h d) <;> simp [nodesUnder, lineages, hp]

@[simp] theorem leavesUnder_leaf (h : Header) (d : α) :
    (leaf h d).leavesUnder p = if p (leaf h d) then [leaf h d] else [] := by
  rw [leavesUnder, nodesUnder_leaf]
  split <;> rfl

@[simp] theorem leavesUnder_branch (h : Header) (cs : Forest α) :
    (branch h cs).leavesUnder p =
      if p (branch h cs) then cs.flatMap (leavesUnder p) else [] := by
  rw [leavesUnder, nodesUnder_branch]
  by_cases hp : p (branch h cs)
  · rw [if_pos hp, if_pos hp, List.filter_cons_of_neg (by simp), List.filter_flatMap]
    rfl
  · rw [if_neg hp, if_neg hp]
    rfl

variable {p}

/-- Below a node that the test stops at, nothing is under it. -/
theorem nodesUnder_eq_nil {n : Node α} (h : p n = false) : n.nodesUnder p = [] := by
  cases n <;> simp [nodesUnder_leaf, nodesUnder_branch, h]

theorem leavesUnder_eq_nil {n : Node α} (h : p n = false) : n.leavesUnder p = [] := by
  rw [leavesUnder, nodesUnder_eq_nil h, List.filter_nil]

end Under

end Node

/-! ## 2. The panes that a layout lists -/

namespace Forest

theorem map_fst_arrange {cs : Forest α}
    (ih : ∀ c ∈ cs, ∀ bounds, (c.layout bounds).map Prod.fst = c.shown.map Node.id)
    (d : Division) (offset : Float32) :
    (arrange d offset cs).map Prod.fst = (cs.flatMap Node.shown).map Node.id := by
  induction cs generalizing offset with
  | nil => rfl
  | cons c cs ihcs =>
    rw [List.forall_mem_cons] at ih
    rw [arrange, List.flatMap_cons, List.map_append]
    by_cases hvisible : c.visible
    · have hc := ih.1
      simp only [Node.layout, if_pos hvisible] at hc
      rw [if_pos hvisible, List.map_append, hc, ihcs ih.2]
    · have hc : c.shown = [] := Node.leavesUnder_eq_nil (eq_false_of_ne_true hvisible)
      rw [if_neg hvisible, ihcs ih.2, hc]
      rfl

end Forest

/-- The ids laid out are those of the leaves shown, in their order. -/
theorem Node.map_fst_layout (n : Node α) (bounds : Rect) :
    (n.layout bounds).map Prod.fst = n.shown.map id := by
  induction n generalizing bounds with
  | leaf h d =>
    rw [layout, shown, leavesUnder_leaf]
    split <;> rfl
  | branch h cs ih =>
    rw [layout, shown, leavesUnder_branch, arrange]
    split
    · exact Forest.map_fst_arrange ih _ _
    · rfl

/-! ## 3. Without the hidden subtrees -/

theorem Forest.withoutHidden_eq_map (cs : Forest α) :
    withoutHidden cs = (visible cs).map Node.withoutHidden := by
  induction cs with
  | nil => rfl
  | cons c cs ih =>
    rw [withoutHidden, visible, List.filter_cons]
    split
    · rw [ih, List.map_cons, visible]
    · exact ih

namespace Node

@[simp] theorem header_withoutHidden (n : Node α) : n.withoutHidden.header = n.header := by
  cases n <;> rfl

@[simp] theorem size_withoutHidden (n : Node α) : n.withoutHidden.size = n.size := by
  simp [size]

@[simp] theorem visible_withoutHidden (n : Node α) : n.withoutHidden.visible = n.visible := by
  simp [visible]

theorem withoutHidden_branch (h : Header) (cs : Forest α) :
    (branch h cs).withoutHidden = branch h ((Forest.visible cs).map withoutHidden) := by
  rw [withoutHidden, Forest.withoutHidden_eq_map]

end Node

namespace Forest

/-- What remains is visible, so to drop what is hidden again changes nothing. -/
theorem visible_map_withoutHidden (cs : Forest α) :
    visible ((visible cs).map Node.withoutHidden) = (visible cs).map Node.withoutHidden := by
  refine List.filter_eq_self.mpr fun c hc => ?_
  obtain ⟨k, hk, rfl⟩ := List.mem_map.mp hc
  rw [Node.visible_withoutHidden]
  exact (List.mem_filter.mp hk).2

theorem map_size_withoutHidden (cs : Forest α) :
    (visible (withoutHidden cs)).map Node.size = (visible cs).map Node.size := by
  rw [withoutHidden_eq_map, visible_map_withoutHidden, List.map_map]
  exact List.map_congr_left fun c _ => Node.size_withoutHidden c

theorem any_visible_withoutHidden (cs : Forest α) :
    (withoutHidden cs).any Node.visible = cs.any Node.visible := by
  induction cs with
  | nil => rfl
  | cons c cs ih =>
    rw [withoutHidden, List.any_cons]
    by_cases hvisible : c.visible
    · rw [if_pos hvisible, List.any_cons, Node.visible_withoutHidden, ih]
    · rw [if_neg hvisible, ih, eq_false_of_ne_true hvisible, Bool.false_or]

theorem arrange_withoutHidden {cs : Forest α}
    (ih : ∀ c ∈ cs, ∀ bounds, c.withoutHidden.layout bounds = c.layout bounds)
    (d : Division) (offset : Float32) :
    arrange d offset (withoutHidden cs) = arrange d offset cs := by
  induction cs generalizing offset with
  | nil => rfl
  | cons c cs ihcs =>
    rw [List.forall_mem_cons] at ih
    rw [withoutHidden, arrange]
    by_cases hvisible : c.visible
    · have hc := ih.1
      simp only [Node.layout, Node.visible_withoutHidden, if_pos hvisible] at hc
      rw [if_pos hvisible, if_pos hvisible, arrange, Node.visible_withoutHidden, if_pos hvisible]
      simp only [any_visible_withoutHidden, Node.size_withoutHidden, hc, ihcs ih.2]
    · rw [if_neg hvisible, if_neg hvisible, ihcs ih.2]

end Forest

namespace Node

/-- Hidden subtrees take no part in the layout. -/
theorem layout_withoutHidden (n : Node α) (bounds : Rect) :
    n.withoutHidden.layout bounds = n.layout bounds := by
  induction n generalizing bounds with
  | leaf h d => rfl
  | branch h cs ih =>
    rw [layout, visible_withoutHidden, layout]
    split
    · rw [withoutHidden, arrange, arrange, Forest.map_size_withoutHidden]
      exact Forest.arrange_withoutHidden ih _ _
    · rfl

/-- Of a visible tree the nodes remain that are visible and have only visible nodes above them, each
with its header and in their order. -/
theorem map_header_withoutHidden {n : Node α} (h : n.visible) :
    n.withoutHidden.nodes.map header = (n.nodesUnder visible).map header := by
  induction n with
  | leaf hd d =>
    rw [nodesUnder_leaf, if_pos h]
    rfl
  | branch hd cs ih =>
    have hbelow : (Forest.visible cs).flatMap (fun c => c.withoutHidden.nodes.map header) =
        cs.flatMap fun c => (c.nodesUnder visible).map header := by
      clear h
      induction cs with
      | nil => rfl
      | cons c cs ihcs =>
        rw [List.forall_mem_cons] at ih
        rw [Forest.visible, List.filter_cons, List.flatMap_cons]
        by_cases hvisible : c.visible
        · rw [if_pos hvisible, List.flatMap_cons, ih.1 hvisible, ← ihcs ih.2, Forest.visible]
        · rw [if_neg hvisible, nodesUnder_eq_nil (eq_false_of_ne_true hvisible), ← ihcs ih.2]
          rfl
    rw [nodesUnder_branch, if_pos h, withoutHidden_branch, nodes_branch, List.map_cons,
      List.map_cons, List.map_flatMap, List.map_flatMap, List.flatMap_map, hbelow]
    rfl

end Node

/-- A layout lists once and in their order the leaves that are visible with all nodes above them. It
is empty for a hidden tree, and the same, to the bit, for the tree without its hidden subtrees, so
two trees that differ in hidden subtrees alone have the same layout. -/
theorem layout_shows_visible_panes (n : Node α) (bounds : Rect) :
    (n.layout bounds).map Prod.fst = n.shown.map Node.id ∧
    (n.visible = false → n.layout bounds = []) ∧
    n.withoutHidden.layout bounds = n.layout bounds ∧
    ∀ m : Node α, m.withoutHidden = n.withoutHidden → m.layout bounds = n.layout bounds := by
  refine ⟨n.map_fst_layout bounds, fun hhidden => ?_, n.layout_withoutHidden bounds,
    fun m hm => ?_⟩
  · rw [Node.layout, hhidden]
    rfl
  · rw [← m.layout_withoutHidden, hm, n.layout_withoutHidden]

/-- A hidden row of two panes between two others, and another pane in its place with a size that is
no number. To hide the whole tree leaves nothing. -/
theorem hidden_row_has_no_effect :
    ∃ n m hidden : Node Unit, m.ids ≠ n.ids ∧ hidden.visible = false ∧
      n.layout ⟨0, 0, 100, 50⟩ = [(⟨2⟩, ⟨0, 0, 25, 50⟩), (⟨6⟩, ⟨25, 0, 75, 50⟩)] ∧
      m.layout ⟨0, 0, 100, 50⟩ = n.layout ⟨0, 0, 100, 50⟩ ∧
      hidden.layout ⟨0, 0, 100, 50⟩ = [] := by
  let pane (n : UInt64) (size : Float32) : Node Unit := .leaf { id := ⟨n⟩, size } ()
  let row : Node Unit := .branch { id := ⟨3⟩, size := 60, visible := false } [pane 4 50, pane 5 50]
  let odd : Node Unit := .leaf { id := ⟨7⟩, size := 0 / 0, visible := false } ()
  let n : Node Unit := .branch { id := ⟨1⟩ } [pane 2 10, row, pane 6 30]
  let m : Node Unit := .branch { id := ⟨1⟩ } [pane 2 10, pane 6 30, odd]
  let hidden : Node Unit := n.mapHeader fun h => { h with visible := false }
  have h := (layout_shows_visible_panes n ⟨0, 0, 100, 50⟩).2.2
  refine ⟨n, m, hidden, by decide +kernel, rfl, ?_, h.2 m rfl,
    (layout_shows_visible_panes hidden _).2.1 rfl⟩
  rw [← h.1]
  decide +kernel

end Tiling
