import Tiling.Layout
import Tiling.Proofs.Congruence

/-!
# Layouts

A layout lists leaves of the tree. How much room a node gets depends on its share and its visibility
and on those of its siblings, so a node can be replaced without an effect on the layout around it.
-/

namespace Tiling

variable {α β : Type}

/-! ## 1. What is laid out -/

/-- What is laid out in a forest is laid out by one of its trees, in some bounds. -/
theorem Forest.mem_arrange {d : Division} {offset : Float32} {cs : Forest α} {e : NodeId × Rect}
    (h : e ∈ Forest.arrange d offset cs) : ∃ c ∈ cs, ∃ bounds, e ∈ c.arrange bounds := by
  induction cs generalizing offset with
  | nil => cases h
  | cons c cs ih =>
    rw [Forest.arrange] at h
    have hrest : ∀ o, e ∈ Forest.arrange d o cs →
        ∃ k ∈ c :: cs, ∃ bounds, e ∈ k.arrange bounds := fun o hmem => by
      obtain ⟨k, hk, hbounds⟩ := ih hmem
      exact ⟨k, List.mem_cons_of_mem c hk, hbounds⟩
    split at h
    · rcases List.mem_append.mp h with h | h
      · exact ⟨c, List.mem_cons_self, _, h⟩
      · exact hrest _ h
    · exact hrest _ h

namespace Node

/-- Only leaves are laid out. -/
theorem exists_leaf_of_mem_arrange {n : Node α} {bounds : Rect} {e : NodeId × Rect}
    (h : e ∈ n.arrange bounds) : ∃ t ∈ n.nodes, t.isLeaf ∧ t.id = e.1 := by
  induction n generalizing bounds with
  | leaf hd d =>
    rw [arrange, List.mem_singleton] at h
    exact ⟨_, self_mem_nodes _, rfl, by rw [h]; rfl⟩
  | branch hd cs ih =>
    rw [arrange] at h
    obtain ⟨c, hc, b, hmem⟩ := Forest.mem_arrange h
    obtain ⟨t, ht, hleaf⟩ := ih c hc hmem
    exact ⟨t, mem_nodes_trans ht (mem_nodes_of_mem_children hc), hleaf⟩

theorem mem_ids_of_mem_layout {n : Node α} {bounds : Rect} {e : NodeId × Rect}
    (h : e ∈ n.layout bounds) : e.1 ∈ n.ids := by
  rw [layout] at h
  split at h
  · obtain ⟨t, ht, -, hid⟩ := exists_leaf_of_mem_arrange h
    exact hid ▸ id_mem_of_mem_nodes ht
  · cases h

theorem layout_of_isLeaf {n : Node α} (h : n.isLeaf) (bounds : Rect) :
    n.layout bounds = if n.visible then [(n.id, bounds)] else [] := by
  cases n with
  | leaf hd d => rfl
  | branch hd cs => cases h

/-! ## 2. Nodes that are laid out alike -/

/-- The two nodes take the same room among any siblings, and what `f` keeps of the layout of the one
is what `g` keeps of the layout of the other. -/
structure LaidOutAlike (f g : NodeId × Rect → Option β) (n m : Node α) : Prop where
  size_eq : m.size = n.size
  visible_eq : m.visible = n.visible
  layout_eq : ∀ bounds, (m.layout bounds).filterMap g = (n.layout bounds).filterMap f

end Node

namespace Forest

variable {f g : NodeId × Rect → Option β} {cs ds : Forest α}

theorem map_size_visible_congr (hall : List.Forall₂ (Node.LaidOutAlike f g) cs ds) :
    (visible ds).map Node.size = (visible cs).map Node.size := by
  induction hall with
  | nil => rfl
  | cons hcd _ ih =>
    rw [visible, visible, List.filter_cons, List.filter_cons, hcd.visible_eq]
    split
    · exact congrArg₂ List.cons hcd.size_eq ih
    · exact ih

theorem any_visible_congr (hall : List.Forall₂ (Node.LaidOutAlike f g) cs ds) :
    ds.any Node.visible = cs.any Node.visible := by
  induction hall with
  | nil => rfl
  | cons hcd _ ih => rw [List.any_cons, List.any_cons, hcd.visible_eq, ih]

/-- Forests that are laid out alike one by one are laid out alike side by side. -/
theorem arrange_congr (hall : List.Forall₂ (Node.LaidOutAlike f g) cs ds) (d : Division)
    (offset : Float32) :
    (arrange d offset ds).filterMap g = (arrange d offset cs).filterMap f := by
  induction hall generalizing offset with
  | nil => rfl
  | @cons c e cs ds hce hrest ih =>
    rw [arrange, arrange, any_visible_congr hrest, hce.size_eq]
    by_cases hvisible : c.visible
    · have hlayout := hce.layout_eq
      simp only [Node.layout, hce.visible_eq, hvisible, if_true] at hlayout
      rw [if_pos (hce.visible_eq.trans hvisible), if_pos hvisible]
      simp only [List.filterMap_append, hlayout, ih]
    · rw [if_neg (hce.visible_eq ▸ hvisible), if_neg hvisible]
      exact ih offset

end Forest

/-- Being laid out alike is kept by every container around the two nodes. -/
theorem Node.congruence_laidOutAlike (f g : NodeId × Rect → Option β) :
    Congruence (LaidOutAlike (α := α) f g) := by
  intro h cs ds hall
  refine ⟨rfl, rfl, fun bounds => ?_⟩
  have hvisible : (branch h ds).visible = (branch h cs).visible := rfl
  rw [layout, layout, hvisible]
  split
  · rw [arrange, arrange, Forest.map_size_visible_congr hall]
    exact Forest.arrange_congr hall _ _
  · rfl

end Tiling
