import Tiling.Proofs.Census

/-!
# The normal form of a tree

In normal form each branch has two or more children, and orientations alternate from each branch to
its children. Balancing puts every tree that has a leaf into normal form.
-/

namespace Tiling

variable {α : Type}

namespace Node

def Forked (n : Node α) : Prop :=
  ∀ m ∈ n.nodes, m.isLeaf = false → 2 ≤ m.children.length

def Alternating (n : Node α) : Prop :=
  ∀ m ∈ n.nodes, ∀ c ∈ m.children, c.orientation = m.orientation.reverse

structure NormalForm (n : Node α) : Prop where
  forked : n.Forked
  alternating : n.Alternating

/-! ## 1. Forked trees -/

theorem forked_leaf (h : Header) (d : α) : (leaf h d).Forked := by
  intro m hm hleaf
  rw [nodes_leaf, List.mem_singleton] at hm
  rw [hm, isLeaf_leaf] at hleaf
  cases hleaf

theorem forked_branch {h : Header} {cs : Forest α} :
    (branch h cs).Forked ↔ 2 ≤ cs.length ∧ ∀ c ∈ cs, c.Forked := by
  simp only [Forked, nodes_branch, List.forall_mem_cons, List.mem_flatMap]
  constructor
  · intro ⟨hself, hbelow⟩
    exact ⟨hself rfl, fun c hc m hm => hbelow m ⟨c, hc, hm⟩⟩
  · intro ⟨hself, hbelow⟩
    exact ⟨fun _ => hself, fun m ⟨c, hc, hm⟩ => hbelow c hc m hm⟩

theorem Forked.of_mem_nodes {m n : Node α} (h : n.Forked) (hm : m ∈ n.nodes) : m.Forked :=
  fun k hk => h k (mem_nodes_trans hk hm)

theorem forked_mapHeader (f : Header → Header) {n : Node α} :
    (n.mapHeader f).Forked ↔ n.Forked := by
  cases n with
  | leaf h d => exact iff_of_true (forked_leaf _ d) (forked_leaf h d)
  | branch h cs => rw [mapHeader, forked_branch, forked_branch]

theorem forked_inherit {n : Node α} (place : Header) (h : n.Forked) : (n.inherit place).Forked := by
  rw [inherit]
  split
  · rwa [withOrientation, forked_mapHeader, withSize, forked_mapHeader]
  · rwa [withSize, forked_mapHeader]

theorem forked_orient {n : Node α} (o : Orientation) (h : n.Forked) : (n.orient o).Forked := by
  induction n generalizing o with
  | leaf hd d => exact forked_leaf _ d
  | branch hd cs ih =>
    rw [forked_branch] at h
    rw [orient, Forest.orient_eq_map, forked_branch, List.length_map, List.forall_mem_map]
    exact ⟨h.1, fun c hc => ih c hc _ (h.2 c hc)⟩

/-- A forked tree has a leaf. -/
theorem Forked.bears {n : Node α} (h : n.Forked) : n.bears := by
  induction n with
  | leaf hd d => rfl
  | branch hd cs ih =>
    rw [forked_branch] at h
    obtain ⟨c, hc⟩ := List.exists_mem_of_length_pos (by omega : 0 < cs.length)
    rw [bears_branch, List.any_eq_true]
    exact ⟨c, hc, ih c hc (h.2 c hc)⟩

/-- In a forked tree every child bears a leaf. -/
theorem Forked.countP_bears {h : Header} {cs : Forest α} (hf : (branch h cs).Forked) :
    cs.countP Node.bears = cs.length :=
  List.countP_eq_length.mpr fun c hc => ((forked_branch.mp hf).2 c hc).bears

/-- Balancing keeps every node of a forked tree. -/
theorem Forked.stays {n : Node α} (h : n.Forked) {e : Entry} (he : e ∈ n.census) : e.stays := by
  rw [census, List.mem_map] at he
  obtain ⟨m, hm, rfl⟩ := he
  cases m with
  | leaf hd d => rfl
  | branch hd cs =>
    have hcount := (h.of_mem_nodes hm).countP_bears
    have hlength := h _ hm rfl
    rw [children_branch] at hlength
    rw [entry, isLeaf_branch, children_branch, hcount]
    exact decide_eq_true hlength

theorem Forked.two_le {n : Node α} (h : n.Forked) {id : NodeId} {k : Nat}
    (he : ⟨id, some k⟩ ∈ n.census) : 2 ≤ k := by
  have hstays := h.stays he
  rwa [Entry.stays_branch, decide_eq_true_iff] at hstays

/-- What pruning leaves is forked. -/
theorem prune?_forked {m n : Node α} (h : n.prune? = some m) : m.Forked := by
  induction n generalizing m with
  | leaf hd d =>
    rw [prune?, Option.some.injEq] at h
    exact h ▸ forked_leaf hd d
  | branch hd cs ih =>
    have hkept : ∀ k ∈ cs.filterMap prune?, k.Forked := fun k hk => by
      obtain ⟨c, hc, hck⟩ := List.mem_filterMap.mp hk
      exact ih c hc hck
    rw [prune?_branch] at h
    generalize cs.filterMap prune? = kept at h hkept
    rcases kept with _ | ⟨only, _ | ⟨second, rest⟩⟩
    · cases h
    · cases h
      exact forked_inherit hd (hkept only List.mem_cons_self)
    · cases h
      -- normalizing changes sizes only, so the children stay forked
      have hsize : ∀ (n : Node α) s, (n.withSize s).Forked = n.Forked := fun n s =>
        propext (by rw [withSize, forked_mapHeader])
      rw [forked_branch, Forest.length_normalize, Forest.forall_mem_normalize hsize]
      exact ⟨by simp, hkept⟩

/-! ## 2. Alternating trees -/

/-- Orienting a tree makes its directions alternate. -/
theorem alternating_orient (o : Orientation) (n : Node α) : (n.orient o).Alternating := by
  induction n generalizing o with
  | leaf h d =>
    intro m hm c hc
    rw [orient, nodes_leaf, List.mem_singleton] at hm
    rw [hm, children_leaf] at hc
    cases hc
  | branch h cs ih =>
    intro m hm
    rw [orient, Forest.orient_eq_map, nodes_branch, List.mem_cons, List.mem_flatMap] at hm
    -- the branch itself, whose children are turned across it, or a node below a child
    rcases hm with rfl | ⟨k, hk, hm⟩
    · intro c hc
      obtain ⟨c', -, rfl⟩ := List.mem_map.mp hc
      exact orientation_orient _ c'
    · obtain ⟨k', hk', rfl⟩ := List.mem_map.mp hk
      exact ih k' hk' _ m hm

/-- Balancing restores the normal form, whatever the tree was like. -/
theorem balance?_normalForm {m n : Node α} (h : n.balance? = some m) : m.NormalForm := by
  obtain ⟨k, hk, rfl⟩ := Option.map_eq_some_iff.mp h
  exact ⟨forked_orient _ (prune?_forked hk), alternating_orient _ k⟩

end Node

end Tiling
