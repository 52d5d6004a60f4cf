import Tiling.Proofs.Rebalancing
import Tiling.Proofs.Relocation

/-!
# Trees that are alike up to sizes

In a tree in normal form a node can be exchanged for one of the same orientation, and the tree stays
in normal form. Balancing such a tree changes sizes only, so where an edit puts things back, the
balanced tree is the old one up to sizes.
-/

namespace Tiling

variable {α : Type}

open Node Context

namespace Node

/-! ## 1. Normal form around a hole -/

theorem alternating_branch {h : Header} {cs : Forest α} : (branch h cs).Alternating ↔
    ∀ c ∈ cs, c.orientation = h.orientation.reverse ∧ c.Alternating := by
  unfold Alternating
  simp only [nodes_branch, List.forall_mem_cons, List.mem_flatMap, children_branch]
  constructor
  · intro hall c hc
    exact ⟨hall.1 c hc, fun m hm => hall.2 m ⟨c, hc, hm⟩⟩
  · intro hall
    refine ⟨fun c hc => (hall c hc).1, fun m hm => ?_⟩
    obtain ⟨c, hc, hmc⟩ := hm
    exact (hall c hc).2 m hmc

theorem normalForm_leaf (h : Header) (d : α) : (leaf h d).NormalForm where
  forked := forked_leaf h d
  alternating := alternating_orient h.orientation (leaf h d)

/-- A container is in normal form when it has two children or more and each runs across it, in
normal form. -/
theorem normalForm_branch {h : Header} {cs : Forest α} : (branch h cs).NormalForm ↔
    2 ≤ cs.length ∧ ∀ c ∈ cs, c.orientation = h.orientation.reverse ∧ c.NormalForm := by
  constructor
  · intro hn
    obtain ⟨htwo, hforked⟩ := forked_branch.mp hn.forked
    have hturned := alternating_branch.mp hn.alternating
    exact ⟨htwo, fun c hc => ⟨(hturned c hc).1, hforked c hc, (hturned c hc).2⟩⟩
  · intro hall
    constructor
    · exact forked_branch.mpr ⟨hall.1, fun c hc => (hall.2 c hc).2.forked⟩
    · exact alternating_branch.mpr fun c hc => ⟨(hall.2 c hc).1, (hall.2 c hc).2.alternating⟩

theorem NormalForm.of_mem_nodes {m n : Node α} (h : n.NormalForm) (hm : m ∈ n.nodes) :
    m.NormalForm where
  forked := h.forked.of_mem_nodes hm
  alternating := h.alternating.of_mem_nodes hm

theorem normalForm_joined {child : Node α} (hf : child.Forked) (h : Header) (cs : Forest α) :
    (child.joined h cs).orientation = h.orientation.reverse ∧ (child.joined h cs).NormalForm := by
  have hturned := alternating_orient h.orientation.reverse child
  unfold Node.joined joining
  split
  · exact ⟨orientation_orient _ child, forked_orient _ hf, hturned⟩
  · -- a new size is neither here nor there
    generalize hsize : Share.mean (cs.map size) = size
    refine ⟨by cases child <;> rfl, (forked_mapHeader _).mpr (forked_orient _ hf), ?_⟩
    rw [← orient_withSize]
    exact alternating_orient _ _

end Node

theorem Context.orientation_plug {m n : Node α} (h : m.orientation = n.orientation)
    (c : Context α) : (plug c m).orientation = (plug c n).orientation := by
  cases c with
  | nil => exact h
  | cons f c => rfl

/-- A subtree may be replaced by one in normal form that runs the same way. -/
theorem Node.NormalForm.plug {c : Context α} {m n : Node α} (h : (plug c n).NormalForm)
    (hm : m.NormalForm) (ho : m.orientation = n.orientation) : (plug c m).NormalForm := by
  induction c with
  | nil => exact hm
  | cons f c ih =>
    rw [plug_cons, Frame.fill, normalForm_branch] at h ⊢
    obtain ⟨htwo, hall⟩ := h
    obtain ⟨hturned, hnormal⟩ := hall (Context.plug c n) (by simp)
    rw [List.length_append, List.length_cons] at htwo ⊢
    refine ⟨htwo, fun k hk => ?_⟩
    rw [List.mem_append, List.mem_cons] at hk
    -- beside the hole nothing changes
    rcases hk with hk | rfl | hk
    · exact hall k (List.mem_append_left _ hk)
    · exact ⟨(orientation_plug ho c).trans hturned, ih hnormal⟩
    · exact hall k (List.mem_append_right _ (List.mem_cons_of_mem _ hk))

/-! ## 2. Sizes -/

theorem Context.sizeless_plug {m n : Node α} (h : m.sizeless = n.sizeless) (c : Context α) :
    (plug c m).sizeless = (plug c n).sizeless := by
  induction c with
  | nil => exact h
  | cons f c ih => simp only [plug_cons, Frame.fill, sizeless_branch, List.map_append,
      List.map_cons, ih]

namespace Node

theorem sizeless_joined (child : Node α) (h : Header) (cs : Forest α) :
    (child.joined h cs).sizeless = (child.orient h.orientation.reverse).sizeless :=
  sizeless_joining _ _

/-- A child that ran across the branch before is not turned. -/
theorem Alternating.sizeless_joined {child : Node α} {h : Header} (ha : child.Alternating)
    (ho : child.orientation = h.orientation.reverse) (cs : Forest α) :
    (child.joined h cs).sizeless = child.sizeless := by
  rw [Node.sizeless_joined, ← ho, ha.orient_eq]

/-- What is in normal form up to sizes, balancing changes in sizes only. -/
theorem NormalForm.balance?_of_sizeless {m n : Node α} (h : n.NormalForm)
    (hm : m.sizeless = n.sizeless) : m.balance?.map sizeless = some n.sizeless := by
  obtain ⟨k, hk, hsizeless, -⟩ := h.balance?
  -- balancing and forgetting the sizes commute
  rw [← balance?_sizeless, hm, balance?_sizeless, hk, Option.map_some, hsizeless]

/-! ## 3. What balancing does not see -/

/-- What prunes alike prunes alike in every context. -/
theorem prune?_plug_congr {m n : Node α} (h : m.prune? = n.prune?) (c : Context α) :
    (plug c m).prune? = (plug c n).prune? := by
  induction c with
  | nil => exact h
  | cons f c ih =>
    have hkept : ∀ k : Node α, (f.before ++ k :: f.after).filterMap prune? =
        f.before.filterMap prune? ++ (k.prune?.toList ++ f.after.filterMap prune?) := by
      intro k
      rw [List.filterMap_append]
      cases hk : k.prune? <;> simp [hk]
    rw [plug_cons, plug_cons, Frame.fill, Frame.fill, prune?_branch, prune?_branch, hkept, hkept,
      ih]

theorem balance?_plug_congr {m n : Node α} (h : m.prune? = n.prune?) (c : Context α) :
    (plug c m).balance? = (plug c n).balance? := by
  rw [balance?, balance?, prune?_plug_congr h c]

end Node

end Tiling
