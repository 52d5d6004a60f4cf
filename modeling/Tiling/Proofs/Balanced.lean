import Tiling.Proofs.Pruning

/-!
# What balancing leaves alone

A balanced tree is in normal form and its shares add up in each sibling group. These are exactly the
trees that balancing gives back as they are.
-/

namespace Tiling

variable {α : Type}

/-! ## 1. Turning and sizes -/

namespace Node

@[simp] theorem size_orient (o : Orientation) (n : Node α) : (n.orient o).size = n.size := by
  cases n <;> rfl

@[simp] theorem visible_orient (o : Orientation) (n : Node α) :
    (n.orient o).visible = n.visible := by
  cases n <;> rfl

@[simp] theorem isLeaf_orient (o : Orientation) (n : Node α) : (n.orient o).isLeaf = n.isLeaf := by
  cases n <;> rfl

@[simp] theorem size_withOrientation (n : Node α) (o : Orientation) :
    (n.withOrientation o).size = n.size := by
  cases n <;> rfl

@[simp] theorem visible_withSize (n : Node α) (size : Float32) :
    (n.withSize size).visible = n.visible := by
  cases n <;> rfl

@[simp] theorem isLeaf_withSize (n : Node α) (size : Float32) :
    (n.withSize size).isLeaf = n.isLeaf := by
  cases n <;> rfl

@[simp] theorem withSize_size (n : Node α) : n.withSize n.size = n := by
  cases n <;> rfl

@[simp] theorem withSize_withSize (n : Node α) (u v : Float32) :
    (n.withSize u).withSize v = n.withSize v := by
  cases n <;> rfl

/-- Turning a subtree does not touch shares. -/
theorem orient_withSize (o : Orientation) (n : Node α) (size : Float32) :
    (n.withSize size).orient o = (n.orient o).withSize size := by
  cases n <;> rfl

@[simp] theorem orient_orient (o p : Orientation) (n : Node α) :
    (n.orient o).orient p = n.orient p := by
  induction n generalizing o p with
  | leaf h d => rfl
  | branch h cs ih =>
    simp only [orient, Forest.orient_eq_map, List.map_map]
    congr 1
    exact List.map_congr_left fun c hc => ih c hc _ _

/-- An alternating tree is turned as its top node is. -/
theorem Alternating.orient_eq {n : Node α} (h : n.Alternating) : n.orient n.orientation = n := by
  induction n with
  | leaf hd d => rfl
  | branch hd cs ih =>
    -- the children run across the branch already
    have hchildren : ∀ c ∈ cs, c.orient hd.orientation.reverse = c := by
      intro c hc
      have hacross : c.orientation = hd.orientation.reverse := h _ (self_mem_nodes _) c hc
      rw [← hacross]
      exact ih c hc (h.of_mem_nodes (mem_nodes_of_mem_children hc))
    rw [orient, Forest.orient_eq_map]
    exact congrArg (branch hd) ((List.map_congr_left hchildren).trans (List.map_id' cs))

end Node

/-! ## 2. Sibling groups that stay as they are -/

namespace Forest

theorem map_size_zipWith (cs : Forest α) (sizes : List Float32) (h : sizes.length = cs.length) :
    (List.zipWith Node.withSize cs sizes).map Node.size = sizes := by
  induction cs generalizing sizes with
  | nil => exact (List.length_eq_zero_iff.mp h).symm
  | cons c cs ih =>
    cases sizes with
    | nil => cases h
    | cons size sizes =>
      rw [List.zipWith_cons_cons, List.map_cons, Node.size_withSize, ih sizes (Nat.succ.inj h)]

/-- The shares of a normalized group are its shares, normalized. -/
theorem map_size_normalize (cs : Forest α) :
    (normalize cs).map Node.size = Share.normalize (cs.map Node.size) :=
  map_size_zipWith cs _ (by simp)

theorem zipWith_withSize_self (cs : Forest α) :
    List.zipWith Node.withSize cs (cs.map Node.size) = cs := by
  induction cs with
  | nil => rfl
  | cons c cs ih => rw [List.map_cons, List.zipWith_cons_cons, Node.withSize_size, ih]

def Normalized (cs : Forest α) : Prop :=
  Share.normalize (cs.map Node.size) = cs.map Node.size

instance (cs : Forest α) : Decidable (Normalized cs) :=
  inferInstanceAs (Decidable (_ = _))

theorem normalized_nil : Normalized ([] : Forest α) :=
  List.eq_nil_of_length_eq_zero (Share.length_normalize [])

/-- A group that adds up already stays as it is. -/
theorem Normalized.normalize_eq {cs : Forest α} (h : Normalized cs) : normalize cs = cs := by
  rw [normalize, h, zipWith_withSize_self]

end Forest

/-! ## 3. Balanced trees -/

namespace Node

/-- A leaf, or a branch of two or more children that run across it and whose shares add up. -/
@[mk_iff]
structure Even (n : Node α) : Prop where
  two_le : n.isLeaf = false → 2 ≤ n.children.length
  across : ∀ c ∈ n.children, c.orientation = n.orientation.reverse
  normalized : Forest.Normalized n.children

def Balanced (n : Node α) : Prop :=
  ∀ m ∈ n.nodes, m.Even

instance (n : Node α) : Decidable n.Even :=
  decidable_of_iff _ n.even_iff.symm

instance (n : Node α) : Decidable n.Balanced :=
  inferInstanceAs (Decidable (∀ m ∈ n.nodes, m.Even))

theorem even_leaf (h : Header) (d : α) : (leaf h d).Even :=
  ⟨nofun, nofun, Forest.normalized_nil⟩

theorem balanced_leaf (h : Header) (d : α) : (leaf h d).Balanced := by
  intro m hm
  rw [nodes_leaf, List.mem_singleton] at hm
  exact hm ▸ even_leaf h d

/-- A branch is balanced if it is even itself and each child is balanced. -/
theorem balanced_branch {h : Header} {cs : Forest α} :
    (branch h cs).Balanced ↔ (branch h cs).Even ∧ ∀ c ∈ cs, c.Balanced := by
  simp only [Balanced, nodes_branch, List.forall_mem_cons, List.forall_mem_flatMap]

theorem Balanced.forked {n : Node α} (h : n.Balanced) : n.Forked :=
  fun m hm => (h m hm).two_le

theorem Balanced.alternating {n : Node α} (h : n.Balanced) : n.Alternating :=
  fun m hm => (h m hm).across

theorem Balanced.of_mem_nodes {m n : Node α} (h : n.Balanced) (hm : m ∈ n.nodes) : m.Balanced :=
  fun k hk => h k (mem_nodes_trans hk hm)

/-- A balanced tree's own share does not matter to it. -/
theorem Balanced.withSize {n : Node α} (h : n.Balanced) (size : Float32) :
    (n.withSize size).Balanced := by
  cases n with
  | leaf hd d => exact balanced_leaf _ d
  | branch hd cs =>
    obtain ⟨htop, hbelow⟩ := balanced_branch.mp h
    exact balanced_branch.mpr ⟨⟨htop.two_le, htop.across, htop.normalized⟩, hbelow⟩

/-- A balanced tree may be turned as a whole. -/
theorem Balanced.orient {n : Node α} (h : n.Balanced) (o : Orientation) :
    (n.orient o).Balanced := by
  induction n generalizing o with
  | leaf hd d => exact balanced_leaf _ d
  | branch hd cs ih =>
    obtain ⟨htop, hbelow⟩ := balanced_branch.mp h
    have hsizes : (cs.map (Node.orient o.reverse)).map size = cs.map size := by
      rw [List.map_map]
      exact List.map_congr_left fun c _ => size_orient _ c
    rw [Node.orient, Forest.orient_eq_map, balanced_branch, List.forall_mem_map]
    refine ⟨⟨fun _ => ?_, ?_, ?_⟩, fun c hc => ih c hc (hbelow c hc) _⟩
    · rw [children_branch, List.length_map]
      exact htop.two_le rfl
    · exact List.forall_mem_map.mpr fun c _ => orientation_orient _ c
    · rw [children_branch, Forest.Normalized, hsizes]
      exact htop.normalized

/-! ## 4. Balancing -/

/-- Pruning changes nothing in a balanced tree. -/
theorem Balanced.prune?_eq {n : Node α} (h : n.Balanced) : n.prune? = some n := by
  induction n with
  | leaf hd d => rfl
  | branch hd cs ih =>
    obtain ⟨htop, hbelow⟩ := balanced_branch.mp h
    have hkept : cs.filterMap prune? = cs := by
      rw [List.filterMap_congr fun c hc => ih c hc (hbelow c hc)]
      exact List.filterMap_some
    have htwo : 2 ≤ cs.length := htop.two_le rfl
    have hnormalized : Forest.normalize cs = cs := htop.normalized.normalize_eq
    rw [Context.prune?_of_two (hkept.symm ▸ htwo), hkept, hnormalized]

/-- Pruning a forked branch prunes its children one by one and normalizes their shares. -/
theorem Forked.prune?_branch {h : Header} {cs : Forest α} (hf : (branch h cs).Forked) :
    ∃ kept : Forest α, List.Forall₂ (fun c k => c.Forked ∧ c.prune? = some k) cs kept ∧
      (branch h cs).prune? = some (branch h (Forest.normalize kept)) := by
  obtain ⟨htwo, hcs⟩ := forked_branch.mp hf
  have hkept :
      List.Forall₂ (fun c k => c.Forked ∧ c.prune? = some k) cs (cs.filterMap prune?) := by
    clear hf htwo
    induction cs with
    | nil => exact .nil
    | cons c cs ih =>
      rw [List.forall_mem_cons] at hcs
      obtain ⟨k, hk⟩ := Option.isSome_iff_exists.mp ((prune?_census c).1.trans hcs.1.bears)
      rw [List.filterMap_cons_some hk]
      exact .cons ⟨hcs.1, hk⟩ (ih hcs.2)
  rw [hkept.length_eq] at htwo
  exact ⟨_, hkept, Context.prune?_of_two htwo⟩

/-- Whatever takes a node's place takes its size. -/
theorem size_of_prune? {k n : Node α} (h : n.prune? = some k) : k.size = n.size := by
  cases n with
  | leaf hd d =>
    cases h
    rfl
  | branch hd cs =>
    rw [prune?_branch] at h
    split at h
    · cases h
    · cases h
      rw [inherit]
      split <;> simp <;> rfl
    · cases h
      rfl

/-- A forked tree that pruning and turning give back had normalized shares. -/
theorem Forked.normalized {k n : Node α} {o : Orientation} (hf : n.Forked)
    (hk : n.prune? = some k) (ho : k.orient o = n) :
    ∀ m ∈ n.nodes, Forest.Normalized m.children := by
  induction n generalizing k o with
  | leaf hd d =>
    intro m hm
    rw [nodes_leaf, List.mem_singleton] at hm
    rw [hm]
    exact Forest.normalized_nil
  | branch hd cs ih =>
    obtain ⟨kept, hkept, hprune⟩ := hf.prune?_branch
    rw [hprune] at hk
    cases hk
    rw [orient, Forest.orient_eq_map] at ho
    obtain ⟨-, hcs⟩ := branch.inj ho
    -- pruning keeps the sizes of the children, so these are what normalizing makes of themselves
    have hsizes : cs.map Node.size = kept.map Node.size := by
      rw [← List.forall₂_eq_eq_eq, List.forall₂_map_left_iff, List.forall₂_map_right_iff]
      exact hkept.imp fun c k hck => (size_of_prune? hck.2).symm
    have hnormalized : Forest.Normalized kept := by
      rw [Forest.Normalized, ← Forest.map_size_normalize, ← hsizes, ← hcs, List.map_map]
      exact List.map_congr_left fun k _ => (size_orient _ k).symm
    -- so normalizing changed nothing, and each child comes back from its own pruned form
    rw [hnormalized.normalize_eq] at hcs
    subst hcs
    rw [List.forall₂_map_left_iff, List.forall₂_same] at hkept
    intro m hm
    rw [nodes_branch, List.mem_cons, List.mem_flatMap] at hm
    rcases hm with rfl | ⟨c, hc, hm⟩
    · rw [children_branch, Forest.Normalized, hsizes]
      exact hnormalized
    · obtain ⟨k, hk, rfl⟩ := List.mem_map.mp hc
      exact ih _ hc (hkept k hk).1 (hkept k hk).2 rfl m hm

/-- The trees that balancing gives back are the balanced ones. -/
theorem balance?_eq_self_iff (n : Node α) : n.balance? = some n ↔ n.Balanced := by
  constructor
  · intro h
    obtain ⟨hforked, halternating⟩ := balance?_normalForm h
    obtain ⟨k, hk, ho⟩ := Option.map_eq_some_iff.mp h
    exact fun m hm => ⟨hforked m hm, halternating m hm, hforked.normalized hk ho m hm⟩
  · intro h
    rw [balance?, h.prune?_eq, Option.map_some, h.alternating.orient_eq]

end Node

end Tiling
