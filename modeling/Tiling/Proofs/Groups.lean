import Tiling.Proofs.Balanced
import Tiling.Proofs.Edited
import Tiling.Proofs.Exchange
import Tiling.Proofs.Reachable
import Tiling.Proofs.Shares

/-!
# Sibling groups

Balancing normalizes each group, so in a reachable state each group is what normalizing made of some
shares. An edit takes shares from four sources: the tree, the node that it grafts, the shares that
it is told to write, and the mean of a group. While all of these are moderate, no share of the tree
that results is lost to overflow or underflow.
-/

namespace Tiling

variable {α : Type}

open Context

namespace Node

/-! ## 1. The shares of a tree -/

/-- The shares of each sibling group, among them the empty groups below the leaves. -/
def groups (n : Node α) : List (List Float32) :=
  n.nodes.map fun m => m.children.map size

def EachShare (P : Float32 → Prop) (n : Node α) : Prop :=
  -- The top node has no siblings, so its size is no share.
  ∀ g ∈ n.groups, ∀ x ∈ g, P x

theorem groups_branch (h : Header) (cs : Forest α) :
    (branch h cs).groups = cs.map size :: cs.flatMap groups := by
  rw [groups, nodes_branch, List.map_cons, List.map_flatMap]
  rfl

variable {P Q : Float32 → Prop}

/-- A property holds of each share when it holds of every size below the root. -/
theorem eachShare_iff {n : Node α} :
    n.EachShare P ↔ ∀ m ∈ n.nodes, ∀ c ∈ m.children, P c.size := by
  simp only [EachShare, groups, List.forall_mem_map]

theorem eachShare_branch {h : Header} {cs : Forest α} :
    (branch h cs).EachShare P ↔ ∀ c ∈ cs, P c.size ∧ c.EachShare P := by
  simp only [eachShare_iff, nodes_branch, List.forall_mem_cons, List.forall_mem_flatMap,
    children_branch, forall₂_and]

theorem EachShare.imp {n : Node α} (h : n.EachShare P) (himp : ∀ x, P x → Q x) : n.EachShare Q :=
  fun g hg x hx => himp x (h g hg x hx)

theorem EachShare.of_mem_nodes {m n : Node α} (h : n.EachShare P) (hm : m ∈ n.nodes) :
    m.EachShare P := by
  rw [eachShare_iff] at h ⊢
  exact fun k hk => h k (mem_nodes_trans hk hm)

@[simp] theorem groups_mapHeader (f : Header → Header) (n : Node α) :
    (n.mapHeader f).groups = n.groups := by
  cases n with
  | leaf h d => rfl
  | branch h cs => exact (groups_branch _ cs).trans (groups_branch h cs).symm

@[simp] theorem groups_withSize (n : Node α) (size : Float32) :
    (n.withSize size).groups = n.groups :=
  groups_mapHeader _ n

@[simp] theorem groups_withOrientation (n : Node α) (o : Orientation) :
    (n.withOrientation o).groups = n.groups :=
  groups_mapHeader _ n

@[simp] theorem groups_orient (o : Orientation) (n : Node α) : (n.orient o).groups = n.groups := by
  induction n generalizing o with
  | leaf h d => rfl
  | branch h cs ih =>
    have hsizes : (cs.map (Node.orient o.reverse)).map size = cs.map size := by
      rw [List.map_map]
      exact List.map_congr_left fun c _ => size_orient _ c
    have hbelow : (cs.map (Node.orient o.reverse)).flatMap groups = cs.flatMap groups := by
      rw [List.flatMap_map]
      exact List.flatMap_congr fun c hc => ih c hc _
    rw [orient, Forest.orient_eq_map, groups_branch, groups_branch, hsizes, hbelow]

/-! ## 2. Edits -/

/-- A tree whose hole is filled anew. -/
theorem EachShare.plug {c : Context α} {m n : Node α} (h : (plug c m).EachShare P)
    (hsize : P m.size → P n.size) (hn : n.EachShare P) : (Context.plug c n).EachShare P := by
  induction c with
  | nil => exact hn
  | cons f c ih =>
    have hhole : P (Context.plug c m).size → P (Context.plug c n).size := by
      cases c with
      | nil => exact hsize
      | cons g c => exact fun h => h
    rw [plug_cons, Frame.fill, eachShare_branch, List.forall_mem_append,
      List.forall_mem_cons] at h ⊢
    obtain ⟨hbefore, ⟨hhere, hbelow⟩, hafter⟩ := h
    exact ⟨hbefore, ⟨hhole hhere, ih hbelow⟩, hafter⟩

@[simp] theorem groups_inner (n : Node α) (o : Orientation) : (n.inner o).groups = n.groups := by
  rw [inner]
  split <;> simp

@[simp] theorem size_inner (n : Node α) (o : Orientation) : (n.inner o).size = Share.whole := by
  rw [inner]
  split <;> simp

@[simp] theorem groups_joined (child : Node α) (h : Header) (cs : Forest α) :
    (child.joined h cs).groups = child.groups := by
  rw [joined, joining]
  split <;> simp

/-- A graft brings in the shares of the child and one more share, for the child itself. -/
theorem EachShare.graft {h : Header} {cs : Forest α} {child : Node α}
    (hcs : (branch h cs).EachShare P) (hchild : child.EachShare P)
    (hsize : P (child.joined h cs).size) (i : Nat) : ((branch h cs).graft i child).EachShare P := by
  rw [eachShare_branch] at hcs
  rw [graft_branch, eachShare_branch, forall_mem_take_cons_drop]
  refine ⟨⟨hsize, ?_⟩, hcs⟩
  rwa [EachShare, groups_joined]

theorem EachShare.dropChild {n : Node α} (hn : n.EachShare P) (id : NodeId) (start : Nat) :
    (n.dropChild id start).EachShare P ∧ (n.dropChild id start).size = n.size := by
  rw [Node.dropChild]
  split
  · next child rest hdrop =>
    cases n with
    | leaf h d => cases hdrop
    | branch h cs =>
      obtain ⟨i, -, hdrop⟩ := Option.bind_eq_some_iff.mp hdrop
      obtain ⟨c, -, hdrop⟩ := Option.bind_eq_some_iff.mp hdrop
      cases hdrop
      rw [eachShare_branch] at hn ⊢
      exact ⟨fun c hc => hn c (List.mem_of_mem_eraseIdx hc), rfl⟩
  · exact ⟨hn, rfl⟩

theorem EachShare.getD_update? {n : Node α} {id : NodeId} {f : Node α → Node α}
    (hn : n.EachShare P)
    (hf : ∀ m, m.EachShare P → (f m).EachShare P ∧ (P m.size → P (f m).size)) :
    ((n.update? id f).getD n).EachShare P := by
  cases h : n.find? id with
  | none =>
    rw [update?_eq_none (find?_eq_none.mp h), Option.getD_none]
    exact hn
  | some m =>
    obtain ⟨rfl, c, rfl, hc⟩ := exists_plug_of_find? h
    obtain ⟨hm, hsize⟩ := hf m (hn.of_mem_nodes (mem_nodes_plug c m))
    rw [update?_plug _ hc, Option.getD_some]
    exact hn.plug hsize hm

theorem EachShare.dropStale {n : Node α} (hn : n.EachShare P) (id : NodeId)
    (oldParent : Option NodeId) (start : Nat) : (n.dropStale id oldParent start).EachShare P := by
  cases oldParent with
  | none => exact hn
  | some parent =>
    refine hn.getD_update? fun m hm => ?_
    obtain ⟨hdrop, hsize⟩ := hm.dropChild id start
    exact ⟨hdrop, fun h => hsize ▸ h⟩

/-- Resizing by shares with a property keeps it throughout. -/
theorem EachShare.foldl_resized {shares : List Resize} {n : Node α} (hn : n.EachShare P)
    (hshares : ∀ r ∈ shares, P r.size) : (shares.foldl resized n).EachShare P := by
  induction shares generalizing n with
  | nil => exact hn
  | cons r shares ih =>
    rw [List.forall_mem_cons] at hshares
    refine ih (hn.getD_update? fun m hm => ⟨?_, fun _ => ?_⟩) hshares.2
    · rwa [EachShare, groups_withSize]
    · rw [size_withSize]
      exact hshares.1

/-- A swap leaves the shares to the places. -/
theorem Apart.eachShare_swapAt {n a b : Node α} {p q : Path} (h : n.Apart p q a b)
    (hn : n.EachShare P) : (n.swapAt p q a b).EachShare P := by
  have hset : ∀ {m k new : Node α} {p : Path}, m.EachShare P → m.at? p = some k →
      new.EachShare P → new.size = k.size → (setAt new p m).EachShare P := by
    intro m k new p hm hk hnew hsize
    obtain ⟨c, rfl, hplug⟩ := exists_plug_of_at? hk
    rw [hplug]
    exact hm.plug (fun hP => hsize ▸ hP) hnew
  have hplace : ∀ {m place : Node α}, m.EachShare P → (m.inPlaceOf place).EachShare P := by
    intro m place hm
    rwa [EachShare, inPlaceOf, groups_orient, groups_withSize]
  have ha := hn.of_mem_nodes (mem_nodes_of_at? h.at_first)
  have hb := hn.of_mem_nodes (mem_nodes_of_at? h.at_second)
  have hfirst := hset hn h.at_first (hplace hb) (size_inPlaceOf b a)
  rw [swapAt_eq]
  refine hset hfirst ?_ (hplace ha) (size_inPlaceOf a b)
  rw [at?_setAt h.part, h.at_second]

/-! ## 3. Balancing -/

@[simp] theorem groups_inherit (n : Node α) (place : Header) :
    (n.inherit place).groups = n.groups := by
  rw [inherit]
  split <;> simp

theorem map_size_filterMap_prune? (cs : Forest α) :
    ((cs.filterMap prune?).map size).Sublist (cs.map size) := by
  induction cs with
  | nil => exact .slnil
  | cons c cs ih =>
    cases h : c.prune? with
    | none =>
      rw [List.filterMap_cons_none h]
      exact ih.cons _
    | some k =>
      rw [List.filterMap_cons_some h, List.map_cons, List.map_cons, size_of_prune? h]
      exact ih.cons_cons _

/-- Whether a group is what normalizing makes of a part of a group of the tree. -/
def Settles (n : Node α) (g : List Float32) : Prop :=
  ∃ g', g = Share.normalize g' ∧ ∃ old ∈ n.groups, g'.Sublist old

theorem settles_of_prune? {n k : Node α} (h : n.prune? = some k) : ∀ g ∈ k.groups, n.Settles g := by
  induction n generalizing k with
  | leaf hd d =>
    cases h
    intro g hg
    obtain rfl := List.mem_singleton.mp hg
    exact ⟨[], (Forest.normalized_nil (α := α)).symm, [], hg, .slnil⟩
  | branch hd cs ih =>
    -- what is kept of the children has settled groups
    have hbelow : ∀ g ∈ (cs.filterMap prune?).flatMap groups, (branch hd cs).Settles g := by
      intro g hg
      obtain ⟨k', hk', hg⟩ := List.mem_flatMap.mp hg
      obtain ⟨c, hc, hprune⟩ := List.mem_filterMap.mp hk'
      obtain ⟨g', hg', old, hold, hsub⟩ := ih c hc hprune g hg
      refine ⟨g', hg', old, ?_, hsub⟩
      rw [groups_branch]
      exact List.mem_cons_of_mem _ (List.mem_flatMap.mpr ⟨c, hc, hold⟩)
    rw [prune?_branch] at h
    split at h
    · cases h
    · next only honly =>
      cases h
      intro g hg
      refine hbelow g ?_
      rw [honly, List.flatMap_singleton]
      rwa [groups_inherit] at hg
    · cases h
      intro g hg
      rw [groups_branch, Forest.map_size_normalize, Forest.flatMap_normalize groups_withSize,
        List.mem_cons] at hg
      rcases hg with rfl | hg
      · refine ⟨_, rfl, cs.map size, ?_, map_size_filterMap_prune? cs⟩
        rw [groups_branch]
        exact List.mem_cons_self
      · exact hbelow g hg

/-- Each group of a balanced tree is a rescaled part of a group before. -/
theorem settles_of_balance? {n k : Node α} (h : n.balance? = some k) :
    ∀ g ∈ k.groups, n.Settles g := by
  obtain ⟨m, hm, rfl⟩ := Option.map_eq_some_iff.mp h
  rw [groups_orient]
  exact settles_of_prune? hm

/-! ## 4. Grafting among moderate shares -/

/-- Whether the groups of the tree leave room for taking their means and for scaling them. -/
def Roomy (n : Node α) : Prop :=
  ∀ g ∈ n.groups, g.length ≤ 2 ^ 24 ∧
    ∀ x ∈ g, Share.Within (2 ^ (-60 : ℤ)) (2 ^ (60 : ℤ)) x

theorem Roomy.eachShare {n : Node α} (h : n.Roomy) : n.EachShare Share.Scalable :=
  fun g hg x hx _ => (h g hg).2 x hx

theorem Roomy.of_mem_nodes {m n : Node α} (h : n.Roomy) (hm : m ∈ n.nodes) : m.Roomy := by
  intro g hg
  obtain ⟨k, hk, rfl⟩ := List.mem_map.mp hg
  exact h _ (List.mem_map_of_mem (mem_nodes_trans hk hm))

/-- Below the root every node has a share with the property. -/
theorem EachShare.eq_or_size {m n : Node α} (h : n.EachShare P) (hm : m ∈ n.nodes) :
    m = n ∨ P m.size := by
  induction n with
  | leaf hd d => exact .inl (List.mem_singleton.mp hm)
  | branch hd cs ih =>
    rw [nodes_branch, List.mem_cons, List.mem_flatMap] at hm
    rw [eachShare_branch] at h
    rcases hm with rfl | ⟨c, hc, hm⟩
    · exact .inl rfl
    · obtain ⟨hsize, hbelow⟩ := h c hc
      rcases ih c hc hbelow hm with rfl | hm
      · exact .inr hsize
      · exact .inr hm

/-- The size a newcomer is given among its siblings can be rescaled. -/
theorem scalable_joined {h : Header} {cs : Forest α} {child : Node α} (hcs : (branch h cs).Roomy)
    (hchild : Share.Scalable child.size) : Share.Scalable (child.joined h cs).size := by
  rw [joined, joining]
  split
  · rwa [size_orient]
  · next hne =>
    obtain ⟨hlen, hsizes⟩ := hcs (cs.map size) (by rw [groups_branch]; exact List.mem_cons_self)
    rw [size_withSize]
    intro _
    refine Share.within_mean (by norm_num) (by norm_num) (by norm_num) ?_ hlen hsizes
    simpa using hne

/-- A node as the only child of a new branch. -/
theorem roomy_inner {n : Node α} (hn : n.Roomy) (o : Orientation) (h : Header) :
    (branch h [n.inner o]).Roomy := by
  intro g hg
  rw [groups_branch, List.flatMap_singleton, groups_inner, List.mem_cons] at hg
  rcases hg with rfl | hg
  · have hone : Share.Within (2 ^ (-60 : ℤ)) (2 ^ (60 : ℤ)) Share.whole :=
      ⟨100, Share.hasValue_whole, by norm_num, by norm_num⟩
    rw [List.map_singleton, size_inner, List.forall_mem_singleton]
    exact ⟨by norm_num, hone⟩
  · exact hn g hg

theorem scalable_graft {h : Header} {cs : Forest α} {child : Node α} (hcs : (branch h cs).Roomy)
    (hchild : child.EachShare Share.Scalable) (hsize : Share.Scalable child.size) (i : Nat) :
    ((branch h cs).graft i child).EachShare Share.Scalable :=
  hcs.eachShare.graft hchild (scalable_joined hcs hsize) i

/-- Placing a child keeps all shares scalable. -/
theorem Placed.eachShare {root child : Node α} {i : Nat} {ids : IdSupply} {goal : Goal}
    {r : Node α × IdSupply} (hr : root.Placed i child ids goal r) (hroot : root.Roomy)
    (hchild : child.EachShare Share.Scalable) (hsize : Share.Scalable child.size) :
    r.1.EachShare Share.Scalable := by
  cases hr with
  | @joins c h cs heq hc =>
    subst heq
    have hgraft := scalable_graft (hroot.of_mem_nodes (mem_nodes_plug c _)) hchild hsize i
    exact hroot.eachShare.plug (fun hP => hP) hgraft
  | @splits c h d heq hc =>
    subst heq
    have hinner := roomy_inner (hroot.of_mem_nodes (mem_nodes_plug c _)) h.orientation
      ⟨ids.peek, h.orientation, h.size, h.visible⟩
    exact hroot.eachShare.plug (fun hP => hP) (scalable_graft hinner hchild hsize i)
  | crosses =>
    rw [wrap_eq]
    exact scalable_graft (roomy_inner hroot _ _) hchild hsize i

end Node

/-! ## 5. Steps -/

namespace State

open Node

def groups (s : State α) : List (List Float32) :=
  s.root.elim [] Node.groups

theorem carried_scalable {b : Action α} {node : Node α} (h : b.carried? = some node)
    (hb : ∀ x ∈ b.shares, Share.Scalable x) :
    node.EachShare Share.Scalable ∧ Share.Scalable node.size := by
  have hnodes : ∀ m ∈ node.nodes, Share.Scalable m.size := by
    cases b with
    | move | insert =>
      cases h
      exact List.forall_mem_map.mp hb
    | _ => cases h
  refine ⟨eachShare_iff.mpr fun m hm c hc => ?_, hnodes node (self_mem_nodes node)⟩
  exact hnodes c (mem_nodes_trans (mem_nodes_of_mem_children hc) hm)

/-- What an edit that plants, grafts, moves or deletes leaves to be balanced. -/
theorem Edited.scalable {s : State α} {b : Action α} {tree : Node α} {ids : IdSupply}
    (h : s.Edited b (some tree) ids) (hb : b.rearranges = false)
    (hs : ∀ root, s.root = some root → root.Roomy) (hshares : ∀ x ∈ b.shares, Share.Scalable x) :
    tree.EachShare Share.Scalable := by
  cases h with
  | plant hcarried hroot => exact (carried_scalable hcarried hshares).1
  | graft hcarried hroot hgoal hnew hr =>
    obtain ⟨hchild, hsize⟩ := carried_scalable hcarried hshares
    exact hr.eachShare (hs _ hroot) hchild hsize
  | @relocate parent atRoot i root node k p goal r hroot hgoal hk hp hout hr =>
    -- the node that moves has a parent, so it is not the top node and its size is a share
    have hchild := (hs root hroot).eachShare.of_mem_nodes (mem_nodes_of_find? hk)
    have hsize := (hs root hroot).eachShare.eq_or_size (mem_nodes_of_find? hk)
    have htop : k ≠ root := by
      rintro rfl
      rw [parent?_eq_none.mpr (.inl (id_of_find? hk).symm)] at hp
      cases hp
    exact (hr.eachShare (hs root hroot) hchild (hsize.resolve_left htop)).dropStale _ _ _
  | delete hroot hk hp htree =>
    obtain ⟨c, rfl, -, hupdate⟩ := exists_plug_of_parent? hp
    rw [hupdate, Option.some.injEq] at htree
    have hroot := (hs _ hroot).eachShare
    obtain ⟨hdrop, hsize⟩ := (hroot.of_mem_nodes (mem_nodes_plug c _)).dropChild _ 0
    exact htree ▸ hroot.plug (fun hP => hsize ▸ hP) hdrop
  | rearrange hrearranges => rw [hb] at hrearranges; cases hrearranges

/-- No edit with scalable shares brings one in that is not. -/
theorem edit_scalable {s r : State α} {b : Action α} (hb : b.isEdit) (h : s.edit b = .ok r)
    (hs : ∀ root, s.root = some root → root.Roomy) (hshares : ∀ x ∈ b.shares, Share.Scalable x) :
    ∀ tree, r.root = some tree → tree.EachShare Share.Scalable := by
  intro tree htree
  cases b with
  | move parent atRoot i node => exact (htree ▸ move_edited h).scalable rfl hs hshares
  | insert node magnified focused => exact (htree ▸ insert_edited h).scalable rfl hs hshares
  | delete id => exact (htree ▸ delete_edited h).scalable rfl hs hshares
  | swap first second =>
    obtain ⟨root, p, q, a, b, hroot, -, -, hapart, rfl⟩ := swap_eq_ok_iff.mp h
    cases htree
    exact hapart.eachShare_swapAt (hs root hroot).eachShare
  | resize shares =>
    obtain ⟨root, hroot, h⟩ := bind_eq_ok h
    obtain ⟨-, -, h⟩ := bind_eq_ok h
    cases h
    cases htree
    have hroot := (hs root (rootOf_eq_ok hroot)).eachShare
    exact hroot.foldl_resized (List.forall_mem_map.mp hshares)
  | _ => cases hb

theorem mem_groups {s : State α} {g : List Float32} :
    g ∈ s.groups ↔ ∃ root, s.root = some root ∧ g ∈ root.groups := by
  rw [groups]
  cases s.root <;> simp

theorem settles_of_settle {s : State α} {g : List Float32} (hg : g ∈ s.settle.groups) :
    ∃ tree, s.root = some tree ∧ tree.Settles g := by
  obtain ⟨root, hroot, hg⟩ := mem_groups.mp hg
  obtain ⟨tree, htree, hbalance⟩ := Option.bind_eq_some_iff.mp hroot
  exact ⟨tree, htree, settles_of_balance? hbalance g hg⟩

/-- A settled group of up to 2^24 scalable shares has only usable ones. -/
theorem usable_of_settles {n : Node α} {g : List Float32} (h : n.Settles g)
    (hn : n.EachShare Share.Scalable) (hlen : g.length ≤ 2 ^ 24) : ∀ x ∈ g, Share.usable x := by
  obtain ⟨g', rfl, old, hold, hsub⟩ := h
  rw [Share.length_normalize] at hlen
  exact Share.usable_normalize hlen fun x hx => hn old hold x (hsub.subset hx)

theorem usable_of_perform {s t : State α} {b : Action α} (h : s.perform b = .ok t)
    (hs : ∀ root, s.root = some root → root.Roomy) (hshares : ∀ x ∈ b.shares, Share.Scalable x) :
    ∀ g ∈ t.groups, g.length ≤ 2 ^ 24 → ∀ x ∈ g, Share.usable x := by
  intro g hg hlen
  by_cases hb : b.isEdit
  · obtain ⟨r, hr, rfl⟩ := perform_edit hb h
    obtain ⟨tree, htree, hsettles⟩ := settles_of_settle hg
    exact usable_of_settles hsettles (edit_scalable hb hr hs hshares tree htree) hlen
  · obtain ⟨⟨hroot, -⟩, -⟩ := perform_other (Bool.eq_false_iff.mpr hb) h
    obtain ⟨root, hroot', hg⟩ := mem_groups.mp hg
    exact fun x hx => ((hs root (hroot ▸ hroot') g hg).2 x hx).usable

def Scaled (s : State α) : Prop :=
  ∀ g ∈ s.groups, ∃ g', g = Share.normalize g'

/-- One action keeps the shares of a state scaled. -/
theorem Scaled.perform {s t : State α} {b : Action α} (hs : s.Scaled) (h : s.perform b = .ok t) :
    t.Scaled := by
  by_cases hb : b.isEdit
  · obtain ⟨r, -, rfl⟩ := perform_edit hb h
    intro g hg
    obtain ⟨tree, -, g', hg', -⟩ := settles_of_settle hg
    exact ⟨g', hg'⟩
  · obtain ⟨⟨hroot, -⟩, -⟩ := perform_other (Bool.eq_false_iff.mpr hb) h
    rwa [Scaled, groups, hroot]

end State

/-- Every reachable state has scaled shares. -/
theorem Reachable.scaled {s : State α} (h : Reachable s) : s.Scaled := by
  induction h with
  | empty => exact nofun
  | ofRoot root =>
    intro g hg
    obtain ⟨tree, htree, hg⟩ := State.mem_groups.mp hg
    obtain ⟨g', hg', -⟩ := Node.settles_of_balance? htree g hg
    exact ⟨g', hg'⟩
  | call c _ ih =>
    exact State.call_invariant (fun _ _ _ hs h => hs.perform h) (fun _ hs => hs) (fun _ hs => hs)
      (fun _ _ hs => hs) ih c

/-- No share of a reachable state is negative or not a number. From a state with moderate shares, an
action whose shares are moderate where they can stand leaves shares that can stand, whether it is
accepted or not, and so does a tree to start from. -/
theorem moderate_shares_stay_usable :
    (∀ s : State α, Reachable s → ∀ g ∈ s.groups, g.length ≤ 2 ^ 24 → ∀ x ∈ g, 0.0 ≤ x) ∧
    (∀ n : Node α, n.EachShare (fun x => Share.usable x → Share.moderate x) →
      ∀ g ∈ (State.ofRoot n).groups, g.length ≤ 2 ^ 24 → ∀ x ∈ g, Share.usable x) ∧
    ∀ (s : State α) (a : Action α),
      (∀ g ∈ s.groups, g.length ≤ 2 ^ 24 ∧ ∀ x ∈ g, Share.moderate x) →
      (∀ x ∈ (s.performed a).shares, Share.usable x → Share.moderate x) →
      ∀ g ∈ (s.step a).1.groups, g.length ≤ 2 ^ 24 → ∀ x ∈ g, Share.usable x := by
  have hscalable : ∀ x : Float32, (Share.usable x → Share.moderate x) → Share.Scalable x :=
    fun x hx hu => Share.within_of_moderate (hx hu)
  refine ⟨?_, ?_, ?_⟩
  · intro s hs g hg hlen
    obtain ⟨g', rfl⟩ := hs.scaled g hg
    exact Share.nonneg_normalize (Share.length_normalize g' ▸ hlen)
  · intro n hn g hg hlen
    obtain ⟨root, hroot, hg⟩ := State.mem_groups.mp hg
    exact State.usable_of_settles (Node.settles_of_balance? hroot g hg) (hn.imp hscalable) hlen
  · intro s a hs hshares g hg hlen
    have hroomy : ∀ root, (s.taken a).root = some root → root.Roomy := by
      intro root hroot k hk
      rw [(s.taken_keeps a).1] at hroot
      obtain ⟨hlength, hsizes⟩ := hs k (State.mem_groups.mpr ⟨root, hroot, hk⟩)
      exact ⟨hlength, fun x hx => Share.within_of_moderate (hsizes x hx)⟩
    by_cases haccepted : (s.step a).2 = none
    · exact State.usable_of_perform (State.step_accepted haccepted) hroomy
        (fun x hx => hscalable x (hshares x hx)) g hg hlen
    · rw [State.step_rejected haccepted] at hg
      obtain ⟨root, hroot, hg⟩ := State.mem_groups.mp hg
      exact fun x hx => ((hroomy root hroot g hg).2 x hx).usable

/-- A carried size that is not a number, next to a share of three in four. -/
theorem unsound_size_is_repaired :
    ∃ (s : State Unit) (a : Action Unit), Reachable s ∧ (s.step a).2 = none ∧
      (∀ x ∈ (s.performed a).shares, Share.usable x → Share.moderate x) ∧
      (∀ g ∈ s.groups, ∀ x ∈ g, 0.0 ≤ x ∧ Share.usable x) ∧
      ∀ g ∈ (s.step a).1.groups, ∀ x ∈ g, Share.usable x := by
  let root : Node Unit := .branch { id := ⟨1⟩ }
    [.leaf { id := ⟨2⟩, size := 1.0 } (), .leaf { id := ⟨3⟩, size := 3.0 } ()]
  let s : State Unit := .ofRoot root
  let a : Action Unit := .insert (.leaf { id := ⟨4⟩, size := 0.0 / 0.0 } ()) false false
  obtain ⟨hnonneg, hstart, hstep⟩ := moderate_shares_stay_usable (α := Unit)
  have hreachable : Reachable s := .ofRoot root
  have hroot : root.EachShare fun x => Share.usable x → Share.moderate x := by
    unfold Node.EachShare
    decide +kernel
  have hlengths : ∀ g ∈ s.groups, g.length ≤ 2 ^ 24 := by decide +kernel
  have hmoderate : ∀ g ∈ s.groups, g.length ≤ 2 ^ 24 ∧ ∀ x ∈ g, Share.moderate x := by
    decide +kernel
  have hcarried : ∀ x ∈ (s.performed a).shares, Share.usable x → Share.moderate x := by
    decide +kernel
  have hlengths' : ∀ g ∈ (s.step a).1.groups, g.length ≤ 2 ^ 24 := by decide +kernel
  refine ⟨s, a, hreachable, by decide +kernel, hcarried, ?_, ?_⟩
  · intro g hg x hx
    have hlength := hlengths g hg
    exact ⟨hnonneg s hreachable g hg hlength x hx, hstart root hroot g hg hlength x hx⟩
  · exact fun g hg => hstep s a hmoderate hcarried g hg (hlengths' g hg)

/-- Shares far below the moderate ones pass the check, and their scale overflows. -/
theorem tiny_shares_become_infinite :
    let root : Node Unit := .branch { id := ⟨1⟩ } [.leaf { id := ⟨2⟩ } (), .leaf { id := ⟨3⟩ } ()]
    let tiny : Action Unit := .resize [⟨⟨2⟩, 1e-40⟩, ⟨⟨3⟩, 1e-40⟩]
    let s := (State.ofRoot root).call (.perform tiny)
    Reachable s ∧ ((State.ofRoot root).step tiny).2 = none ∧
      ∃ g ∈ s.groups, ∃ x ∈ g, Share.usable x = false := by
  intro root tiny s
  exact ⟨.call _ (.ofRoot root), by decide +kernel, by decide +kernel⟩

end Tiling
