import Tiling.Proofs.Attention
import Tiling.Proofs.DropOrder
import Tiling.Proofs.Generation
import Tiling.Proofs.Headers
import Mathlib.Logic.Function.Iterate

/-!
# Closing panes in any order

What is left of a tree when some of its leaves go is the tree that the other leaves span. A single
deletion may take a branch away and move its last child up, but the tree that it leaves is, up to
sizes and orientations, the one that the remaining leaves span; so several deletions lead to the
same tree in any order, and the focus and the magnification end at the same nodes.
-/

namespace Tiling

variable {α : Type}

open Context

/-! ## 1. The tree that some of the leaves span -/

mutual

def Node.span? (p : NodeId → Bool) : Node α → Option (Node α)
  -- Branches without such leaves go, and an only child takes the place of its parent.
  | .leaf h d => if p h.id then some (.leaf h d) else none
  | .branch h cs =>
      match Forest.span p cs with
      | [] => none
      | [only] => some only
      | kept => some (.branch h kept)

def Forest.span (p : NodeId → Bool) : Forest α → Forest α
  | [] => []
  | c :: cs =>
      match c.span? p with
      | some c' => c' :: Forest.span p cs
      | none => Forest.span p cs

end

theorem Forest.span_eq_filterMap (p : NodeId → Bool) (cs : Forest α) :
    Forest.span p cs = cs.filterMap (Node.span? p) := by
  induction cs with
  | nil => rfl
  | cons c cs ih =>
    rw [Forest.span, List.filterMap_cons, ih]
    cases c.span? p <;> rfl

namespace Node

def spanned? (h : Header) : Forest α → Option (Node α)
  | [] => none
  | [only] => some only
  | kept => some (branch h kept)

theorem span?_leaf (p : NodeId → Bool) (h : Header) (d : α) :
    (leaf h d).span? p = if p h.id then some (leaf h d) else none := rfl

/-- The spanned tree of a branch comes from those of its children. -/
theorem span?_branch (p : NodeId → Bool) (h : Header) (cs : Forest α) :
    (branch h cs).span? p = spanned? h (cs.filterMap (span? p)) := by
  rw [span?, Forest.span_eq_filterMap]
  rfl

/-- Only the identifiers in the tree count. -/
theorem span?_congr {p q : NodeId → Bool} {n : Node α} (h : ∀ id ∈ n.ids, p id = q id) :
    n.span? p = n.span? q := by
  induction n with
  | leaf hd d => rw [span?_leaf, span?_leaf, h hd.id (by simp)]
  | branch hd cs ih =>
    rw [span?_branch, span?_branch]
    refine congrArg (spanned? hd) (List.filterMap_congr fun c hc => ih c hc fun id hid => h id ?_)
    exact mem_ids_trans hid (mem_nodes_of_mem_children hc)

/-- To span a branch by fewer leaves is to span its children by them first. -/
theorem spanned?_bind (h : Header) (kept : Forest α) (q : NodeId → Bool) :
    (spanned? h kept).bind (span? q) = spanned? h (kept.filterMap (span? q)) := by
  match kept with
  | [] => rfl
  | [only] =>
    rw [spanned?, Option.bind_some, List.filterMap_cons]
    cases only.span? q <;> rfl
  | a :: b :: cs => exact span?_branch q h (a :: b :: cs)

/-- Some leaves of the tree that some leaves span. -/
theorem span?_bind (p q : NodeId → Bool) (n : Node α) :
    (n.span? p).bind (span? q) = n.span? fun id => p id && q id := by
  induction n with
  | leaf h d =>
    rw [span?_leaf, span?_leaf]
    cases hp : p h.id <;> simp [span?_leaf]
  | branch h cs ih =>
    rw [span?_branch, span?_branch, spanned?_bind, List.filterMap_filterMap]
    exact congrArg (spanned? h) (List.filterMap_congr ih)

/-- Two trees that differ in a hole, where outside the hole the same leaves count. -/
theorem span?_plug {p q : NodeId → Bool} {c : Context α} {m k : Node α}
    (hbefore : ∀ id ∈ idsBefore c, p id = q id) (hafter : ∀ id ∈ idsAfter c, p id = q id)
    (h : m.span? p = k.span? q) : (plug c m).span? p = (plug c k).span? q := by
  induction c with
  | nil => exact h
  | cons f c ih =>
    rw [idsBefore, List.forall_mem_cons, List.forall_mem_append] at hbefore
    rw [idsAfter, List.forall_mem_append] at hafter
    have hbeside : ∀ l : Forest α, (∀ id ∈ l.flatMap ids, p id = q id) →
        l.filterMap (span? p) = l.filterMap (span? q) := fun l hl =>
      List.filterMap_congr fun n hn => span?_congr fun id hid =>
        hl id (List.mem_flatMap.mpr ⟨n, hn, hid⟩)
    rw [plug_cons, plug_cons, Frame.fill, Frame.fill, span?_branch, span?_branch,
      List.filterMap_append, List.filterMap_append, List.filterMap_cons, List.filterMap_cons,
      ih hbefore.2.2 hafter.1, hbeside _ hbefore.2.1, hbeside _ hafter.2]

/-- Which tree is spanned does not depend on what headers hold besides identifiers. -/
theorem mapHeaders_span? {f : Header → Header} (hf : ∀ h, (f h).id = h.id) (p : NodeId → Bool)
    (n : Node α) : (n.mapHeaders f).span? p = (n.span? p).map (mapHeaders f) := by
  induction n with
  | leaf h d =>
    rw [mapHeaders_leaf, span?_leaf, span?_leaf, hf]
    cases p h.id <;> rfl
  | branch h cs ih =>
    have hkept : (cs.map (mapHeaders f)).filterMap (span? p) =
        (cs.filterMap (span? p)).map (mapHeaders f) := by
      rw [List.filterMap_map, List.map_filterMap]
      exact List.filterMap_congr ih
    rw [mapHeaders_branch, span?_branch, span?_branch, hkept]
    match cs.filterMap (span? p) with
    | [] => rfl
    | [only] => rfl
    | a :: b :: cs => simp [spanned?]

/-- The nodes of the spanned tree come from branches and from leaves in `p`. -/
theorem ids_span?_sublist (p : NodeId → Bool) (n : Node α) :
    ((n.span? p).toList.flatMap ids).Sublist
      ((n.nodes.filter fun m => !m.isLeaf || p m.id).map id) := by
  induction n with
  | leaf h d =>
    rw [span?_leaf, nodes_leaf]
    cases hp : p h.id <;> simp [hp]
  | branch h cs ih =>
    have hkept : ((cs.filterMap (span? p)).flatMap ids).Sublist
        (((cs.flatMap nodes).filter fun m => !m.isLeaf || p m.id).map id) := by
      rw [List.filterMap_eq_flatMap_toList, List.flatMap_assoc, List.filter_flatMap,
        List.map_flatMap]
      clear * - ih
      induction cs with
      | nil => exact .slnil
      | cons c cs ihcs =>
        rw [List.forall_mem_cons] at ih
        exact ih.1.append (ihcs ih.2)
    rw [span?_branch, nodes_branch, List.filter_cons_of_pos (by simp), List.map_cons]
    match cs.filterMap (span? p), hkept with
    | [], _ => exact List.nil_sublist _
    | [only], hkept =>
      rw [List.flatMap_singleton] at hkept
      simpa [spanned?] using hkept.cons h.id
    | a :: b :: cs, hkept => simpa [spanned?] using hkept.cons_cons h.id

theorem ids_sublist_of_span? {p : NodeId → Bool} {m n : Node α} (h : n.span? p = some m) :
    m.ids.Sublist n.ids := by
  have hsub := ids_span?_sublist p n
  rw [h, Option.toList_some, List.flatMap_singleton] at hsub
  exact hsub.trans (List.filter_sublist.map id)

theorem exists_leaf_of_mem_leafIds {n : Node α} {x : NodeId} (h : x ∈ n.leafIds) :
    ∃ m ∈ n.nodes, m.isLeaf ∧ m.id = x := by
  obtain ⟨m, hm, hid⟩ := List.mem_map.mp h
  exact ⟨m, List.mem_of_mem_filter hm, List.of_mem_filter hm, hid⟩

/-- A leaf outside `p` is gone from the spanned tree, and no branch takes its identifier. -/
theorem not_mem_ids_of_span? {p : NodeId → Bool} {m n : Node α} (hd : n.ids.Nodup)
    (h : n.span? p = some m) {x : NodeId} (hx : x ∈ n.leafIds) (hp : p x = false) :
    x ∉ m.ids := by
  intro hmem
  have hsub := ids_span?_sublist p n
  rw [h, Option.toList_some, List.flatMap_singleton] at hsub
  obtain ⟨k, hk, rfl⟩ := List.mem_map.mp (hsub.subset hmem)
  obtain ⟨l, hl, hleaf, hid⟩ := exists_leaf_of_mem_leafIds hx
  have hkn := List.mem_of_mem_filter hk
  obtain rfl := eq_of_id_eq hd hl hkn hid
  have hkept := List.of_mem_filter hk
  rw [hleaf, hp] at hkept
  exact Bool.false_ne_true hkept

/-- The spanned tree has just the leaves that it is spanned by. -/
theorem leafIds_span? (p : NodeId → Bool) (n : Node α) :
    (n.span? p).toList.flatMap leafIds = n.leafIds.filter p := by
  induction n with
  | leaf h d =>
    rw [span?_leaf, leafIds_leaf]
    cases hp : p h.id <;> simp [hp]
  | branch h cs ih =>
    have hkept : (cs.filterMap (span? p)).flatMap leafIds = (cs.flatMap leafIds).filter p := by
      rw [List.filterMap_eq_flatMap_toList, List.flatMap_assoc, List.filter_flatMap]
      exact List.flatMap_congr ih
    rw [span?_branch, leafIds_branch, ← hkept]
    match cs.filterMap (span? p) with
    | [] => rfl
    | [only] => simp [spanned?]
    | a :: b :: cs => simp [spanned?]

/-- All leaves of a forked tree span the whole tree. -/
theorem Forked.span?_eq {n : Node α} (h : n.Forked) : n.span? (fun _ => true) = some n := by
  induction n with
  | leaf hd d => rfl
  | branch hd cs ih =>
    obtain ⟨htwo, hcs⟩ := forked_branch.mp h
    have hkept : cs.filterMap (span? fun _ => true) = cs := by
      rw [List.filterMap_congr fun c hc => ih c hc (hcs c hc), List.filterMap_some]
    rw [span?_branch, hkept]
    match cs, htwo with
    | _ :: _ :: _, _ => rfl

/-! ## 2. Balancing up to sizes and orientations -/

end Node

def Header.shape (h : Header) : Header :=
  { h with orientation := .row, size := Share.whole }

namespace Node

/-- The tree with all sizes and orientations forgotten. -/
def shape (n : Node α) : Node α :=
  n.mapHeaders Header.shape

theorem shape_inherit (n : Node α) (place : Header) : (n.inherit place).shape = n.shape := by
  cases n <;> rfl

theorem shape_withSize (n : Node α) (size : Float32) : (n.withSize size).shape = n.shape := by
  cases n <;> rfl

theorem shape_orient (o : Orientation) (n : Node α) : (n.orient o).shape = n.shape := by
  induction n generalizing o with
  | leaf h d => rfl
  | branch h cs ih =>
    rw [orient, Forest.orient_eq_map, shape, mapHeaders_branch, shape, mapHeaders_branch,
      List.map_map]
    exact congrArg _ (List.map_congr_left fun c hc => ih c hc _)

theorem id_header_shape (h : Header) : h.shape.id = h.id := rfl

theorem ids_shape (n : Node α) : n.shape.ids = n.ids :=
  ids_mapHeaders id_header_shape n

theorem leafIds_shape (n : Node α) : n.shape.leafIds = n.leafIds :=
  leafIds_mapHeaders id_header_shape n

theorem span?_shape (p : NodeId → Bool) (n : Node α) :
    n.shape.span? p = (n.span? p).map shape :=
  mapHeaders_span? id_header_shape p n

/-- Up to shape, pruning is spanning by all leaves. -/
theorem shape_prune? (n : Node α) : n.prune?.map shape = n.shape.span? fun _ => true := by
  induction n with
  | leaf h d => rfl
  | branch h cs ih =>
    have hkept : (cs.map shape).filterMap (span? fun _ => true) =
        (cs.filterMap prune?).map shape := by
      rw [List.filterMap_map, List.map_filterMap]
      exact List.filterMap_congr fun c hc => (ih c hc).symm
    have hspan : (branch h cs).shape.span? (fun _ => true) =
        spanned? h.shape ((cs.filterMap prune?).map shape) := by
      rw [shape, mapHeaders_branch, span?_branch]
      exact congrArg _ hkept
    rw [prune?_branch, hspan]
    match cs.filterMap prune? with
    | [] => rfl
    | [only] => exact congrArg some (shape_inherit only h)
    | a :: b :: ks =>
      have hnormal := Forest.map_normalize shape_withSize (a :: b :: ks)
      refine congrArg some ?_
      rw [shape, mapHeaders_branch]
      exact congrArg _ hnormal

/-- Up to shape, balancing is spanning by all leaves. -/
theorem shape_balance? (n : Node α) : n.balance?.map shape = n.shape.span? fun _ => true := by
  rw [← shape_prune?, balance?, Option.map_map]
  exact congrArg (Option.map · n.prune?) (funext fun m => shape_orient _ m)

/-! ## 3. One leaf -/

/-- A leaf below the top can be deleted, and the other leaves span what is left. -/
theorem exists_delete_leaf {n : Node α} (hd : n.ids.Nodup) {x : NodeId} (hx : x ∈ n.leafIds)
    (hne : n.id ≠ x) :
    ∃ tree, n.updateParent? x (fun parent => parent.dropChild x 0) = some tree ∧
      tree.span? (fun _ => true) = n.span? (· ≠ x) := by
  obtain ⟨l, hl, hleaf, hlx⟩ := exists_leaf_of_mem_leafIds hx
  obtain ⟨p, hp⟩ : ∃ p, n.parent? x = some p := by
    rw [← Option.ne_none_iff_exists', Ne, parent?_eq_none]
    rintro (heq | hnot)
    · exact hne heq.symm
    · exact hnot ((leafIds_sublist n).subset hx)
  obtain ⟨c, rfl, ⟨k, hk, hid⟩, hupdate⟩ := exists_plug_of_parent? hp
  have hpn := mem_nodes_plug c p
  have hkn := mem_nodes_trans (mem_nodes_of_mem_children hk) hpn
  obtain rfl := eq_of_id_eq hd hl hkn (hlx.trans hid.symm)
  subst hlx
  have hxp : l.id ∈ p.ids := mem_ids_trans (id_mem_ids l) (mem_nodes_of_mem_children hk)
  obtain ⟨h, u, v, rfl, hu, -⟩ := exists_first_child (nodup_ids_of_mem_nodes hd hpn) hk
  have hdrop := dropChild_branch h [] u v l hu
  rw [List.nil_append, List.nil_append, List.length_nil] at hdrop
  refine ⟨_, (hupdate _).trans (congrArg some (congrArg (plug c) hdrop)), ?_⟩
  rw [ids_plug, List.nodup_append, List.nodup_append] at hd
  obtain ⟨⟨-, hdp, hbefore⟩, -, hafter⟩ := hd
  have hkept : ∀ id ≠ l.id, true = decide (id ≠ l.id) := fun id hid => (decide_eq_true hid).symm
  refine span?_plug (fun id hid => hkept id (hbefore id hid _ hxp))
    (fun id hid => hkept id (hafter _ (List.mem_append_right _ hxp) id hid).symm) ?_
  -- beside the leaf its identifier does not occur
  have hnone : l.span? (· ≠ l.id) = none := by
    cases l with
    | leaf hl d => simp [span?_leaf]
    | branch hl cs => cases hleaf
  rw [ids_branch, List.nodup_cons, List.flatMap_append, List.flatMap_cons, List.nodup_append,
    List.nodup_append] at hdp
  obtain ⟨-, -, ⟨-, -, hlv⟩, hulv⟩ := hdp
  have hbeside : ∀ w : Forest α, (∀ id ∈ w.flatMap ids, id ≠ l.id) →
      w.filterMap (span? fun _ => true) = w.filterMap (span? (· ≠ l.id)) := fun w hw =>
    List.filterMap_congr fun m hm => span?_congr fun id hid =>
      hkept id (hw id (List.mem_flatMap.mpr ⟨m, hm, hid⟩))
  rw [span?_branch, span?_branch, List.filterMap_append, List.filterMap_append,
    List.filterMap_cons_none hnone,
    hbeside u fun id hid => hulv id hid _ (List.mem_append_left _ (id_mem_ids l)),
    hbeside v fun id hid => (hlv _ (id_mem_ids l) id hid).symm]

end Node

namespace State

/-- The tree up to sizes and orientations. -/
def shape (s : State α) : Option (Node α) :=
  s.root.map Node.shape

/-- `t` is what is left of `s` when the leaves outside `p` have been closed. -/
structure ClosedTo (t s : State α) (p : NodeId → Bool) : Prop where
  settled : t.Settled
  shape_eq : t.shape = s.shape.bind (Node.span? p)
  focused_eq : t.focused = t.refocused s.focused
  magnified_eq : t.magnified = s.magnified.filter (· ∈ t.treeIds)
  ids_eq : t.ids = s.ids

theorem treeIds_eq_of_shape (s : State α) : s.treeIds = s.shape.toList.flatMap Node.ids := by
  rw [treeIds, shape]
  cases s.root with
  | none => rfl
  | some n => simp [Node.ids_shape]

/-- The leaf cache of a settled state can be told from its shape. -/
theorem Settled.leafIds_eq {s : State α} (hs : s.Settled) :
    s.leafIds = s.shape.toList.flatMap Node.leafIds := by
  rw [leafIds, hs.leaves_eq, shape]
  cases s.root with
  | none => rfl
  | some n => exact ((Node.leafIds_shape n).symm.trans (List.flatMap_singleton _ _).symm)

theorem Settled.head?_leafIds {s : State α} (hs : s.Settled) :
    s.root.bind Node.firstLeafId? = s.leafIds.head? := by
  rw [leafIds, hs.leaves_eq, List.head?_map]
  exact (head?_leavesOf s.root).symm

theorem Settled.leafIds_subset {s : State α} (hs : s.Settled) : s.leafIds ⊆ s.treeIds := by
  rw [hs.leafIds_eq, treeIds_eq_of_shape]
  cases s.shape with
  | none => exact List.Subset.refl _
  | some n => simpa using (Node.leafIds_sublist n).subset

namespace ClosedTo

variable {s t u : State α} {p q : NodeId → Bool}

theorem treeIds_sublist (h : t.ClosedTo s p) : t.treeIds.Sublist s.treeIds := by
  rw [treeIds_eq_of_shape, treeIds_eq_of_shape, h.shape_eq]
  cases s.shape with
  | none => exact .slnil
  | some n =>
    rw [Option.bind_some]
    cases hn : n.span? p with
    | none => exact List.nil_sublist _
    | some m => simpa using Node.ids_sublist_of_span? hn

/-- After the closings just the leaves that stay are left. -/
theorem leafIds_eq (h : t.ClosedTo s p) (hs : s.Settled) : t.leafIds = s.leafIds.filter p := by
  rw [h.settled.leafIds_eq, hs.leafIds_eq, h.shape_eq]
  cases s.shape with
  | none => rfl
  | some n => simpa using Node.leafIds_span? p n

/-- What has been closed is not in the tree any more. -/
theorem not_mem_treeIds (h : t.ClosedTo s p) (hs : s.Settled) (hd : s.treeIds.Nodup) {x : NodeId}
    (hx : x ∈ s.leafIds) (hp : p x = false) : x ∉ t.treeIds := by
  rw [hs.leafIds_eq] at hx
  rw [treeIds_eq_of_shape] at hd ⊢
  rw [h.shape_eq]
  cases hn : s.shape with
  | none => exact List.not_mem_nil
  | some n =>
    rw [hn, Option.toList_some, List.flatMap_singleton] at hd hx
    rw [Option.bind_some]
    cases hm : n.span? p with
    | none => exact List.not_mem_nil
    | some m => simpa using Node.not_mem_ids_of_span? hd hm hx hp

/-- The focus comes to rest where it would have gone at once: on its way it stops at first leaves
only, and a first leaf that is left is still the first one. -/
theorem refocused_refocused (ht : t.Settled) (hd : t.treeIds.Nodup) (hu : u.ClosedTo t q)
    (focus : Option NodeId) : u.refocused (t.refocused focus) = u.refocused focus := by
  cases focus with
  | none => rfl
  | some id =>
    rw [refocused, refocused, refocused, Option.bind_some, Option.bind_some]
    by_cases hid : id ∈ t.treeIds
    · rw [if_pos hid, Option.bind_some]
    · have hid' : id ∉ u.treeIds := fun h => hid (hu.treeIds_sublist.subset h)
      rw [if_neg hid, if_neg hid', ht.head?_leafIds, hu.settled.head?_leafIds]
      have hleaves := hu.leafIds_eq ht
      cases hfirst : t.leafIds with
      | nil => rw [hleaves, hfirst]; rfl
      | cons l ls =>
        have hl : l ∈ t.leafIds := hfirst ▸ List.mem_cons_self
        rw [List.head?_cons, Option.bind_some]
        cases hq : q l with
        | false => exact if_neg (hu.not_mem_treeIds ht hd hl hq)
        | true =>
          have hmem : l ∈ u.leafIds := hleaves ▸ List.mem_filter.mpr ⟨hl, hq⟩
          rw [if_pos (hu.settled.leafIds_subset hmem), hleaves, hfirst,
            List.filter_cons_of_pos hq, List.head?_cons]

/-- With no leaf closed the state is as it was. -/
theorem refl (hs : s.Settled) (ha : s.Anchored) : s.ClosedTo s fun _ => true where
  settled := hs
  shape_eq := by
    rw [shape]
    cases hroot : s.root with
    | none => rfl
    | some n =>
      rw [Option.map_some, Option.bind_some, Node.span?_shape,
        (hs.forked n hroot).span?_eq, Option.map_some]
  focused_eq := ha.refocused_eq.symm
  magnified_eq := ha.filter_eq.symm
  ids_eq := rfl

/-- Closing some leaves and then others closes all of them. -/
theorem trans (hd : t.treeIds.Nodup) (hu : u.ClosedTo t q) (ht : t.ClosedTo s p) :
    u.ClosedTo s fun id => p id && q id where
  settled := hu.settled
  shape_eq := by
    rw [hu.shape_eq, ht.shape_eq, Option.bind_assoc]
    exact congrArg (s.shape.bind ·) (funext (Node.span?_bind p q))
  focused_eq := by
    rw [hu.focused_eq, ht.focused_eq, refocused_refocused ht.settled hd hu]
  magnified_eq := by
    rw [hu.magnified_eq, ht.magnified_eq, Option.filter_filter]
    refine congrArg (s.magnified.filter ·) (funext fun id => ?_)
    have hsub : id ∈ u.treeIds → id ∈ t.treeIds := fun h => hu.treeIds_sublist.subset h
    by_cases hid : id ∈ u.treeIds <;> simp [hid, hsub]
  ids_eq := hu.ids_eq.trans ht.ids_eq

end ClosedTo

/-! ## 4. Any number of leaves -/

/-- Deleting a leaf leaves the tree that the other leaves span. -/
theorem exists_delete {s : State α} (hs : s.Settled) (hd : s.treeIds.Nodup) {x : NodeId}
    (hx : x ∈ s.leafIds) :
    ∃ r, s.delete x = .ok r ∧
      r.root.bind (Node.span? fun _ => true) = s.root.bind (Node.span? (· ≠ x)) := by
  rw [leafIds, hs.leaves_eq] at hx
  cases hroot : s.root with
  | none => simp [hroot, leavesOf] at hx
  | some root =>
    rw [hroot] at hx
    rw [treeIds_eq hroot] at hd
    rw [delete, rootOf, hroot]
    show ∃ r, (if root.id = x then _ else _) = _ ∧ _
    by_cases hid : root.id = x
    · -- a leaf at the top is the whole tree
      obtain ⟨l, hl, hleaf, hlx⟩ := Node.exists_leaf_of_mem_leafIds hx
      obtain rfl := Node.eq_of_id_eq hd hl (Node.self_mem_nodes root) (hlx.trans hid.symm)
      rw [if_pos hid]
      refine ⟨_, rfl, ?_⟩
      cases l with
      | leaf h d => simp [Node.span?_leaf, ← hid]
      | branch h cs => cases hleaf
    · obtain ⟨tree, htree, hspan⟩ := Node.exists_delete_leaf hd hx hid
      rw [if_neg hid, htree]
      exact ⟨_, rfl, hspan⟩

/-- Deleting a leaf is accepted and closes that leaf only. -/
theorem closedTo_delete {s : State α} (hs : s.Settled) (hd : s.treeIds.Nodup) {x : NodeId}
    (hx : x ∈ s.leafIds) :
    (s.step (.delete x)).2 = none ∧ (s.apply (.delete x)).ClosedTo s (· ≠ x) ∧
      (s.apply (.delete x)).generation = s.generation + 1 := by
  obtain ⟨r, hr, hspan⟩ := exists_delete hs hd hx
  have hperform : s.perform (.delete x) = .ok r.settle := by
    rw [perform, hr]
    rfl
  have hstep : s.step (.delete x) = (r.settle, none) := by
    show s.attempt (.delete x) = _
    rw [attempt, hperform]
  have hwrites := delete_writes hr
  rw [apply, hstep]
  refine ⟨rfl, ⟨settle_settled r, ?_, ?_, ?_, ?_⟩, ?_⟩
  · have hshape : ∀ (root : Option (Node α)) (p : NodeId → Bool),
        (root.map Node.shape).bind (Node.span? p) = (root.bind (Node.span? p)).map Node.shape := by
      rintro (_ | n) p
      · rfl
      · exact Node.span?_shape p n
    show (r.root.bind Node.balance?).map Node.shape = (s.root.map Node.shape).bind _
    rw [hshape, ← hspan, ← hshape, Option.map_bind, Option.bind_map]
    exact congrArg (r.root.bind ·) (funext Node.shape_balance?)
  · rw [settle_focused, hwrites]
  · rw [settle_magnified, hwrites]
  · rw [hwrites]
    rfl
  · rw [hwrites]
    rfl

/-- Leaves that are deleted one after the other. -/
theorem closedTo_deletions {s : State α} (hs : Reachable s) (hd : s.treeIds.Nodup)
    {ids : List NodeId} (hids : ids ⊆ s.leafIds) (hnodup : ids.Nodup) :
    (∀ after ∈ s.trace (ids.map .delete), after.2 = none) ∧
      (s.applyAll (ids.map .delete)).ClosedTo s (· ∉ ids) ∧
      (s.applyAll (ids.map .delete)).generation = (· + 1)^[ids.length] s.generation := by
  induction ids generalizing s with
  | nil =>
    refine ⟨fun after h => absurd h List.not_mem_nil, ?_, rfl⟩
    simpa [applyAll] using ClosedTo.refl hs.settled hs.anchored
  | cons x ids ih =>
    obtain ⟨haccepted, hclosed, hgen⟩ :=
      closedTo_delete hs.settled hd (hids List.mem_cons_self)
    rw [List.nodup_cons] at hnodup
    -- the leaves that are still to be deleted are left
    have hids' : ids ⊆ (s.apply (.delete x)).leafIds := fun id hid => by
      rw [hclosed.leafIds_eq hs.settled, List.mem_filter, decide_eq_true_iff]
      exact ⟨hids (List.mem_cons_of_mem x hid), fun heq => hnodup.1 (heq ▸ hid)⟩
    have hd' := hd.sublist hclosed.treeIds_sublist
    obtain ⟨hrest, hclosed', hgen'⟩ := ih (hs.call (.perform (.delete x))) hd' hids' hnodup.2
    refine ⟨List.forall_mem_cons.mpr ⟨haccepted, hrest⟩, ?_, ?_⟩
    · have htrans := hclosed'.trans hd' hclosed
      simp only [← Bool.decide_and, ← not_or, ← List.mem_cons] at htrans
      exact htrans
    · rw [List.length_cons, Function.iterate_succ_apply, ← hgen]
      exact hgen'

/-- Whether two states have the same tree up to sizes and orientations, the same leaves in the same
order, the same focus and magnification, the same generation and the same supply. -/
structure SameShape (t u : State α) : Prop where
  shape_eq : t.shape = u.shape
  leafIds_eq : t.leafIds = u.leafIds
  focused_eq : t.focused = u.focused
  magnified_eq : t.magnified = u.magnified
  generation_eq : t.generation = u.generation
  ids_eq : t.ids = u.ids

/-- Two states that come from one by closing the same leaves have one shape. -/
theorem ClosedTo.sameShape {s t u : State α} {p : NodeId → Bool} (ht : t.ClosedTo s p)
    (hu : u.ClosedTo s p) (hgen : t.generation = u.generation) : t.SameShape u := by
  have hshape : t.shape = u.shape := ht.shape_eq.trans hu.shape_eq.symm
  have htree : t.treeIds = u.treeIds := by rw [treeIds_eq_of_shape, hshape, treeIds_eq_of_shape]
  have hleaves : t.leafIds = u.leafIds := by
    rw [ht.settled.leafIds_eq, hshape, hu.settled.leafIds_eq]
  refine ⟨hshape, hleaves, ?_, ?_, hgen, ht.ids_eq.trans hu.ids_eq.symm⟩
  · rw [ht.focused_eq, hu.focused_eq, refocused, refocused, htree, ht.settled.head?_leafIds,
      hu.settled.head?_leafIds, hleaves]
  · rw [ht.magnified_eq, hu.magnified_eq, htree]

end State

/-- Leaves can be deleted in any order: each deletion is accepted, and up to sizes and orientations
the runs end in the same state. -/
theorem closing_in_any_order (s : State α) (hs : Reachable s) (hd : s.treeIds.Nodup)
    (ids ids' : List NodeId) (hids : ids ⊆ s.leafIds) (hnodup : ids.Nodup) (hperm : ids.Perm ids') :
    (∀ after ∈ s.trace (ids.map .delete), after.2 = none) ∧
    (∀ after ∈ s.trace (ids'.map .delete), after.2 = none) ∧
    (s.applyAll (ids.map .delete)).SameShape (s.applyAll (ids'.map .delete)) := by
  have hids' : ids' ⊆ s.leafIds := fun id hid => hids (hperm.mem_iff.mpr hid)
  obtain ⟨haccepted, hclosed, hgen⟩ := State.closedTo_deletions hs hd hids hnodup
  obtain ⟨haccepted', hclosed', hgen'⟩ :=
    State.closedTo_deletions hs hd hids' (hperm.nodup_iff.mp hnodup)
  refine ⟨haccepted, haccepted', ?_⟩
  simp only [← hperm.mem_iff] at hclosed'
  exact hclosed.sameShape hclosed' (by rw [hgen, hgen', hperm.length_eq])

/-- Of four panes in two columns three are closed from the first to the last, or the other way
round. The focus starts on the first pane. -/
theorem three_panes_close_either_way :
    ∃ s : State Unit, Reachable s ∧ s.leafIds = [⟨3⟩, ⟨4⟩, ⟨6⟩, ⟨7⟩] ∧ s.focused = some ⟨3⟩ ∧
      (s.applyAll [.delete ⟨3⟩, .delete ⟨4⟩, .delete ⟨7⟩]).SameShape
        (s.applyAll [.delete ⟨7⟩, .delete ⟨4⟩, .delete ⟨3⟩]) ∧
      (s.applyAll [.delete ⟨7⟩, .delete ⟨4⟩, .delete ⟨3⟩]).focused = some ⟨6⟩ := by
  let pane (n : UInt64) : Node Unit := .leaf { id := ⟨n⟩ } ()
  let column (n : UInt64) (cs : Forest Unit) : Node Unit :=
    .branch { id := ⟨n⟩, orientation := .column } cs
  let s := (State.ofRoot (.branch { id := ⟨1⟩ }
    [column 2 [pane 3, pane 4], column 5 [pane 6, pane 7]])).call (.perform (.focus ⟨3⟩))
  have hs : Reachable s := .call _ (.ofRoot _)
  have hd : s.treeIds.Nodup := by decide +kernel
  have hleaves : s.leafIds = [⟨3⟩, ⟨4⟩, ⟨6⟩, ⟨7⟩] := by decide +kernel
  have hsame := (closing_in_any_order s hs hd [⟨3⟩, ⟨4⟩, ⟨7⟩] [⟨7⟩, ⟨4⟩, ⟨3⟩]
    (by rw [hleaves]; decide) (by decide) (List.reverse_perm _).symm).2.2
  have hfocus : (s.applyAll [.delete ⟨3⟩, .delete ⟨4⟩, .delete ⟨7⟩]).focused = some ⟨6⟩ := by
    decide +kernel
  exact ⟨s, hs, hleaves, by decide +kernel, hsame, hsame.focused_eq.symm.trans hfocus⟩

end Tiling
