import Tiling.Proofs.Condensing
import Tiling.Proofs.Keep

/-!
# Whose children are whose

Where no two nodes share an identifier, the families of a tree are a table from each node to the
identifiers of its children. An edit at one place changes the row of one branch; when a branch gets
a new identifier, its parent's row has the new one in the place of the old. Balancing strikes the
rows of the nodes that it drops, and a branch that is left with one child is replaced by it.
-/

namespace Tiling

variable {α : Type}

open Context
open scoped List

def renameChildren (σ : NodeId → NodeId) (e : NodeId × List NodeId) : NodeId × List NodeId :=
  (e.1, e.2.map σ)

theorem renameChildren_id : renameChildren (fun id => id) = fun e => e := by
  funext e
  rw [renameChildren, List.map_id']

/-- Of rows under distinct identifiers those other than the first have another identifier. -/
theorem mem_tail_iff {e : NodeId × List NodeId} {rows rest : List (NodeId × List NodeId)}
    (h : rows ~ e :: rest) (hd : (rows.map Prod.fst).Nodup) {f : NodeId × List NodeId} :
    f ∈ rest ↔ f ∈ rows ∧ f.1 ≠ e.1 := by
  have hfst := (h.map Prod.fst).nodup_iff.mp hd
  rw [List.map_cons, List.nodup_cons] at hfst
  rw [h.mem_iff, List.mem_cons]
  constructor
  · intro hf
    exact ⟨.inr hf, fun heq => hfst.1 (heq ▸ List.mem_map_of_mem hf)⟩
  · rintro ⟨rfl | hf, hne⟩
    · exact absurd rfl hne
    · exact hf

namespace Node

/-! ## 1. Rows -/

def childIds (n : Node α) (id : NodeId) : List NodeId :=
  ((n.find? id).elim [] children).map Node.id

theorem map_fst_families (n : Node α) : n.families.map Prod.fst = n.ids := by
  rw [families, List.map_map]
  rfl

/-- Without repetitions the children listed for an id are those of its node. -/
theorem childIds_of_mem_nodes {m n : Node α} (hd : n.ids.Nodup) (hm : m ∈ n.nodes) :
    n.childIds m.id = m.children.map id := by
  rw [childIds, find?_of_mem_nodes hd hm, Option.elim_some]

theorem childIds_of_mem_families {n : Node α} {e : NodeId × List NodeId} (hd : n.ids.Nodup)
    (h : e ∈ n.families) : n.childIds e.1 = e.2 := by
  obtain ⟨m, hm, rfl⟩ := List.mem_map.mp h
  exact childIds_of_mem_nodes hd hm

/-- Every id of the tree heads a family. -/
theorem mem_families {n : Node α} {id : NodeId} (hd : n.ids.Nodup) (h : id ∈ n.ids) :
    (id, n.childIds id) ∈ n.families := by
  obtain ⟨m, hm, rfl⟩ := mem_ids.mp h
  rw [childIds_of_mem_nodes hd hm]
  exact List.mem_map_of_mem hm

theorem mem_ids_of_mem_families {n : Node α} {e : NodeId × List NodeId} {id : NodeId}
    (h : e ∈ n.families) (hid : id ∈ e.2) : id ∈ n.ids := by
  obtain ⟨m, hm, rfl⟩ := List.mem_map.mp h
  obtain ⟨c, hc, rfl⟩ := List.mem_map.mp hid
  exact id_mem_of_mem_nodes (mem_nodes_trans (mem_nodes_of_mem_children hc) hm)

/-- A node is in the row of its parent alone. -/
theorem not_mem_childIds {n p : Node α} {id other : NodeId} (hd : n.ids.Nodup)
    (hp : n.parent? id = some p) (hne : other ≠ p.id) : id ∉ n.childIds other := by
  intro hmem
  rw [childIds] at hmem
  cases h : n.find? other with
  | none => simp [h] at hmem
  | some q =>
    rw [h, Option.elim_some, List.mem_map] at hmem
    have hq := (parent?_eq_some_iff hd).mpr ⟨mem_nodes_of_find? h, hmem⟩
    obtain rfl := Option.some.inj (hp.symm.trans hq)
    exact hne (id_of_find? h).symm

theorem families_map_eq {n : Node α} {σ : NodeId → NodeId} (h : ∀ id ∈ n.ids, σ id = id) :
    n.families.map (renameChildren σ) = n.families := by
  refine (List.map_congr_left fun e he => ?_).trans (List.map_id' _)
  rw [renameChildren, List.map_congr_left fun id hid => h id (mem_ids_of_mem_families he hid),
    List.map_id']

@[simp] theorem families_inner (n : Node α) (o : Orientation) :
    (n.inner o).families = n.families := by
  rw [inner]
  split <;> simp

@[simp] theorem families_joined (child : Node α) (h : Header) (cs : Forest α) :
    (child.joined h cs).families = child.families := by
  rw [joined, joining]
  split <;> simp

end Node

/-! ## 2. The rows around a hole -/

namespace Context

/-- The families of the branches around the hole and of what is beside it, where `id` is the
identifier of the node in the hole. -/
def families : Context α → NodeId → List (NodeId × List NodeId)
  | [], _ => []
  | f :: c, id =>
      (f.header.id,
        f.before.map Node.id ++ (branchIds c).head?.getD id :: f.after.map Node.id) ::
      ((f.before ++ f.after).flatMap Node.families ++ families c id)

/-- The families of a tree are those of a subtree and those around it. -/
theorem families_plug (c : Context α) (n : Node α) :
    (plug c n).families ~ n.families ++ families c n.id := by
  induction c with
  | nil => rw [families, List.append_nil, plug_nil]
  | cons f c ih =>
    rw [plug_cons, Frame.fill, Node.families_branch, families, List.map_append, List.map_cons,
      id_plug]
    refine .trans (.cons _ ?_) List.perm_middle.symm
    rw [List.flatMap_append, List.flatMap_cons, List.flatMap_append]
    calc f.before.flatMap Node.families ++ ((plug c n).families ++ f.after.flatMap Node.families)
      _ ~ f.before.flatMap Node.families ++ (f.after.flatMap Node.families ++ (plug c n).families) :=
        List.perm_append_comm.append_left _
      _ ~ (f.before.flatMap Node.families ++ f.after.flatMap Node.families) ++
            (n.families ++ families c n.id) := by
        rw [List.append_assoc]
        exact (ih.append_left _).append_left _
      _ ~ n.families ++ ((f.before.flatMap Node.families ++ f.after.flatMap Node.families) ++
            families c n.id) := by
        rw [← List.append_assoc, ← List.append_assoc n.families]
        exact List.perm_append_comm.append_right _

theorem top_rename {c : Context α} {σ : NodeId → NodeId}
    (h : ∀ j ∈ idsBefore c ++ idsAfter c, σ j = j) (id : NodeId) :
    (branchIds c).head?.getD (σ id) = σ ((branchIds c).head?.getD id) := by
  cases c with
  | nil => rfl
  | cons f c => exact (h f.header.id (by simp [idsBefore])).symm

/-- A new identifier in the hole takes the place of the old one in the row of the parent. -/
theorem families_rename {c : Context α} {id : NodeId} {σ : NodeId → NodeId}
    (h : ∀ j ∈ idsBefore c ++ idsAfter c, σ j = j) :
    families c (σ id) = (families c id).map (renameChildren σ) := by
  induction c with
  | nil => rfl
  | cons f c ih =>
    simp only [idsBefore, idsAfter, List.mem_append, List.mem_cons] at h
    have hbefore : ∀ j ∈ f.before.flatMap Node.ids, σ j = j := fun j hj => h j (by simp [hj])
    have hafter : ∀ j ∈ f.after.flatMap Node.ids, σ j = j := fun j hj => h j (by simp [hj])
    have hc : ∀ j ∈ idsBefore c ++ idsAfter c, σ j = j := fun j hj => by
      refine h j ?_
      rw [List.mem_append] at hj
      rcases hj with hj | hj <;> simp [hj]
    -- beside the hole no row changes
    have hbeside : ((f.before ++ f.after).flatMap Node.families).map (renameChildren σ) =
        (f.before ++ f.after).flatMap Node.families := by
      rw [List.map_flatMap]
      refine List.flatMap_congr fun m hm => Node.families_map_eq fun j hj => ?_
      rcases List.mem_append.mp hm with hm | hm
      · exact hbefore j (List.mem_flatMap.mpr ⟨m, hm, hj⟩)
      · exact hafter j (List.mem_flatMap.mpr ⟨m, hm, hj⟩)
    have hids : ∀ ns : Forest α, (∀ j ∈ ns.flatMap Node.ids, σ j = j) →
        (ns.map Node.id).map σ = ns.map Node.id := by
      intro ns hns
      rw [List.map_map]
      exact List.map_congr_left fun m hm =>
        hns _ (List.mem_flatMap.mpr ⟨m, hm, Node.id_mem_ids m⟩)
    have htop := top_rename hc id
    rw [families, families, List.map_cons, List.map_append, hbeside, ih hc, renameChildren,
      List.map_append, List.map_cons, hids _ hbefore, hids _ hafter, htop]

end Context

namespace Node

/-! ## 3. The rows after an edit -/

/-- A graft enlarges one family and brings along those of the new child. -/
theorem families_graft (h : Header) (cs : Forest α) (i : Nat) (child : Node α) :
    ((branch h cs).graft i child).families ~
      (h.id, (cs.map id).take i ++ child.id :: (cs.map id).drop i) ::
        (cs.flatMap families ++ child.families) := by
  rw [graft_branch, families_branch, List.map_append, List.map_cons, id_joined, List.map_take,
    List.map_drop]
  refine .cons _ ?_
  rw [List.flatMap_append, List.flatMap_cons, families_joined]
  calc (cs.take i).flatMap families ++ (child.families ++ (cs.drop i).flatMap families)
    _ ~ (cs.take i).flatMap families ++ ((cs.drop i).flatMap families ++ child.families) :=
      List.perm_append_comm.append_left _
    _ ~ cs.flatMap families ++ child.families := by
      rw [← List.append_assoc, ← List.flatMap_append, List.take_append_drop]

/-- A wrapper adds one family, of the node it wraps and the newcomer. -/
theorem families_wrap_graft (n : Node α) (id : NodeId) (o : Orientation) (i : Nat)
    (child : Node α) :
    ((n.wrap id o).graft i child).families ~
      (id, [n.id].take i ++ child.id :: [n.id].drop i) :: (n.families ++ child.families) := by
  have hgraft := families_graft ⟨id, o, n.size, n.visible⟩ [n.inner o] i child
  rwa [List.map_singleton, id_inner, List.flatMap_singleton, families_inner, ← wrap_eq] at hgraft

/-- The row of a branch and the other rows. A child comes with rows of its own. -/
theorem families_plug_child (d : Context α) (h : Header) (x y : Forest α) (k : Node α) :
    ∃ rest, (plug d (branch h (x ++ y))).families ~ (h.id, (x ++ y).map id) :: rest ∧
      (plug d (branch h (x ++ k :: y))).families ~
        (h.id, (x ++ k :: y).map id) :: (rest ++ k.families) := by
  refine ⟨(x ++ y).flatMap families ++ d.families h.id, ?_, ?_⟩
  · have hplug := families_plug d (branch h (x ++ y))
    rwa [families_branch] at hplug
  · have hplug := families_plug d (branch h (x ++ k :: y))
    rw [families_branch] at hplug
    refine hplug.trans (.cons _ ?_)
    rw [List.flatMap_append, List.flatMap_cons, List.flatMap_append, List.append_assoc]
    calc (x.flatMap families ++ (k.families ++ y.flatMap families) ++ d.families h.id)
      _ ~ (x.flatMap families ++ (y.flatMap families ++ k.families) ++ d.families h.id) :=
        (List.perm_append_comm.append_left _).append_right _
      _ ~ _ := by
        simp only [List.append_assoc]
        exact (List.perm_append_comm.append_left _).append_left _

/-! ## 4. The rows after balancing -/

/-- A node survives balancing exactly when its id is among the survivors. -/
theorem survives_iff {n m : Node α} (hd : n.ids.Nodup) (hm : m ∈ n.nodes) :
    m.survives ↔ m.id ∈ n.survivors := by
  rw [survivors_eq, List.mem_map]
  constructor
  · exact fun h => ⟨m, List.mem_filter.mpr ⟨hm, h⟩, rfl⟩
  · rintro ⟨k, hk, hid⟩
    obtain ⟨hkn, hk⟩ := List.mem_filter.mp hk
    rwa [eq_of_id_eq hd hkn hm hid] at hk

theorem heir?_of_survives {n : Node α} (h : n.survives) : n.heir? = some n := by
  rw [heir?, nodes_eq_cons, List.find?_cons, h]

/-- A top node that is kept keeps its orientation. -/
theorem orientation_of_balance? {n t : Node α} (h : n.balance? = some t) (hn : n.survives) :
    t.orientation = n.orientation := by
  obtain ⟨top, ht⟩ := condensesTo_of_balance? h
  obtain rfl := Option.some.inj ((heir?_of_survives hn).symm.trans ht.top_eq)
  rw [ht.orientation_eq, ite_self]

/-- A branch with one child that is dropped is replaced by what replaces the child. -/
theorem heir?_of_lone {h : Header} {c : Node α} (hb : ¬(branch h [c]).survives) :
    (branch h [c]).heir? = c.heir? := by
  rw [survives_branch, decide_eq_true_iff] at hb
  rw [heir?_branch, if_neg hb, List.findSome?_cons, List.findSome?_nil]
  cases c.heir? <;> rfl

/-- All nodes of the tree are kept but the one with a certain identifier, and that has one child if
it is dropped. -/
structure DropsOnly (n : Node α) (id : NodeId) (gone : Prop) : Prop where
  nodup : n.ids.Nodup
  mem_survivors_iff : ∀ j, j ∈ n.survivors ↔ j ∈ n.ids ∧ ¬(j = id ∧ gone)
  lone : gone → ∃ only, n.childIds id = [only]

def heirId (n : Node α) (id : NodeId) (gone : Prop) [Decidable gone] (j : NodeId) : NodeId :=
  if j = id ∧ gone then (n.childIds id).headD j else j

theorem DropsOnly.id_heir? {n m : Node α} {id : NodeId} {gone : Prop} [Decidable gone]
    (h : n.DropsOnly id gone) (hm : m ∈ n.nodes) :
    m.heir?.map Node.id = some (n.heirId id gone m.id) := by
  have hkept : ∀ k ∈ n.nodes, (k.survives ↔ ¬(k.id = id ∧ gone)) := fun k hk => by
    rw [survives_iff h.nodup hk, h.mem_survivors_iff]
    exact and_iff_right (id_mem_of_mem_nodes hk)
  rw [heirId]
  by_cases hgone : m.id = id ∧ gone
  · rw [if_pos hgone]
    obtain ⟨rfl, hgone⟩ := hgone
    obtain ⟨only, honly⟩ := h.lone hgone
    have hdropped : ¬m.survives := mt (hkept m hm).mp (not_not_intro ⟨rfl, hgone⟩)
    rw [honly, List.headD_cons]
    rw [childIds_of_mem_nodes h.nodup hm] at honly
    cases m with
    | leaf hd d => cases honly
    | branch hd cs =>
      obtain ⟨c, rfl⟩ : ∃ c, cs = [c] := List.length_eq_one_iff.mp (by
        simpa using congrArg List.length honly)
      -- the only child is another node, so it is kept
      have hc : c ∈ n.nodes := mem_nodes_trans (mem_nodes_of_mem_children (by simp)) hm
      have hne : c.id ≠ hd.id := by
        have hnodup := nodup_ids_of_mem_nodes h.nodup hm
        rw [ids_branch, List.nodup_cons, List.flatMap_singleton] at hnodup
        exact fun heq => hnodup.1 (heq ▸ id_mem_ids c)
      rw [heir?_of_lone hdropped, heir?_of_survives ((hkept c hc).mpr fun hc => hne hc.1)]
      exact congrArg some (List.singleton_inj.mp honly)
  · rw [if_neg hgone, heir?_of_survives ((hkept m hm).mpr hgone)]
    rfl

/-- The rows of the balanced tree `t`, where balancing drops at most the node with the identifier
`id`. -/
structure Condensed (n t : Node α) (id : NodeId) (gone : Prop) [Decidable gone] : Prop where
  balance?_eq : n.balance? = some t
  id_eq : t.id = n.heirId id gone n.id
  rows_eq : ∀ j ∈ n.survivors,
    j ∈ t.ids ∧ t.childIds j = (n.childIds j).map (n.heirId id gone)

/-- A tree that only loses the named node condenses to one without it. -/
theorem DropsOnly.condensed {n : Node α} {id : NodeId} {gone : Prop} [Decidable gone]
    (h : n.DropsOnly id gone) : ∃ t, n.Condensed t id gone := by
  have hself := h.id_heir? (self_mem_nodes n)
  obtain ⟨top, htop, hid⟩ := Option.map_eq_some_iff.mp hself
  cases hbalance : n.balance? with
  | none =>
    -- a node is kept
    have hnone := id_of_prune? n
    rw [Option.map_eq_none_iff.mp hbalance, htop] at hnone
    cases hnone
  | some t =>
    obtain ⟨top', hcondenses⟩ := condensesTo_of_balance? hbalance
    obtain rfl := Option.some.inj (htop.symm.trans hcondenses.top_eq)
    refine ⟨t, hbalance, ?_, fun j hj => ?_⟩
    · rw [← hid]
      exact congrArg Prod.fst hcondenses.mark_eq
    · have hids := ids_of_balance? hbalance
      have hnodup : t.ids.Nodup := hids ▸ h.nodup.sublist (survivors_sublist n)
      obtain ⟨m, hm, rfl⟩ := mem_ids.mp ((survivors_sublist n).subset hj)
      refine ⟨hids ▸ hj, ?_⟩
      have hrow : (m.id, (m.children.filterMap heir?).map Node.id) ∈ t.families := by
        rw [hcondenses.families_eq]
        exact List.mem_map_of_mem
          (f := fun k : Node α => (k.id, (k.children.filterMap heir?).map Node.id))
          (List.mem_filter.mpr ⟨hm, (survives_iff h.nodup hm).mpr hj⟩)
      rw [childIds_of_mem_families hnodup hrow, childIds_of_mem_nodes h.nodup hm,
        List.map_filterMap, List.map_map, ← List.filterMap_eq_map]
      exact List.filterMap_congr fun c hc =>
        h.id_heir? (mem_nodes_trans (mem_nodes_of_mem_children hc) hm)

end Node

end Tiling
