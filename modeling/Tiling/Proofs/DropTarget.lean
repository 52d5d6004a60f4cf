import Tiling.Proofs.Holes
import Tiling.Proofs.Staging

/-!
# The target of a drop

A drop onto a side of a leaf goes into a branch that runs along the zone's axis, directly before or
after the leaf or, for an outer zone, the leaf's parent. A leaf that runs along the axis itself
becomes such a branch. What the drop asks for is a move there, or nothing if the moved node is there
already.
-/

namespace Tiling

variable {α : Type}

open Context

theorem DropZone.offset_cases (zone : DropZone) : zone.offset = 0 ∨ zone.offset = 1 := by
  cases zone <;> decide

theorem Orientation.eq_reverse_of_ne {o p : Orientation} (h : o ≠ p) : o = p.reverse := by
  revert h
  cases o <;> cases p <;> decide

namespace Node

/-- A leaf of the tree, and a node of the tree that does not have that leaf. -/
structure Droppable (root target moved : Node α) : Prop where
  normalForm : root.NormalForm
  nodup : root.ids.Nodup
  target_mem : target ∈ root.nodes
  isLeaf : target.isLeaf
  moved_mem : moved ∈ root.nodes
  outside : target.id ∉ moved.ids

/-- The node that a drop lands beside: the target, or its parent where an outer zone passes the drop
on. -/
def dropAnchor (root target : Node α) (zone : DropZone) : Node α :=
  match root.parent? target.id with
  | none => target
  | some parent =>
      if zone.isOuter ∧ zone.axis? = some target.orientation ∧ (root.parent? parent.id).isSome then
        parent
      else target

def dropHost (root target : Node α) (zone : DropZone) : Node α :=
  let parent := root.parent? target.id
  if zone.axis? = some target.orientation then
    if zone.isOuter then (parent.bind fun p => root.parent? p.id).getD target else target
  else parent.getD target

/-! ## 1. The host -/

/-- Where a drop onto `t` goes: into `t` itself, or beside a node that has `t`. -/
inductive Spot (t : Node α) (zone : DropZone) : Node α → Node α → Nat → Prop where
  | within : Spot t zone t t zone.offset
  | beside {h : Header} {x y : Forest α} {b : Node α} (ht : t ∈ b.nodes) :
      Spot t zone (branch h (x ++ b :: y)) b (x.length + zone.offset)

theorem Spot.mem_nodes {t host b : Node α} {zone : DropZone} {i : Nat}
    (hs : Spot t zone host b i) : t ∈ host.nodes := by
  cases hs with
  | within => exact self_mem_nodes t
  | beside ht => exact mem_nodes_trans ht (mem_nodes_of_mem_children (by simp))

/-- A node's parent, with the node in its place. -/
theorem parent?_cases {root k : Node α} (hd : root.ids.Nodup) (hk : k ∈ root.nodes)
    (hne : k.id ≠ root.id) : ∃ h x y, root.parent? k.id = some (branch h (x ++ k :: y)) ∧
      branch h (x ++ k :: y) ∈ root.nodes ∧
      (branch h (x ++ k :: y)).childIndex? k.id = some x.length := by
  cases hp : root.parent? k.id with
  | none =>
    exact absurd (parent?_eq_none.mp hp) (by simp [hne, id_mem_of_mem_nodes hk])
  | some p =>
    obtain ⟨hpn, hkp, -⟩ := exists_plug_parent hd hk hp
    obtain ⟨h, x, y, rfl, hx, -⟩ := exists_first_child (nodup_ids_of_mem_nodes hd hpn) hkp
    exact ⟨h, x, y, rfl, hpn, childIndex?_branch hx⟩

/-- Where directions alternate, a child runs across its parent. -/
theorem Alternating.orientation_child {root k : Node α} {h : Header} {x y : Forest α}
    (ha : root.Alternating) (hp : branch h (x ++ k :: y) ∈ root.nodes) :
    k.orientation = h.orientation.reverse :=
  ha _ hp k (by simp)

/-- A drop onto this leaf is placed in its host, which runs along the axis of the zone. -/
structure Spotted (root t : Node α) (zone : DropZone) (axis : Orientation) (i : Nat) : Prop where
  place_eq : Placement.ofDrop? root t axis zone = some ⟨some (root.dropHost t zone).id, i⟩
  spot : Spot t zone (root.dropHost t zone) (root.dropAnchor t zone) i
  host_mem : root.dropHost t zone ∈ root.nodes
  orientation_eq : (root.dropHost t zone).orientation = axis

section

variable {root t : Node α} {zone : DropZone} {h : Header} {x y : Forest α}

/-- A leaf across the axis has its parent for the host. -/
theorem spotted_across {axis : Orientation} (ha : root.Alternating)
    (hp : root.parent? t.id = some (branch h (x ++ t :: y)))
    (hpn : branch h (x ++ t :: y) ∈ root.nodes)
    (hindex : (branch h (x ++ t :: y)).childIndex? t.id = some x.length)
    (hzone : zone.axis? = some axis) (haxis : t.orientation ≠ axis) :
    root.Spotted t zone axis (x.length + zone.offset) := by
  have hacross : some axis ≠ some t.orientation := fun heq => haxis (Option.some.inj heq).symm
  have hhost : root.dropHost t zone = branch h (x ++ t :: y) := by
    simp only [dropHost, hzone, hacross, if_false, hp, Option.getD_some]
  have hanchor : root.dropAnchor t zone = t := by
    simp only [dropAnchor, hp, hzone, hacross, false_and, and_false, if_false]
  refine ⟨?_, ?_, hhost ▸ hpn, ?_⟩
  · rw [hhost, Placement.ofDrop?, if_neg haxis]
    simp only [Placement.beside?, hp, hindex, Option.map_some]
  · rw [hhost, hanchor]
    exact .beside (self_mem_nodes t)
  · rw [hhost, Orientation.eq_reverse_of_ne (Ne.symm haxis), ha.orientation_child hpn,
      Orientation.reverse_reverse]
    rfl

/-- An outer zone passes a leaf along the axis on to the grandparent. -/
theorem spotted_beyond (ha : root.Alternating) (hd : root.ids.Nodup)
    (hp : root.parent? t.id = some (branch h (x ++ t :: y)))
    (hpn : branch h (x ++ t :: y) ∈ root.nodes) (hzone : zone.axis? = some t.orientation)
    (houter : zone.isOuter) (hne : (branch h (x ++ t :: y)).id ≠ root.id) :
    ∃ i, root.Spotted t zone t.orientation i := by
  obtain ⟨h', x', y', hg, hgn, hindex⟩ := parent?_cases hd hpn hne
  have hhost : root.dropHost t zone = branch h' (x' ++ branch h (x ++ t :: y) :: y') := by
    simp only [dropHost, hzone, houter, if_true, hp, Option.bind_some, hg, Option.getD_some]
  have hanchor : root.dropAnchor t zone = branch h (x ++ t :: y) := by
    simp only [dropAnchor, hp, hzone, houter, hg, Option.isSome_some, and_self, if_true]
  refine ⟨x'.length + zone.offset, ?_, ?_, hhost ▸ hgn, ?_⟩
  · have hbeyond : Placement.besideParent? root t zone.offset =
        some ⟨some h'.id, x'.length + zone.offset⟩ := by
      simp only [Placement.besideParent?, hp, hg, hindex, Option.bind_eq_bind, Option.bind_some]
      rfl
    rw [hhost, Placement.ofDrop?, if_pos rfl, if_pos houter, hbeyond]
    rfl
  · rw [hhost, hanchor]
    exact .beside (mem_nodes_of_mem_children (by simp))
  · have hturned : h.orientation = h'.orientation.reverse := ha.orientation_child hgn
    rw [hhost, ha.orientation_child hpn, hturned, Orientation.reverse_reverse]
    rfl

/-- Otherwise a leaf along the axis is the host itself. -/
theorem spotted_within {p : Node α} (hp : root.parent? t.id = some p) (ht : t ∈ root.nodes)
    (hzone : zone.axis? = some t.orientation) (hgrand : zone.isOuter → root.parent? p.id = none) :
    root.Spotted t zone t.orientation zone.offset := by
  have hhost : root.dropHost t zone = t := by
    rw [dropHost, if_pos hzone]
    split
    · next houter =>
      rw [hp, Option.bind_some, hgrand houter]
      rfl
    · rfl
  have hanchor : root.dropAnchor t zone = t := by
    rw [dropAnchor, hp]
    refine if_neg fun hpasses => ?_
    rw [hgrand hpasses.1] at hpasses
    exact Bool.false_ne_true hpasses.2.2
  refine ⟨?_, ?_, by rwa [hhost], by rw [hhost]⟩
  · rw [hhost, Placement.ofDrop?, if_pos rfl]
    split
    · next houter =>
      simp only [Placement.besideParent?, hp, hgrand houter, Option.bind_eq_bind, Option.bind_some,
        Option.bind_none, Option.getD_none]
    · rfl
  · rw [hhost, hanchor]
    exact .within

end

/-- A drop onto a side goes to a spot in a node along the zone's axis. -/
theorem exists_spotted {root t : Node α} {zone : DropZone} {axis : Orientation}
    (ha : root.Alternating) (hd : root.ids.Nodup) (ht : t ∈ root.nodes) (hne : t.id ≠ root.id)
    (hzone : zone.axis? = some axis) : ∃ i, root.Spotted t zone axis i := by
  obtain ⟨h, x, y, hp, hpn, hindex⟩ := parent?_cases hd ht hne
  by_cases haxis : t.orientation = axis
  · subst haxis
    by_cases hbeyond : zone.isOuter ∧ (branch h (x ++ t :: y)).id ≠ root.id
    · exact spotted_beyond ha hd hp hpn hzone hbeyond.1 hbeyond.2
    · refine ⟨_, spotted_within hp ht hzone fun houter => parent?_eq_none.mpr (.inl ?_)⟩
      exact not_not.mp fun hparent => hbeyond ⟨houter, hparent⟩
  · exact ⟨_, spotted_across ha hp hpn hindex hzone haxis⟩

/-- An edge drop is never onto the root itself. -/
theorem Droppable.ne_root {root t m : Node α} (h : root.Droppable t m) : t.id ≠ root.id := by
  intro hid
  have hroot := eq_of_id_eq h.nodup h.target_mem (self_mem_nodes root) hid
  subst hroot
  -- a tree of one leaf has no other node that could be dropped
  cases t with
  | leaf hd d =>
    have hm := h.moved_mem
    rw [nodes_leaf, List.mem_singleton] at hm
    exact h.outside (hm ▸ id_mem_ids _)
  | branch hd cs => cases h.isLeaf

theorem Droppable.moved_ne_root {root t m : Node α} (h : root.Droppable t m) : m.id ≠ root.id := by
  intro hid
  refine h.outside ?_
  rw [eq_of_id_eq h.nodup h.moved_mem (self_mem_nodes root) hid]
  exact id_mem_of_mem_nodes h.target_mem

/-- Every edge of a drop target has a spot: the group that runs along its axis and an index in that
group. -/
theorem Droppable.spotted {root t m : Node α} (h : root.Droppable t m) {zone : DropZone}
    {axis : Orientation} (hzone : zone.axis? = some axis) : ∃ i, root.Spotted t zone axis i :=
  exists_spotted h.normalForm.alternating h.nodup h.target_mem h.ne_root hzone

end Node

/-! ## 2. The neighbour -/

def Frame.NextTo (f : Frame α) (zone : DropZone) (b : Node α) : Prop :=
  if zone.offset = 0 then f.after.head? = some b else f.before.getLast? = some b

namespace Node

/-- The node is a child of the host already, next to the anchor. -/
structure Stays (root host anchor m : Node α) (zone : DropZone) : Prop where
  parent_eq : root.parent? m.id = some host
  next : ∃ f : Frame α, host = f.fill m ∧ f.NextTo zone anchor

theorem Spot.nextTo {t b : Node α} {zone : DropZone} {h : Header} {cs : Forest α} {i : Nat}
    (hs : Spot t zone (branch h cs) b i) (hleaf : t.isLeaf) :
    Frame.NextTo ⟨h, cs.take i, cs.drop i⟩ zone b := by
  cases hs with
  | within => cases hleaf
  | @beside _ x y _ ht =>
    rw [Frame.NextTo]
    rcases zone.offset_cases with hzero | hone
    · rw [if_pos hzero, hzero]
      simp
    · rw [if_neg (by rw [hone]; decide), hone, List.take_length_add_append]
      simp

/-- A drop that would leave the moved node where it is finds it next to the anchor. -/
theorem Spot.of_keeps {root t m host b : Node α} {zone : DropZone} {i : Nat}
    (h : root.Droppable t m) (hs : Spot t zone host b i) (hhost : host ∈ root.nodes)
    (hkeeps : Placement.keeps ⟨some host.id, i⟩ root m.id) : Stays root host b m zone := by
  rw [Placement.keeps] at hkeeps
  split at hkeeps
  · next q hq =>
    rw [Bool.and_eq_true, decide_eq_true_iff] at hkeeps
    obtain ⟨hid, hindex⟩ := hkeeps
    obtain ⟨hqn, hmq, -⟩ := exists_plug_parent h.nodup h.moved_mem hq
    obtain rfl := eq_of_id_eq h.nodup hhost hqn (Option.some.inj hid)
    refine ⟨hq, ?_⟩
    obtain ⟨_, x', y', heq, hx', -⟩ := exists_first_child (nodup_ids_of_mem_nodes h.nodup hqn) hmq
    cases hs with
    | within =>
      have hleaf := h.isLeaf
      rw [heq] at hleaf
      cases hleaf
    | @beside hdr x y _ ht =>
      obtain ⟨rfl, hforest⟩ := branch.inj heq
      rw [hforest, childIndex?_branch hx'] at hindex
      simp only [Bool.or_eq_true, decide_eq_true_iff] at hindex
      -- the moved node stands before the anchor or after it
      rcases append_cons_cases hforest with ⟨-, rfl, -⟩ | ⟨z, rfl, rfl⟩ | ⟨z, rfl, rfl⟩
      · exact absurd (id_mem_of_mem_nodes ht) h.outside
      · have hz : z = [] ∧ zone.offset = 0 := by
          rw [← List.length_eq_zero_iff]
          rw [List.length_append, List.length_cons] at hindex
          rcases zone.offset_cases with hz | hz <;> omega
        refine ⟨⟨hdr, x', b :: y⟩, by simp [Frame.fill, hz.1], ?_⟩
        rw [Frame.NextTo, if_pos hz.2]
        rfl
      · have hz : z = [] ∧ zone.offset = 1 := by
          rw [← List.length_eq_zero_iff]
          rw [List.length_append, List.length_cons] at hindex
          rcases zone.offset_cases with hz | hz <;> omega
        refine ⟨⟨hdr, x ++ [b], y'⟩, by simp [Frame.fill, hz.1], ?_⟩
        rw [Frame.NextTo, if_neg (by rw [hz.2]; decide)]
        simp
  · cases hkeeps

/-! ## 3. What the drop asks for -/

/-- No check rejects the drop of a node onto a leaf that it does not have. -/
theorem Droppable.resolveDrop_eq {root t m : Node α} (h : root.Droppable t m) (zone : DropZone) :
    root.resolveDrop t.id m.id zone =
      match zone.axis? with
      | none => (root.resolveSwap t m).map some
      | some axis =>
          match Placement.ofDrop? root t axis zone with
          | none => .error (.noPlacement t.id zone)
          | some place =>
              if place.keeps root m.id then .ok none
              else .ok (some (.move place.parent place.parent.isNone place.index m)) := by
  have hne : t.id ≠ m.id := fun heq => h.outside (heq ▸ id_mem_ids m)
  rw [resolveDrop, if_neg hne, find?_of_mem_nodes h.nodup h.target_mem,
    find?_of_mem_nodes h.nodup h.moved_mem]
  exact if_neg (mt contains_iff.mp h.outside)

/-- A drop onto a side asks for a move into the host, or for nothing if the node is in place. -/
theorem Droppable.resolveDrop_side {root t m : Node α} (h : root.Droppable t m) {zone : DropZone}
    {axis : Orientation} (hzone : zone.axis? = some axis) :
    (∃ i, root.resolveDrop t.id m.id zone =
        .ok (some (.move (some (root.dropHost t zone).id) false i m)) ∧
      Spot t zone (root.dropHost t zone) (root.dropAnchor t zone) i) ∨
    (root.resolveDrop t.id m.id zone = .ok none ∧
      Stays root (root.dropHost t zone) (root.dropAnchor t zone) m zone) := by
  obtain ⟨i, hplace, hspot, hhost, -⟩ := h.spotted hzone
  simp only [h.resolveDrop_eq zone, hzone, hplace]
  cases hkeeps : Placement.keeps ⟨some (root.dropHost t zone).id, i⟩ root m.id with
  | true => exact .inr ⟨rfl, hspot.of_keeps h hhost hkeeps⟩
  | false => exact .inl ⟨i, rfl, hspot⟩

/-- A drop onto the middle asks for a swap: neither the leaf nor the moved node is the root. -/
theorem Droppable.resolveSwap_eq {root t m : Node α} (h : root.Droppable t m) :
    root.resolveSwap t m = .ok (.swap t.id m.id) := by
  have hin : m.id ∉ t.ids := by
    have hleaf := h.isLeaf
    cases t with
    | leaf hd d =>
      rw [ids_leaf, List.mem_singleton, ← id_leaf hd d]
      exact fun heq => h.outside (heq ▸ id_mem_ids m)
    | branch hd cs => cases hleaf
  rw [resolveSwap, if_neg (by simp [h.ne_root, h.moved_ne_root]), if_neg (mt contains_iff.mp hin)]

/-- Whatever the zone, a leaf outside the moved node takes the drop. -/
theorem Droppable.resolveDrop_isOk {root t m : Node α} (h : root.Droppable t m) (zone : DropZone) :
    (root.resolveDrop t.id m.id zone).isOk := by
  cases hzone : zone.axis? with
  | some axis =>
    rcases h.resolveDrop_side hzone with ⟨i, hmove, -⟩ | ⟨hnone, -⟩
    · rw [hmove]
      rfl
    · rw [hnone]
      rfl
  | none =>
    rw [h.resolveDrop_eq, hzone, h.resolveSwap_eq]
    rfl

end Node

end Tiling
