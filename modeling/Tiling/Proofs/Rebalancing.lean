import Tiling.Proofs.Condensing
import Tiling.Proofs.RoundingError
import Tiling.Proofs.Sizeless

/-!
# Balancing a balanced tree

To balance a balanced tree once more normalizes each of its sibling groups once more and changes
nothing else. In groups of up to forty moderate shares that changes nothing either. In wider groups
the rounding errors of the total may exceed the tolerance, which does not grow with the group.
-/

namespace Tiling

variable {α : Type}

namespace Node

/-! ## 1. Structure -/

theorem Forked.survives {n m : Node α} (h : n.Forked) (hm : m ∈ n.nodes) : m.survives := by
  rw [← stays_entry]
  exact h.stays (List.mem_map_of_mem hm)

/-- In a forked tree balancing normalizes each group and drops none. -/
theorem Forked.survivingGroups_eq {n : Node α} (h : n.Forked) :
    n.survivingGroups = n.groups.map Share.normalize := by
  rw [survivingGroups, groups, List.map_map,
    List.filter_eq_self.mpr fun m hm => h.survives hm]
  refine List.map_congr_left fun m hm => ?_
  have hbears : ∀ c ∈ m.children, c.bears := fun c hc =>
    ((h.of_mem_nodes hm).of_mem_nodes (mem_nodes_of_mem_children hc)).bears
  rw [List.filter_eq_self.mpr hbears]
  rfl

/-- Pruning a forked tree changes sizes only. -/
theorem Forked.sizeless_prune? {n : Node α} (h : n.Forked) :
    n.prune?.map sizeless = some n.sizeless := by
  induction n with
  | leaf hd d => rfl
  | branch hd cs ih =>
    obtain ⟨htwo, hcs⟩ := forked_branch.mp h
    have hkept : (cs.filterMap prune?).map sizeless = cs.map sizeless := by
      rw [List.map_filterMap, List.filterMap_congr fun c hc => ih c hc (hcs c hc)]
      exact congrFun (List.filterMap_eq_map (f := sizeless)) cs
    have hlength : (cs.filterMap prune?).length = cs.length := by
      rw [← List.length_map sizeless, hkept, List.length_map]
    rw [Context.prune?_of_two (hlength ▸ htwo), Option.map_some, sizeless_branch, sizeless_branch,
      Forest.map_normalize sizeless_withSize, hkept]

/-- To balance a tree in normal form normalizes each group and changes nothing else. -/
theorem NormalForm.balance? {m : Node α} (h : m.NormalForm) :
    ∃ k, m.balance? = some k ∧ k.sizeless = m.sizeless ∧ k.size = m.size ∧
      k.groups = m.groups.map Share.normalize := by
  obtain ⟨p, hp, hsizeless⟩ := Option.map_eq_some_iff.mp h.forked.sizeless_prune?
  have hk : m.balance? = some (p.orient p.orientation) := by rw [Node.balance?, hp, Option.map_some]
  obtain ⟨top, hcondenses⟩ := condensesTo_of_balance? hk
  refine ⟨_, hk, ?_, hcondenses.size_eq, ?_⟩
  · rw [sizeless_orient, ← orientation_sizeless, hsizeless, orientation_sizeless, ← sizeless_orient,
      h.alternating.orient_eq]
  · rw [hcondenses.groups_eq, h.forked.survivingGroups_eq]

/-- A tree in normal form is a fixed point exactly when each of its groups is one of normalizing. -/
theorem NormalForm.balance?_eq_self_iff {m : Node α} (h : m.NormalForm) :
    m.balance? = some m ↔ ∀ g ∈ m.groups, Share.normalize g = g := by
  rw [Node.balance?_eq_self_iff, groups, List.forall_mem_map]
  constructor
  · intro hbalanced k hk
    exact (hbalanced k hk).normalized
  · intro hnormalized k hk
    exact ⟨h.forked k hk, h.alternating k hk, hnormalized k hk⟩

/-! ## 2. Shares -/

/-- What normalizing made of a small group of moderate shares is normalized for good. -/
theorem normalize_of_settles {n : Node α} {g : List Float32} (h : n.Settles g)
    (hn : ∀ old ∈ n.groups, old.length ≤ 40 ∧ ∀ x ∈ old, Share.Scalable x) :
    Share.normalize g = g := by
  obtain ⟨g', rfl, old, hold, hsub⟩ := h
  obtain ⟨hlen, hscalable⟩ := hn old hold
  exact Share.normalize_normalize (hsub.length_le.trans hlen) fun x hx =>
    hscalable x (hsub.subset hx)

end Node

/-- To balance a balanced tree normalizes each of its groups and changes nothing else, so it gives
the tree back where its groups are normalized for good. They are if the groups that the tree was
balanced from have up to forty members, and the shares among them that can stand are moderate. -/
theorem rebalancing_normalizes_groups :
    (∀ t m : Node α, t.balance? = some m →
      ∃ k, m.balance? = some k ∧ k.sizeless = m.sizeless ∧ k.size = m.size ∧
        k.groups = m.groups.map Share.normalize ∧
        (k = m ↔ ∀ g ∈ m.groups, Share.normalize g = g)) ∧
    ∀ t m : Node α, t.balance? = some m →
      (∀ g ∈ t.groups, g.length ≤ 40 ∧ ∀ x ∈ g, Share.usable x → Share.moderate x) →
      m.balance? = some m := by
  refine ⟨fun t m hm => ?_, fun t m hm hsmall => ?_⟩
  · have hnormal := Node.balance?_normalForm hm
    obtain ⟨k, hk, hsizeless, hsize, hgroups⟩ := hnormal.balance?
    refine ⟨k, hk, hsizeless, hsize, hgroups, ?_⟩
    rw [← hnormal.balance?_eq_self_iff, hk, Option.some.injEq]
  · rw [(Node.balance?_normalForm hm).balance?_eq_self_iff]
    exact fun g hg => Node.normalize_of_settles (Node.settles_of_balance? hm g hg) fun old hold =>
      ⟨(hsmall old hold).1, fun x hx hu =>
        Share.within_of_moderate ((hsmall old hold).2 x hx hu)⟩

/-- Two shares of three can stand, and the group has to be scaled once. -/
theorem repaired_group_settles :
    ∃ t m : Node Unit, t.groups = [[1, 0 / 0, 2], [], [], []] ∧ t.balance? = some m ∧
      m.groups ≠ t.groups ∧ m.balance? = some m ∧ ∀ g ∈ m.groups, Share.normalize g = g := by
  let pane (n : UInt64) (size : Float32) : Node Unit := .leaf { id := ⟨n⟩, size } ()
  let t : Node Unit := .branch { id := ⟨1⟩ } [pane 2 1, pane 3 (0 / 0), pane 4 2]
  have hsome : t.balance?.isSome := by decide +kernel
  have hscaled : t.balance?.map Node.groups ≠ some t.groups := by decide +kernel
  have hsmall : ∀ g ∈ t.groups, g.length ≤ 40 ∧ ∀ x ∈ g, Share.usable x → Share.moderate x := by
    decide +kernel
  obtain ⟨m, hm⟩ := Option.isSome_iff_exists.mp hsome
  rw [hm, Option.map_some] at hscaled
  have hself := (rebalancing_normalizes_groups (α := Unit)).2 t m hm hsmall
  obtain ⟨k, hk, -, -, -, hiff⟩ := (rebalancing_normalizes_groups (α := Unit)).1 t m hm
  have hkm : k = m := Option.some.inj (hk.symm.trans hself)
  exact ⟨t, m, by decide +kernel, hm, mt (congrArg some) hscaled, hself, hiff.mp hkm⟩

/-- One large share and 132 small ones. The first total loses every small share, and the total of
the scaled shares rounds every small one up. So it misses the whole by more than the tolerance, and
the group is scaled again. -/
theorem wide_group_moves_again :
    ¬∀ t m : Node Unit, t.balance? = some m → m.balance? = some m := by
  intro h
  let pane (n : UInt64) (size : Float32) : Node Unit := .leaf { id := ⟨n⟩, size } ()
  let t : Node Unit := .branch { id := ⟨1⟩ }
    (pane 2 16777216 :: (List.range 132).map fun i => pane (i.toUInt64 + 3) 1)
  have hsome : t.balance?.isSome := by decide +kernel
  have hmoves : (t.balance?.bind Node.balance?).map Node.groups ≠ t.balance?.map Node.groups := by
    decide +kernel
  obtain ⟨m, hm⟩ := Option.isSome_iff_exists.mp hsome
  rw [hm, Option.bind_some, h t m hm] at hmoves
  exact hmoves rfl

end Tiling
