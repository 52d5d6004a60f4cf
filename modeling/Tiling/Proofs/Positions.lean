import Tiling.Proofs.Congruence

/-!
# One position for each identifier

The searches for a node, for its parent and for the path to it walk the tree one by one, each on
its own. In a tree with distinct identifiers they all mean one position: the path that is found
leads to the node that is found and through its parent, and what is updated by identifier is what
is set at the path.
-/

namespace Tiling

variable {α : Type}

namespace Node

/-- The node `m` at the path `p` is what the searches for `id` find and update. -/
structure Locates (n : Node α) (id : NodeId) (p : Path) (m : Node α) : Prop where
  at_path : n.at? p = some m
  found : n.find? id = some m
  updated : ∀ f, n.update? id f = some (setAt (f m) p n)

/-- The branch `m` at the path `p` is what the searches for the parent of `id` find and update, and
the node looked for is the child with the index `i`. -/
structure LocatesParent (n : Node α) (id : NodeId) (p : Path) (i : Nat) (m : Node α) : Prop where
  at_path : n.at? p = some m
  found : n.parent? id = some m
  updated : ∀ f, n.updateParent? id f = some (setAt (f m) p n)
  index : m.childIndex? id = some i

/-! ## 1. Which searches succeed -/

theorem isSome_find? {id : NodeId} {n : Node α} : (n.find? id).isSome ↔ id ∈ n.ids :=
  contains_iff

theorem isSome_path? {id : NodeId} {n : Node α} : (n.path? id).isSome ↔ id ∈ n.ids := by
  rw [Option.isSome_iff_ne_none, ne_eq, path?_eq_none, not_not]

theorem isSome_update? {id : NodeId} {n : Node α} (f : Node α → Node α) :
    (n.update? id f).isSome ↔ id ∈ n.ids := by
  rw [← isSome_find?]
  cases hfind : n.find? id with
  | none => rw [update?_eq_none (find?_eq_none.mp hfind)]
  | some m =>
    obtain ⟨rfl, c, rfl, hbefore⟩ := exists_plug_of_find? hfind
    rw [update?_plug f hbefore]
    exact iff_of_true rfl rfl

/-- Only the root has the empty path. -/
theorem path?_eq_nil {id : NodeId} {n : Node α} : n.path? id = some [] ↔ id = n.id := by
  constructor
  · intro h
    obtain ⟨m, hm, hid⟩ := at?_of_path? h
    cases hm
    exact hid.symm
  · rintro rfl
    cases n <;> exact if_pos rfl

/-- The nodes other than the top one are those with a path that goes somewhere. -/
theorem exists_path_ne_nil {id : NodeId} {n : Node α} :
    (∃ p, n.path? id = some p ∧ p ≠ []) ↔ id ≠ n.id ∧ id ∈ n.ids := by
  rw [← isSome_path?, Option.isSome_iff_exists, ne_eq, ← path?_eq_nil]
  constructor
  · rintro ⟨p, hp, hne⟩
    exact ⟨fun hnil => hne (Option.some.inj (hp.symm.trans hnil)), p, hp⟩
  · rintro ⟨hnil, p, hp⟩
    exact ⟨p, hp, fun heq => hnil (heq ▸ hp)⟩

/-! ## 2. Where they lead -/

variable {n : Node α}

/-- Updating a node by id is replacing what stands at its path. -/
theorem update?_eq_setAt {m : Node α} {p : Path} (hd : n.ids.Nodup) (hm : n.at? p = some m)
    (f : Node α → Node α) : n.update? m.id f = some (setAt (f m) p n) := by
  obtain ⟨c, rfl, hset⟩ := exists_plug_of_at? hm
  rw [hset, update?_plug f (not_mem_idsBefore (List.nodup_iff_count_le_one.mp hd m.id))]

/-- The path found for an id leads to the node that the search finds. -/
theorem locates_of_path? {id : NodeId} {p : Path} (hd : n.ids.Nodup) (hp : n.path? id = some p) :
    ∃ m, n.Locates id p m := by
  obtain ⟨m, hm, rfl⟩ := at?_of_path? hp
  exact ⟨m, hm, find?_of_mem_nodes hd (mem_nodes_of_at? hm), update?_eq_setAt hd hm⟩

theorem updateParent?_eq_setAt {m k : Node α} {p : Path} (hd : n.ids.Nodup)
    (hm : n.at? p = some m) (hk : k ∈ m.children) (f : Node α → Node α) :
    n.updateParent? k.id f = some (setAt (f m) p n) := by
  obtain ⟨c, rfl, hset⟩ := exists_plug_of_at? hm
  rw [hset, updateParent?_plug hd hk]

/-- Where identifiers are distinct, a child's index is the one that is found. -/
theorem childIndex?_of_getElem? {m k : Node α} {i : Nat} (hd : m.ids.Nodup)
    (hk : m.children[i]? = some k) : m.childIndex? k.id = some i := by
  cases m with
  | leaf h d => cases hk
  | branch h cs =>
    rw [children_branch] at hk
    rw [ids_branch, List.nodup_cons] at hd
    obtain ⟨hi, rfl⟩ := List.getElem?_eq_some_iff.mp hk
    have hbefore : ∀ c ∈ cs.take i, c.id ≠ cs[i].id := by
      intro c hc heq
      obtain ⟨j, hj, rfl⟩ := List.mem_take_iff_getElem.mp hc
      rw [Nat.lt_min] at hj
      have hnot := Forest.not_mem_ids_of_ne hd.2 (Nat.ne_of_lt hj.1)
        (List.getElem?_eq_getElem hj.2) hk (self_mem_nodes cs[j]) (self_mem_nodes cs[i])
      exact hnot (heq ▸ id_mem_ids cs[j])
    have hindex := childIndex?_branch (h := h) (y := cs.drop (i + 1)) hbefore
    rwa [List.getElem_cons_drop, List.take_append_drop,
      List.length_take_of_le (Nat.le_of_lt hi)] at hindex

/-- The path without its last step leads to the parent, and the last step is the index in it. -/
theorem locatesParent_of_path? {id : NodeId} {p : Path} {i : Nat} (hd : n.ids.Nodup)
    (hp : n.path? id = some (p ++ [i])) : ∃ m, n.LocatesParent id p i m := by
  obtain ⟨k, hk, rfl⟩ := at?_of_path? hp
  rw [at?_append, Option.bind_eq_some_iff] at hk
  obtain ⟨m, hm, hk⟩ := hk
  rw [at?_cons, Option.bind_eq_some_iff] at hk
  obtain ⟨c, hc, hk⟩ := hk
  cases hk
  have hmn := mem_nodes_of_at? hm
  have hmem := List.mem_of_getElem? hc
  exact ⟨m, hm, (parent?_eq_some_iff hd).mpr ⟨hmn, k, hmem, rfl⟩,
    updateParent?_eq_setAt hd hm hmem,
    childIndex?_of_getElem? (nodup_ids_of_mem_nodes hd hmn) hc⟩

/-! ## 3. One position -/

/-- In a tree with distinct identifiers all searches for an identifier succeed together, just if it
occurs, and lead to one node; those for the parent succeed below the top node and lead to the node
one step above, which has the child at the last index of the path; and a path begins another just
if the one node is in the other's subtree. -/
theorem searches_agree_on_position (n : Node α) (hd : n.ids.Nodup) :
    (∀ id, ((n.find? id).isSome ↔ id ∈ n.ids) ∧ (∀ f, (n.update? id f).isSome ↔ id ∈ n.ids) ∧
      (n.contains id ↔ id ∈ n.ids) ∧ ((n.path? id).isSome ↔ id ∈ n.ids)) ∧
    (∀ id p, n.path? id = some p → ∃ m, n.Locates id p m) ∧
    (∀ id, ((n.parent? id).isSome ↔ ∃ p, n.path? id = some p ∧ p ≠ []) ∧
      ∀ f, (n.updateParent? id f).isSome ↔ ∃ p, n.path? id = some p ∧ p ≠ []) ∧
    (∀ id p i, n.path? id = some (p ++ [i]) → ∃ m, n.LocatesParent id p i m) ∧
    ∀ upper lower p q a, n.path? upper = some p → n.path? lower = some q →
      n.find? upper = some a → (p <+: q ↔ a.contains lower) := by
  refine ⟨fun id => ⟨isSome_find?, isSome_update?, contains_iff, isSome_path?⟩,
    fun id p => locates_of_path? hd, fun id => ?_, fun id p i => locatesParent_of_path? hd, ?_⟩
  · rw [exists_path_ne_nil]
    exact ⟨isSome_parent?, isSome_updateParent?⟩
  · intro upper lower p q a hp hq ha
    obtain ⟨m, hm⟩ := locates_of_path? hd hp
    obtain rfl := Option.some.inj (hm.found.symm.trans ha)
    obtain ⟨b, hb, rfl⟩ := at?_of_path? hq
    rw [← List.isPrefixOf_iff_prefix, contains_iff]
    exact isPrefixOf_iff_mem_ids hd hm.at_path hb

/-- The last pane of a column is found as the second child of the column. -/
theorem last_pane_is_below_column :
    ∃ root column : Node Unit, root.ids.Nodup ∧ column.id = ⟨3⟩ ∧
      root.path? ⟨5⟩ = some [1, 1] ∧ root.LocatesParent ⟨5⟩ [1] 1 column ∧
      ([1] <+: [1, 1] ↔ column.contains ⟨5⟩) := by
  let pane (n : UInt64) : Node Unit := .leaf { id := ⟨n⟩ } ()
  let column : Node Unit := .branch { id := ⟨3⟩, orientation := .column } [pane 4, pane 5]
  let root : Node Unit := .branch { id := ⟨1⟩ } [pane 2, column]
  have hd : root.ids.Nodup := by decide
  obtain ⟨-, -, -, hparent, hbegins⟩ := searches_agree_on_position root hd
  obtain ⟨m, hm⟩ := hparent ⟨5⟩ [1] 1 (by decide)
  obtain rfl : m = column := Option.some.inj (hm.at_path.symm.trans rfl)
  exact ⟨root, column, hd, rfl, by decide, hm,
    hbegins ⟨3⟩ ⟨5⟩ [1] [1, 1] column (by decide) (by decide) rfl⟩

end Node

end Tiling
