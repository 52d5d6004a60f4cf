import Tiling.Proofs.Exchange
import Tiling.Proofs.SlotQueue

/-!
# Which slot is free first

A path tells where a node is: its length is the depth, and among the paths of one length a greater
one leads further to the right. The levels list the nodes of a tree from shallow to deep and from
right to left, so the slot for a new leaf is in the shallowest branch that has room, and of several
at that depth in the right-most one.
-/

namespace Tiling

variable {α : Type}

/-! ## 1. The order of the paths -/

/-- Whether `p` leads to a lesser depth than `q`, or further to the right at the same depth. -/
def Path.Ahead (p q : Path) : Prop :=
  p.length < q.length ∨ p.length = q.length ∧ q < p

theorem Path.append_lt_append {p q : Path} (hlen : p.length = q.length) (h : p < q) (i j : Nat) :
    p ++ [i] < q ++ [j] := by
  induction p generalizing q with
  | nil =>
    rw [List.length_nil, eq_comm, List.length_eq_zero_iff] at hlen
    subst hlen
    exact absurd h (List.lt_irrefl [])
  | cons a p ih =>
    cases q with
    | nil => cases hlen
    | cons b q =>
      rw [List.cons_append, List.cons_append, List.cons_lt_cons_iff]
      cases List.cons_lt_cons_iff.mp h with
      | inl hab => exact .inl hab
      | inr hpq => exact .inr ⟨hpq.1, ih (Nat.succ.inj hlen) hpq.2⟩

/-! ## 2. Nodes with their paths -/

def below (level : List (Path × Node α)) : List (Path × Node α) :=
  level.flatMap fun e => (e.2.children.zipIdx.map fun c => (e.1 ++ [c.2], c.1)).reverse

def located : Nat → List (Path × Node α) → List (Path × Node α)
  | 0, _ => []
  | depth + 1, level => level ++ located depth (below level)

/-- The nodes at one depth of the tree, from right to left. -/
structure Level (n : Node α) (depth : Nat) (level : List (Path × Node α)) : Prop where
  mem_iff : ∀ p m, (p, m) ∈ level ↔ p.length = depth ∧ n.at? p = some m
  leftward : level.Pairwise fun e f => f.1 < e.1

/-- What lies below a level is one step further along its paths. -/
theorem mem_below {level : List (Path × Node α)} {q : Path} {k : Node α} :
    (q, k) ∈ below level ↔ ∃ p m i, (p, m) ∈ level ∧ m.children[i]? = some k ∧ q = p ++ [i] := by
  unfold below
  rw [List.mem_flatMap]
  constructor
  · intro h
    obtain ⟨⟨p, m⟩, hm, hk⟩ := h
    rw [List.mem_reverse, List.mem_map] at hk
    obtain ⟨⟨c, i⟩, hc, heq⟩ := hk
    cases heq
    exact ⟨p, m, i, hm, List.mem_zipIdx_iff_getElem?.mp hc, rfl⟩
  · intro h
    obtain ⟨p, m, i, hm, hk, rfl⟩ := h
    refine ⟨(p, m), hm, ?_⟩
    rw [List.mem_reverse, List.mem_map]
    exact ⟨(k, i), List.mem_zipIdx_iff_getElem?.mpr hk, rfl⟩

theorem map_snd_below (level : List (Path × Node α)) :
    (below level).map Prod.snd = Forest.nextLevel (level.map Prod.snd) := by
  unfold below Forest.nextLevel
  rw [List.map_flatMap, List.flatMap_map]
  refine List.flatMap_congr fun e _ => ?_
  rw [List.map_reverse, List.map_map]
  show (e.2.children.zipIdx.map Prod.fst).reverse = _
  rw [List.zipIdx_map_fst]

theorem map_snd_located (depth : Nat) (level : List (Path × Node α)) :
    (located depth level).map Prod.snd = Forest.levels depth (level.map Prod.snd) := by
  induction depth generalizing level with
  | zero => rfl
  | succ depth ih =>
    unfold located Forest.levels
    rw [List.map_append, ih, map_snd_below]

theorem level_root (n : Node α) : Level n 0 [([], n)] where
  mem_iff p m := by
    rw [List.mem_singleton, Prod.mk.injEq, List.length_eq_zero_iff]
    constructor
    · intro h
      obtain ⟨rfl, rfl⟩ := h
      exact ⟨rfl, rfl⟩
    · intro h
      obtain ⟨rfl, hm⟩ := h
      cases hm
      exact ⟨rfl, rfl⟩
  leftward := List.pairwise_singleton _ _

/-- The level below again lists all nodes of its depth from right to left. -/
theorem Level.below {n : Node α} {depth : Nat} {level : List (Path × Node α)}
    (h : Level n depth level) : Level n (depth + 1) (below level) where
  mem_iff q k := by
    rw [mem_below]
    constructor
    · intro hk
      obtain ⟨p, m, i, hm, hk, rfl⟩ := hk
      obtain ⟨hlen, hat⟩ := (h.mem_iff p m).mp hm
      rw [List.length_append, hlen, Node.at?_append, hat, Option.bind_some, Node.at?_cons, hk]
      exact ⟨rfl, rfl⟩
    · intro hk
      obtain ⟨hlen, hat⟩ := hk
      cases List.eq_nil_or_concat q with
      | inl hnil =>
        rw [hnil] at hlen
        cases hlen
      | inr hlast =>
        -- the parent is the node at the path without its last step
        obtain ⟨p, i, rfl⟩ := hlast
        rw [List.concat_eq_append, List.length_append, List.length_singleton,
          Nat.add_right_cancel_iff] at hlen
        rw [List.concat_eq_append, Node.at?_append, Option.bind_eq_some_iff] at hat
        obtain ⟨m, hm, hk⟩ := hat
        rw [Node.at?_cons, Option.bind_eq_some_iff] at hk
        obtain ⟨c, hc, hck⟩ := hk
        cases hck
        exact ⟨p, m, i, (h.mem_iff p m).mpr ⟨hlen, hm⟩, hc, List.concat_eq_append⟩
  leftward := by
    show List.Pairwise _ (level.flatMap _)
    rw [List.pairwise_flatMap]
    constructor
    · intro e _
      -- the children of one node part at their last step
      have hindex : e.2.children.zipIdx.Pairwise fun c d => c.2 < d.2 := by
        rw [← List.pairwise_map (R := (· < ·)), List.zipIdx_map_snd]
        exact List.pairwise_lt_range' 1
      rw [List.pairwise_reverse, List.pairwise_map]
      exact hindex.imp fun hlt => List.append_left_lt (List.cons_lt_cons_iff.mpr (.inl hlt))
    · -- children of two nodes stand as the nodes do, since the paths of a level are equally long
      refine h.leftward.imp_of_mem fun {e f} he hf hlt => ?_
      intro x hx y hy
      rw [List.mem_reverse, List.mem_map] at hx hy
      obtain ⟨c, -, rfl⟩ := hx
      obtain ⟨d, -, rfl⟩ := hy
      have hlen : f.1.length = e.1.length :=
        ((h.mem_iff _ _).mp hf).1.trans ((h.mem_iff _ _).mp he).1.symm
      exact Path.append_lt_append hlen hlt _ _

/-- The levels from one on hold exactly the nodes whose paths are that long. -/
theorem Level.mem_located {n : Node α} {depth : Nat} {level : List (Path × Node α)}
    (h : Level n depth level) (count : Nat) (p : Path) (m : Node α) :
    (p, m) ∈ located count level ↔
      depth ≤ p.length ∧ p.length < depth + count ∧ n.at? p = some m := by
  induction count generalizing depth level with
  | zero =>
    unfold located
    simp only [List.not_mem_nil, false_iff]
    omega
  | succ count ih =>
    unfold located
    rw [List.mem_append, h.mem_iff, ih h.below]
    by_cases hat : n.at? p = some m
    · simp only [hat, and_true]
      omega
    · simp only [hat, and_false, or_false]

/-- Level by level the paths come in the order of the search. -/
theorem Level.located_ahead {n : Node α} {depth : Nat} {level : List (Path × Node α)}
    (h : Level n depth level) (count : Nat) :
    (located count level).Pairwise fun e f => Path.Ahead e.1 f.1 := by
  induction count generalizing depth level with
  | zero => exact List.Pairwise.nil
  | succ count ih =>
    unfold located
    rw [List.pairwise_append]
    refine ⟨?_, ih h.below, ?_⟩
    · refine h.leftward.imp_of_mem fun {e f} he hf hlt => ?_
      have he := ((h.mem_iff _ _).mp he).1
      have hf := ((h.mem_iff _ _).mp hf).1
      exact .inr ⟨he.trans hf.symm, hlt⟩
    · intro e he f hf
      have he := ((h.mem_iff _ _).mp he).1
      have hf := ((h.below.mem_located count _ _).mp hf).1
      exact .inl (by omega)

/-- No path is as long as the tree is high. -/
theorem Node.length_lt_height {n m : Node α} {p : Path} (h : n.at? p = some m) :
    p.length < n.height := by
  induction p generalizing n with
  | nil =>
    rw [n.height_eq]
    exact Nat.succ_pos _
  | cons i p ih =>
    rw [at?_cons, Option.bind_eq_some_iff] at h
    obtain ⟨c, hc, hm⟩ := h
    have hheight : c.height ≤ Forest.height n.children :=
      Forest.height_le_iff.mp (Nat.le_refl _) c (List.mem_of_getElem? hc)
    rw [n.height_eq, List.length_cons]
    exact Nat.succ_lt_succ (Nat.lt_of_lt_of_le (ih hm) hheight)

/-- The level order lists each node of the tree once for each path to it, and what it lists earlier
is ahead. -/
theorem Node.exists_located (n : Node α) : ∃ es : List (Path × Node α),
    es.map Prod.snd = n.levelOrder ∧ (es.Pairwise fun e f => Path.Ahead e.1 f.1) ∧
      ∀ p m, (p, m) ∈ es ↔ n.at? p = some m := by
  refine ⟨located n.height [([], n)], map_snd_located _ _, (level_root n).located_ahead _, ?_⟩
  intro p m
  rw [(level_root n).mem_located]
  constructor
  · intro h
    exact h.2.2
  · intro h
    have hheight := length_lt_height h
    exact ⟨Nat.zero_le _, by omega, h⟩

/-! ## 3. The first node of a kind -/

namespace Node

/-- The node `m` at the path `p` is of the kind `P` and ahead of all others of that kind. -/
structure Foremost (n : Node α) (P : Node α → Prop) (p : Path) (m : Node α) : Prop where
  at_path : n.at? p = some m
  kind : P m
  ahead : ∀ q k, n.at? q = some k → P k → q ≠ p → Path.Ahead p q

/-- A search through the levels finds the foremost node that it can find. -/
theorem foremost_of_findSome? {β : Type} {n : Node α} {f : Node α → Option β} {b : β}
    (h : n.levelOrder.findSome? f = some b) :
    ∃ p m, n.Foremost (fun k => (f k).isSome) p m ∧ f m = some b := by
  obtain ⟨es, horder, hahead, hmem⟩ := n.exists_located
  rw [← horder, List.findSome?_map, List.findSome?_eq_some_iff] at h
  obtain ⟨front, ⟨p, m⟩, rest, rfl, hm, hnone⟩ := h
  have hfound : f m = some b := hm
  have hkind : (f m).isSome := by rw [hfound, Option.isSome_some]
  refine ⟨p, m, ⟨?_, hkind, ?_⟩, hfound⟩
  · exact (hmem p m).mp (List.mem_append_right _ List.mem_cons_self)
  · intro q k hk hkind hne
    have hkmem := (hmem q k).mpr hk
    rw [List.mem_append, List.mem_cons] at hkmem
    -- nothing of the kind was listed earlier, and what is listed later is behind
    rcases hkmem with hfront | heq | hrest
    · have hfk : f k = none := hnone _ hfront
      rw [hfk] at hkind
      cases hkind
    · cases heq
      exact absurd rfl hne
    · rw [List.pairwise_append, List.pairwise_cons] at hahead
      exact hahead.2.1.1 _ hrest

theorem findSome?_levelOrder_eq_none {β : Type} {n : Node α} {f : Node α → Option β} :
    n.levelOrder.findSome? f = none ↔ ∀ m ∈ n.nodes, f m = none := by
  obtain ⟨es, horder, -, hmem⟩ := n.exists_located
  rw [← horder, List.findSome?_eq_none_iff]
  constructor
  · intro h m hm
    obtain ⟨p, hp⟩ := exists_at?_of_mem_nodes hm
    exact h m (List.mem_map.mpr ⟨(p, m), (hmem p m).mpr hp, rfl⟩)
  · intro h m hm
    obtain ⟨⟨p, k⟩, hk, rfl⟩ := List.mem_map.mp hm
    exact h k (mem_nodes_of_at? ((hmem p k).mp hk))

/-! ## 4. The slot -/

def HasRoom (capacity : Nat) (n : Node α) : Prop :=
  n.isLeaf = false ∧ n.children.length < capacity

instance (capacity : Nat) : DecidablePred (HasRoom (α := α) capacity) := fun n =>
  inferInstanceAs (Decidable (n.isLeaf = false ∧ n.children.length < capacity))

theorem roomFor?_eq_some {capacity : Nat} {n : Node α} {slot : Slot} :
    n.roomFor? capacity = some slot ↔ n.HasRoom capacity ∧ slot = ⟨n.id, n.children.length⟩ := by
  cases n with
  | leaf h d => simp [roomFor?, HasRoom]
  | branch h cs => simp [roomFor?, HasRoom, eq_comm]

theorem isSome_roomFor? (capacity : Nat) (n : Node α) :
    (n.roomFor? capacity).isSome ↔ n.HasRoom capacity := by
  rw [Option.isSome_iff_exists]
  simp only [roomFor?_eq_some, exists_and_left, exists_eq, and_true]

theorem splitOf?_eq_some {n : Node α} {slot : Slot} :
    n.splitOf? = some slot ↔ n.isLeaf = true ∧ slot = ⟨n.id, 1⟩ := by
  cases n with
  | leaf h d => simp [splitOf?, eq_comm]
  | branch h cs => simp [splitOf?]

theorem isSome_splitOf? (n : Node α) : n.splitOf?.isSome ↔ n.isLeaf = true := by
  rw [Option.isSome_iff_exists]
  simp only [splitOf?_eq_some, exists_and_left, exists_eq, and_true]

theorem Foremost.of_iff {n : Node α} {P Q : Node α → Prop} {p : Path} {m : Node α}
    (h : n.Foremost P p m) (hPQ : ∀ k, P k ↔ Q k) : n.Foremost Q p m where
  at_path := h.at_path
  kind := (hPQ m).mp h.kind
  ahead q k hk hQ := h.ahead q k hk ((hPQ k).mpr hQ)

/-- With room in some container, the slot is in the foremost one. -/
theorem slot?_of_room {n : Node α} {capacity : Nat} (h : ∃ m ∈ n.nodes, m.HasRoom capacity) :
    ∃ p m, n.Foremost (HasRoom capacity) p m ∧
      n.slot? capacity = some ⟨m.id, m.children.length⟩ := by
  unfold slot?
  cases hfound : n.levelOrder.findSome? (roomFor? capacity) with
  | none =>
    obtain ⟨m, hm, hroom⟩ := h
    have hnone := findSome?_levelOrder_eq_none.mp hfound m hm
    rw [← isSome_roomFor?, hnone] at hroom
    cases hroom
  | some slot =>
    obtain ⟨p, m, hfirst, hslot⟩ := foremost_of_findSome? hfound
    refine ⟨p, m, hfirst.of_iff (isSome_roomFor? capacity), ?_⟩
    rw [(roomFor?_eq_some.mp hslot).2]

theorem slot?_of_full {n : Node α} {capacity : Nat} (h : ∀ m ∈ n.nodes, ¬m.HasRoom capacity) :
    n.slot? capacity = n.levelOrder.findSome? splitOf? := by
  have hnone : n.levelOrder.findSome? (roomFor? capacity) = none := by
    rw [findSome?_levelOrder_eq_none]
    intro m hm
    rw [← Option.not_isSome_iff_eq_none, isSome_roomFor?]
    exact h m hm
  unfold slot?
  rw [hnone]

/-- Without room, the slot splits the foremost leaf. -/
theorem slot?_of_leaf {n : Node α} {capacity : Nat} (h : ∀ m ∈ n.nodes, ¬m.HasRoom capacity)
    (hleaf : n.leaves ≠ []) :
    ∃ p m, n.Foremost (fun k => k.isLeaf = true) p m ∧ n.slot? capacity = some ⟨m.id, 1⟩ := by
  rw [slot?_of_full h]
  cases hfound : n.levelOrder.findSome? splitOf? with
  | none =>
    obtain ⟨m, hm⟩ := List.exists_mem_of_ne_nil _ hleaf
    obtain ⟨hm, hisLeaf⟩ := List.mem_filter.mp hm
    have hnone := findSome?_levelOrder_eq_none.mp hfound m hm
    rw [← isSome_splitOf?, hnone] at hisLeaf
    cases hisLeaf
  | some slot =>
    obtain ⟨p, m, hfirst, hslot⟩ := foremost_of_findSome? hfound
    refine ⟨p, m, hfirst.of_iff isSome_splitOf?, ?_⟩
    rw [(splitOf?_eq_some.mp hslot).2]

/-- Without room and without leaves there is no slot. -/
theorem slot?_of_leafless {n : Node α} {capacity : Nat} (h : ∀ m ∈ n.nodes, ¬m.HasRoom capacity)
    (hleaf : n.leaves = []) : n.slot? capacity = none := by
  rw [slot?_of_full h, findSome?_levelOrder_eq_none]
  intro m hm
  rw [← Option.not_isSome_iff_eq_none, isSome_splitOf?]
  exact List.filter_eq_nil_iff.mp hleaf m hm

/-- A slot is behind the children of a branch with room, or behind a leaf when no branch has any. -/
theorem slot?_cases {n : Node α} {capacity : Nat} {slot : Slot}
    (h : n.slot? capacity = some slot) :
    (∃ m ∈ n.nodes, m.HasRoom capacity ∧ slot = ⟨m.id, m.children.length⟩) ∨
      (∀ m ∈ n.nodes, ¬m.HasRoom capacity) ∧ ∃ m ∈ n.nodes, m.isLeaf = true ∧ slot = ⟨m.id, 1⟩ := by
  by_cases hroom : ∃ m ∈ n.nodes, m.HasRoom capacity
  · obtain ⟨p, m, hfirst, hslot⟩ := slot?_of_room hroom
    have heq : slot = ⟨m.id, m.children.length⟩ := Option.some.inj (h.symm.trans hslot)
    exact .inl ⟨m, mem_nodes_of_at? hfirst.at_path, hfirst.kind, heq⟩
  · have hfull : ∀ m ∈ n.nodes, ¬m.HasRoom capacity := fun m hm hm' => hroom ⟨m, hm, hm'⟩
    by_cases hleaf : n.leaves = []
    · rw [slot?_of_leafless hfull hleaf] at h
      cases h
    · obtain ⟨p, m, hfirst, hslot⟩ := slot?_of_leaf hfull hleaf
      have heq : slot = ⟨m.id, 1⟩ := Option.some.inj (h.symm.trans hslot)
      exact .inr ⟨hfull, m, mem_nodes_of_at? hfirst.at_path, hfirst.kind, heq⟩

/-- A tree that has a leaf has a slot, whatever the capacity. -/
theorem exists_slot? {n : Node α} (hleaf : n.leaves ≠ []) (capacity : Nat) :
    ∃ slot, n.slot? capacity = some slot := by
  by_cases hroom : ∃ m ∈ n.nodes, m.HasRoom capacity
  · obtain ⟨p, m, -, hslot⟩ := slot?_of_room hroom
    exact ⟨_, hslot⟩
  · obtain ⟨p, m, -, hslot⟩ := slot?_of_leaf (fun m hm hm' => hroom ⟨m, hm, hm'⟩) hleaf
    exact ⟨_, hslot⟩

end Node

/-- In a tree with distinct identifiers a new leaf goes behind the children of the shallowest,
right-most branch with room. Where no branch has room, it goes behind the shallowest, right-most
leaf, and without a leaf nowhere. The search with a queue finds this slot. -/
theorem slot_is_first_free (n : Node α) (capacity : Nat) (hd : n.ids.Nodup) :
    ((∃ m ∈ n.nodes, m.HasRoom capacity) →
      ∃ p m, n.Foremost (Node.HasRoom capacity) p m ∧ n.path? m.id = some p ∧
        n.slot? capacity = some ⟨m.id, m.children.length⟩) ∧
    ((∀ m ∈ n.nodes, ¬m.HasRoom capacity) → n.leaves ≠ [] →
      ∃ p m, n.Foremost (fun k => k.isLeaf = true) p m ∧ n.path? m.id = some p ∧
        n.slot? capacity = some ⟨m.id, 1⟩) ∧
    ((∀ m ∈ n.nodes, ¬m.HasRoom capacity) → n.leaves = [] → n.slot? capacity = none) ∧
    n.searchSlot? capacity = n.slot? capacity := by
  refine ⟨fun hroom => ?_, fun hfull hleaf => ?_, Node.slot?_of_leafless, n.searchSlot?_eq capacity⟩
  · obtain ⟨p, m, hfirst, hslot⟩ := Node.slot?_of_room hroom
    exact ⟨p, m, hfirst, Node.path?_of_at? hd hfirst.at_path, hslot⟩
  · obtain ⟨p, m, hfirst, hslot⟩ := Node.slot?_of_leaf hfull hleaf
    exact ⟨p, m, hfirst, Node.path?_of_at? hd hfirst.at_path, hslot⟩

/-- Of two columns with room the right one takes the next leaf, though a row below the left one has
room too. When all are full, the leaf beside the columns is split. -/
theorem right_column_is_filled_first :
    ∃ n : Node Unit, n.slot? 4 = some ⟨⟨6⟩, 3⟩ ∧ n.slot? 2 = some ⟨⟨10⟩, 1⟩ ∧
      (∃ p m, n.Foremost (Node.HasRoom 4) p m ∧ m.id = ⟨6⟩ ∧ p = [2]) ∧
      ∃ p m, n.Foremost (fun k => k.isLeaf = true) p m ∧ m.id = ⟨10⟩ ∧ p = [3] := by
  let pane (n : UInt64) : Node Unit := .leaf { id := ⟨n⟩ } ()
  let branch (n : UInt64) (cs : Forest Unit) : Node Unit := .branch { id := ⟨n⟩ } cs
  let n := branch 1 [pane 11, branch 2 [pane 3, branch 12 [pane 4, pane 5]],
    branch 6 [pane 7, pane 8, pane 9], pane 10]
  obtain ⟨hroom, -, -, -⟩ := slot_is_first_free n 4 (by decide)
  obtain ⟨-, hfull, -, -⟩ := slot_is_first_free n 2 (by decide)
  obtain ⟨p, m, hfirst, hpath, hslot⟩ := hroom (by decide)
  obtain ⟨q, k, hleaf, hpath', hsplit⟩ := hfull (by decide) (by decide)
  have hfour : n.slot? 4 = some ⟨⟨6⟩, 3⟩ := by decide +kernel
  have htwo : n.slot? 2 = some ⟨⟨10⟩, 1⟩ := by decide +kernel
  have hm : m.id = ⟨6⟩ := congrArg Slot.node (Option.some.inj (hslot.symm.trans hfour))
  have hk : k.id = ⟨10⟩ := congrArg Slot.node (Option.some.inj (hsplit.symm.trans htwo))
  rw [hm] at hpath
  rw [hk] at hpath'
  exact ⟨n, hfour, htwo, ⟨p, m, hfirst, hm, Option.some.inj hpath.symm⟩,
    ⟨q, k, hleaf, hk, Option.some.inj hpath'.symm⟩⟩

end Tiling
