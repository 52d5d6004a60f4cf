import Tiling.Proofs.Groups

/-!
# What balancing keeps

Balancing keeps the leaves and the branches with leaves below two or more of their children, in
their order and below the same ancestors as far as these are kept. The first node that is kept of a
subtree takes the subtree's place among its siblings and its size. Nothing is assumed of the
identifiers: they may repeat, so all is said of the nodes in their order.
-/

namespace Tiling

variable {α : Type}

mutual

/-- Each node of a subtree, in the order of `nodes`, with the nodes above it from the top on. -/
def Node.lineages : Node α → List (List (Node α) × Node α)
  | .leaf h d => [([], .leaf h d)]
  | .branch h cs =>
      ([], .branch h cs) :: (Forest.lineages cs).map fun l => (.branch h cs :: l.1, l.2)

def Forest.lineages : Forest α → List (List (Node α) × Node α)
  | [] => []
  | c :: cs => c.lineages ++ Forest.lineages cs

end

theorem Forest.lineages_eq_flatMap (cs : Forest α) :
    Forest.lineages cs = cs.flatMap Node.lineages := by
  induction cs with
  | nil => rfl
  | cons c cs ih => rw [Forest.lineages, ih, List.flatMap_cons]

namespace Node

def survives (n : Node α) : Bool :=
  n.isLeaf || 2 ≤ n.children.countP bears

/-- The first node of the subtree that balancing keeps. It takes the place of the subtree. -/
def heir? (n : Node α) : Option (Node α) :=
  n.nodes.find? survives

def mark (n : Node α) : NodeId × Bool × Option α :=
  -- These are what balancing changes in no node.
  (n.id, n.visible, n.datum?)

def marks (n : Node α) : List (List (NodeId × Bool × Option α) × (NodeId × Bool × Option α)) :=
  n.lineages.map fun l => (l.1.map mark, l.2.mark)

def survivingMarks (n : Node α) :
    List (List (NodeId × Bool × Option α) × (NodeId × Bool × Option α)) :=
  (n.lineages.filter fun l => l.2.survives).map fun l =>
    ((l.1.filter survives).map mark, l.2.mark)

def families (n : Node α) : List (NodeId × List NodeId) :=
  n.nodes.map fun m => (m.id, m.children.map id)

def survivingFamilies (n : Node α) : List (NodeId × List NodeId) :=
  (n.nodes.filter survives).map fun m => (m.id, (m.children.filterMap heir?).map id)

def survivingGroups (n : Node α) : List (List Float32) :=
  (n.nodes.filter survives).map fun m => Share.normalize ((m.children.filter bears).map size)

/-- `m` is what balancing keeps of `n`, whose first surviving node is `top`. -/
structure CondensesTo (n m top : Node α) : Prop where
  ids_eq : m.ids = (n.nodes.filter survives).map id
  leaves_eq : m.leaves.map mark = n.leaves.map mark
  marks_eq : m.marks = n.survivingMarks
  families_eq : m.families = n.survivingFamilies
  groups_eq : m.groups = n.survivingGroups
  size_eq : m.size = n.size
  top_eq : n.heir? = some top
  mark_eq : m.mark = top.mark
  orientation_eq : m.orientation = if top.isLeaf then n.orientation else top.orientation

/-! ## 1. Surviving nodes -/

@[simp] theorem survives_leaf (h : Header) (d : α) : (leaf h d).survives = true := rfl

@[simp] theorem survives_branch (h : Header) (cs : Forest α) :
    (branch h cs).survives = decide (2 ≤ cs.countP bears) := rfl

theorem stays_entry (n : Node α) : n.entry.stays = n.survives := by
  cases n <;> rfl

/-- The survivors are the identifiers of the nodes that survive. -/
theorem survivors_eq (n : Node α) : n.survivors = (n.nodes.filter survives).map id := by
  rw [survivors, census, List.filter_map, List.map_map]
  exact congrArg _ (List.filter_congr fun m _ => stays_entry m)

/-- What balancing makes of a subtree shows in a view of it, if the view does not see where a node
that takes over a place comes from, and sees a branch that stays with the children it keeps. -/
theorem flatMap_prune? {β : Type} {before after : Node α → List β}
    (leaf : ∀ h d, after (leaf h d) = before (leaf h d))
    (inherit : ∀ n place, after (n.inherit place) = after n)
    (lost : ∀ h cs, ¬2 ≤ cs.countP bears → before (branch h cs) = cs.flatMap before)
    (kept : ∀ h cs, 2 ≤ cs.countP bears →
      (cs.filterMap prune?).flatMap after = cs.flatMap before →
      after (branch h (Forest.normalize (cs.filterMap prune?))) = before (branch h cs))
    (n : Node α) : n.prune?.toList.flatMap after = before n := by
  induction n with
  | leaf h d => simp [prune?, leaf]
  | branch h cs ih =>
    have hbelow := flatMap_filterMap_prune? ih
    have hlength : (cs.filterMap prune?).length = cs.countP bears :=
      length_filterMap_prune? fun c _ => (prune?_census c).1
    by_cases htwo : 2 ≤ cs.countP bears
    · rw [Context.prune?_of_two (hlength ▸ htwo), Option.toList_some, List.flatMap_singleton]
      exact kept h cs htwo hbelow
    · rw [lost h cs htwo, ← hbelow, prune?_branch]
      -- nothing remains of the branch, or the one child in its place
      rcases hks : cs.filterMap prune? with _ | ⟨only, _ | ⟨k, ks⟩⟩
      · rfl
      · simp [inherit]
      · simp [← hlength, hks] at htwo

/-- What is told of the optional result is told of the result. -/
theorem after_of_prune? {β : Type} {before after : Node α → List β} {n k : Node α}
    (h : n.prune?.toList.flatMap after = before n) (hk : n.prune? = some k) :
    after k = before n := by
  rw [← h, hk, Option.toList_some, List.flatMap_singleton]

/-! ## 2. Lineages -/

@[simp] theorem lineages_branch (h : Header) (cs : Forest α) :
    (branch h cs).lineages = ([], branch h cs) ::
      (cs.flatMap lineages).map fun l => (branch h cs :: l.1, l.2) := by
  rw [lineages, Forest.lineages_eq_flatMap]

theorem map_snd_lineages (n : Node α) : n.lineages.map Prod.snd = n.nodes := by
  induction n with
  | leaf h d => rfl
  | branch h cs ih =>
    rw [lineages_branch, List.map_cons, List.map_map, nodes_branch]
    refine congrArg (branch h cs :: ·) ?_
    show (cs.flatMap lineages).map Prod.snd = _
    rw [List.map_flatMap]
    exact List.flatMap_congr ih

theorem marks_branch (h : Header) (cs : Forest α) :
    (branch h cs).marks = ([], h.id, h.visible, none) ::
      (cs.flatMap marks).map fun l => ((h.id, h.visible, none) :: l.1, l.2) := by
  have hbelow : cs.flatMap marks =
      (cs.flatMap lineages).map fun l => (l.1.map mark, l.2.mark) := by
    rw [List.map_flatMap]
    rfl
  rw [marks, lineages_branch, hbelow, List.map_cons, List.map_map, List.map_map]
  rfl

theorem survivingMarks_branch (h : Header) (cs : Forest α) :
    (branch h cs).survivingMarks =
      if 2 ≤ cs.countP bears then ([], h.id, h.visible, none) ::
        (cs.flatMap survivingMarks).map fun l => ((h.id, h.visible, none) :: l.1, l.2)
      else cs.flatMap survivingMarks := by
  have hbelow : cs.flatMap survivingMarks =
      ((cs.flatMap lineages).filter fun l => l.2.survives).map fun l =>
        ((l.1.filter survives).map mark, l.2.mark) := by
    rw [List.filter_flatMap, List.map_flatMap]
    rfl
  rw [survivingMarks, lineages_branch, List.filter_cons, survives_branch, List.filter_map, hbelow]
  by_cases htwo : 2 ≤ cs.countP bears
  · have hself : (branch h cs).survives = true := decide_eq_true htwo
    simp only [htwo, decide_true, if_true, List.map_cons, List.map_map]
    congr 1
    refine List.map_congr_left fun l _ => ?_
    simp only [Function.comp_apply, List.filter_cons_of_pos hself, List.map_cons]
    rfl
  · have hself : ¬(branch h cs).survives = true := mt of_decide_eq_true htwo
    simp only [htwo, decide_false, Bool.false_eq_true, if_false, List.map_map]
    refine List.map_congr_left fun l _ => ?_
    simp only [Function.comp_apply, List.filter_cons_of_neg hself]

theorem marks_mapHeader {f : Header → Header}
    (hf : ∀ h, (f h).id = h.id ∧ (f h).visible = h.visible) (n : Node α) :
    (n.mapHeader f).marks = n.marks := by
  cases n with
  | leaf h d =>
    show [([], (f h).id, (f h).visible, some d)] = _
    rw [(hf h).1, (hf h).2]
    rfl
  | branch h cs => rw [mapHeader, marks_branch, marks_branch, (hf h).1, (hf h).2]

@[simp] theorem marks_withSize (n : Node α) (size : Float32) :
    (n.withSize size).marks = n.marks := by
  rw [withSize, marks_mapHeader]
  exact fun _ => ⟨rfl, rfl⟩

@[simp] theorem marks_withOrientation (n : Node α) (o : Orientation) :
    (n.withOrientation o).marks = n.marks := by
  rw [withOrientation, marks_mapHeader]
  exact fun _ => ⟨rfl, rfl⟩

/-- To take over a place leaves all marks. -/
theorem marks_inherit (n : Node α) (place : Header) : (n.inherit place).marks = n.marks := by
  rw [inherit]
  split <;> simp

@[simp] theorem marks_orient (o : Orientation) (n : Node α) : (n.orient o).marks = n.marks := by
  induction n generalizing o with
  | leaf h d => rfl
  | branch h cs ih =>
    have hbelow : (cs.map (orient o.reverse)).flatMap marks = cs.flatMap marks := by
      rw [List.flatMap_map]
      exact List.flatMap_congr fun c hc => ih c hc _
    rw [orient, Forest.orient_eq_map, marks_branch, marks_branch, hbelow]

/-- Pruning leaves the marks of the nodes that survive, under those of the survivors above them. -/
theorem marks_prune? (n : Node α) : n.prune?.toList.flatMap marks = n.survivingMarks := by
  refine flatMap_prune? ?_ marks_inherit ?_ ?_ n
  · intro h d
    rfl
  · intro h cs htwo
    rw [survivingMarks_branch, if_neg htwo]
  · intro h cs htwo hbelow
    rw [marks_branch, Forest.flatMap_normalize marks_withSize, hbelow, survivingMarks_branch,
      if_pos htwo]

/-- The marks of the nodes alone. -/
theorem map_mark_nodes (n : Node α) : n.nodes.map mark = n.marks.map Prod.snd := by
  rw [← map_snd_lineages, marks, List.map_map, List.map_map]
  rfl

theorem map_mark_survivors (n : Node α) :
    (n.nodes.filter survives).map mark = n.survivingMarks.map Prod.snd := by
  rw [← map_snd_lineages, survivingMarks, List.filter_map, List.map_map, List.map_map]
  rfl

/-- Which nodes are leaves can be seen from their marks. -/
theorem map_mark_leaves (n : Node α) :
    n.leaves.map mark = (n.nodes.map mark).filter fun mark => mark.2.2.isSome := by
  rw [leaves, List.filter_map]
  refine congrArg _ (List.filter_congr fun k _ => ?_)
  cases k <;> rfl

/-- All leaves survive, with their marks. -/
theorem map_mark_surviving_leaves (n : Node α) :
    n.leaves.map mark =
      ((n.nodes.filter survives).map mark).filter fun mark => mark.2.2.isSome := by
  rw [leaves, List.filter_map, List.filter_filter]
  refine congrArg _ (List.filter_congr fun k _ => ?_)
  cases k <;> simp [mark, datum?]

/-! ## 3. Families and groups -/

theorem families_branch (h : Header) (cs : Forest α) :
    (branch h cs).families = (h.id, cs.map id) :: cs.flatMap families := by
  rw [families, nodes_branch, List.map_cons, List.map_flatMap]
  rfl

theorem families_mapHeader {f : Header → Header} (hid : ∀ h, (f h).id = h.id) (n : Node α) :
    (n.mapHeader f).families = n.families := by
  cases n with
  | leaf h d =>
    show [((f h).id, [])] = _
    rw [hid]
    rfl
  | branch h cs => rw [mapHeader, families_branch, families_branch, hid]

@[simp] theorem families_withSize (n : Node α) (size : Float32) :
    (n.withSize size).families = n.families := by
  rw [withSize, families_mapHeader]
  exact fun _ => rfl

@[simp] theorem families_withOrientation (n : Node α) (o : Orientation) :
    (n.withOrientation o).families = n.families := by
  rw [withOrientation, families_mapHeader]
  exact fun _ => rfl

@[simp] theorem families_inherit (n : Node α) (place : Header) :
    (n.inherit place).families = n.families := by
  rw [inherit]
  split <;> simp

@[simp] theorem families_orient (o : Orientation) (n : Node α) :
    (n.orient o).families = n.families := by
  induction n generalizing o with
  | leaf h d => rfl
  | branch h cs ih =>
    have hids : (cs.map (orient o.reverse)).map id = cs.map id := by
      rw [List.map_map]
      exact List.map_congr_left fun c _ => id_orient _ c
    have hbelow : (cs.map (orient o.reverse)).flatMap families = cs.flatMap families := by
      rw [List.flatMap_map]
      exact List.flatMap_congr fun c hc => ih c hc _
    rw [orient, Forest.orient_eq_map, families_branch, families_branch, hids, hbelow]

/-- What is read off the surviving nodes of a branch. -/
theorem map_survivors_branch {β : Type} (f : Node α → β) (h : Header) (cs : Forest α) :
    ((branch h cs).nodes.filter survives).map f =
      (if 2 ≤ cs.countP bears then [f (branch h cs)] else []) ++
        cs.flatMap fun c => (c.nodes.filter survives).map f := by
  rw [nodes_branch, List.filter_cons, List.filter_flatMap, survives_branch, ← List.map_flatMap]
  by_cases htwo : 2 ≤ cs.countP bears <;> simp [htwo]

def heading (n : Node α) : NodeId × Option Orientation :=
  -- A leaf takes over the orientation of the subtree, a branch keeps its own.
  (n.id, if n.isLeaf then none else some n.orientation)

theorem heading_inherit (n : Node α) (place : Header) :
    (n.inherit place).heading = n.heading := by
  cases n <;> rfl

theorem heir?_branch (h : Header) (cs : Forest α) :
    (branch h cs).heir? =
      if 2 ≤ cs.countP bears then some (branch h cs) else cs.findSome? heir? := by
  rw [heir?, nodes_branch, List.find?_cons, survives_branch]
  by_cases htwo : 2 ≤ cs.countP bears
  · simp [htwo]
  · simp only [htwo, decide_false, if_false]
    exact List.find?_flatMap

/-- The pruned tree is headed by the first node that survives. -/
theorem heading_prune? (n : Node α) : n.prune?.map heading = n.heir?.map heading := by
  induction n with
  | leaf h d => rfl
  | branch h cs ih =>
    have hlength : (cs.filterMap prune?).length = cs.countP bears :=
      length_filterMap_prune? fun c _ => (prune?_census c).1
    -- the first child that is kept comes from the first one with an heir
    have hfirst : (cs.filterMap prune?).head?.map heading = (cs.findSome? heir?).map heading := by
      rw [← List.head?_filterMap, ← List.head?_map, ← List.head?_map, List.map_filterMap,
        List.map_filterMap, List.filterMap_congr ih]
    rw [heir?_branch]
    by_cases htwo : 2 ≤ cs.countP bears
    · rw [Context.prune?_of_two (hlength ▸ htwo), if_pos htwo]
      rfl
    · rw [if_neg htwo, ← hfirst, prune?_branch]
      rcases hks : cs.filterMap prune? with _ | ⟨only, _ | ⟨k, ks⟩⟩
      · rfl
      · simp [heading_inherit]
      · simp [← hlength, hks] at htwo

/-- The pruned tree has the identifier of the first node that survives. -/
theorem id_of_prune? (n : Node α) : n.prune?.map id = n.heir?.map id := by
  have h := congrArg (Option.map Prod.fst) (heading_prune? n)
  rwa [Option.map_map, Option.map_map] at h

theorem survivingFamilies_branch (h : Header) (cs : Forest α) :
    (branch h cs).survivingFamilies =
      (if 2 ≤ cs.countP bears then [(h.id, (cs.filterMap heir?).map id)] else []) ++
        cs.flatMap survivingFamilies :=
  map_survivors_branch _ h cs

theorem survivingGroups_branch (h : Header) (cs : Forest α) :
    (branch h cs).survivingGroups =
      (if 2 ≤ cs.countP bears then [Share.normalize ((cs.filter bears).map size)] else []) ++
        cs.flatMap survivingGroups :=
  map_survivors_branch _ h cs

/-- After pruning the family of a survivor has the heir of each of its children that bears. -/
theorem families_prune? (n : Node α) : n.prune?.toList.flatMap families = n.survivingFamilies := by
  refine flatMap_prune? ?_ families_inherit ?_ ?_ n
  · intro h d
    rfl
  · intro h cs htwo
    rw [survivingFamilies_branch, if_neg htwo, List.nil_append]
  · intro h cs htwo hbelow
    have hids : (cs.filterMap prune?).map id = (cs.filterMap heir?).map id := by
      rw [List.map_filterMap, List.map_filterMap]
      exact List.filterMap_congr fun c _ => id_of_prune? c
    rw [families_branch, Forest.map_id_normalize, Forest.flatMap_normalize families_withSize, hids,
      hbelow, survivingFamilies_branch, if_pos htwo, List.singleton_append]

/-- The shares of the children that are kept are their own ones, whatever takes their places. -/
theorem map_size_kept (cs : Forest α) :
    (cs.filterMap prune?).map size = (cs.filter bears).map size := by
  rw [List.map_filterMap, ← List.filterMap_eq_filter, List.map_filterMap]
  refine List.filterMap_congr fun c _ => ?_
  have hbears := (prune?_census c).1
  cases h : c.prune? with
  | none =>
    rw [h] at hbears
    simp [← hbears]
  | some k =>
    rw [h] at hbears
    simp [← hbears, size_of_prune? h]

/-- After pruning the group of a survivor has the shares of its children that bear, normalized. -/
theorem groups_prune? (n : Node α) : n.prune?.toList.flatMap groups = n.survivingGroups := by
  refine flatMap_prune? ?_ groups_inherit ?_ ?_ n
  · intro h d
    have hnil : Share.normalize [] = [] := Forest.normalized_nil (α := α)
    show [[]] = [Share.normalize []]
    rw [hnil]
  · intro h cs htwo
    rw [survivingGroups_branch, if_neg htwo, List.nil_append]
  · intro h cs htwo hbelow
    rw [groups_branch, Forest.map_size_normalize, Forest.flatMap_normalize groups_withSize,
      map_size_kept, hbelow, survivingGroups_branch, if_pos htwo, List.singleton_append]

/-! ## 4. Balanced trees -/

/-- A leaf that remains alone takes over the orientation of the tree. -/
theorem orientation_of_prune? {n k : Node α} (h : n.prune? = some k) (hleaf : k.isLeaf) :
    k.orientation = n.orientation := by
  cases n with
  | leaf hd d =>
    cases h
    rfl
  | branch hd cs =>
    rw [prune?_branch] at h
    split at h
    · cases h
    · next only _ =>
      cases h
      cases only with
      | leaf h' d => rfl
      | branch h' cs' => cases hleaf
    · cases h
      cases hleaf

/-- Balancing condenses the tree. -/
theorem condensesTo_of_balance? {n m : Node α} (h : n.balance? = some m) :
    ∃ top, n.CondensesTo m top := by
  obtain ⟨k, hk, rfl⟩ := Option.map_eq_some_iff.mp h
  have hmarks : (k.orient k.orientation).marks = n.survivingMarks := by
    rw [marks_orient, after_of_prune? (marks_prune? n) hk]
  have hnodes : (k.orient k.orientation).nodes.map mark = (n.nodes.filter survives).map mark := by
    rw [map_mark_nodes, hmarks, map_mark_survivors]
  have hheading := heading_prune? n
  rw [hk, Option.map_some] at hheading
  obtain ⟨top, htop, hheading⟩ := Option.map_eq_some_iff.mp hheading.symm
  -- the first node that survives has the first mark
  have hmark : (k.orient k.orientation).mark = top.mark := by
    have hhead := congrArg List.head? hnodes
    rw [List.head?_map, List.head?_map, List.head?_filter, ← heir?, htop, nodes_eq_cons,
      List.head?_cons, Option.map_some, Option.map_some] at hhead
    exact Option.some.inj hhead
  have hleaf : k.isLeaf = top.isLeaf := by
    have hsecond := congrArg (fun p => p.2.isNone) hheading
    simp only [heading] at hsecond
    cases k <;> cases top <;> simp_all
  refine ⟨top, ?_, ?_, hmarks, ?_, ?_, ?_, htop, hmark, ?_⟩
  · rw [ids_orient, ids_of_prune? hk, survivors_eq]
  · rw [map_mark_leaves, hnodes, ← map_mark_surviving_leaves]
  · rw [families_orient, after_of_prune? (families_prune? n) hk]
  · rw [groups_orient, after_of_prune? (groups_prune? n) hk]
  · rw [size_orient, size_of_prune? hk]
  · rw [orientation_orient, ← hleaf]
    by_cases hk' : k.isLeaf
    · rw [if_pos hk', orientation_of_prune? hk hk']
    · simp only [heading, ← hleaf, hk'] at hheading
      rw [if_neg hk']
      exact (Option.some.inj (congrArg Prod.snd hheading)).symm

end Node

/-- Balancing drops a tree without leaves. Of any other it keeps the leaves and the branches with
leaves below two or more children, in their order and with their ancestors as far as these are kept;
whatever takes a place takes the size that belongs to it, and a leaf at the top takes the
orientation of the tree. -/
theorem balancing_keeps_survivors (t : Node α) :
    (t.balance? = none ↔ t.leaves = []) ∧
    ∀ n, t.balance? = some n →
      (∃ top, t.CondensesTo n top) ∧ State.leavesOf t.balance? = n.leaves := by
  refine ⟨?_, fun n hn => ⟨Node.condensesTo_of_balance? hn, ?_⟩⟩
  · rw [Node.balance?_eq_none, ← Bool.not_eq_true, ← Node.leaves_ne_nil_iff, not_ne_iff]
  · rw [hn]
    rfl

/-- Beside an empty branch two runs of branches lead to a pane and to a column that stays. One
identifier is there twice. -/
theorem runs_of_branches_give_way :
    ∃ t n : Node Unit, t.balance? = some n ∧
      t.ids = [⟨1⟩, ⟨2⟩, ⟨3⟩, ⟨4⟩, ⟨5⟩, ⟨1⟩, ⟨6⟩, ⟨5⟩, ⟨7⟩] ∧ n.ids = [⟨1⟩, ⟨5⟩, ⟨6⟩, ⟨5⟩, ⟨7⟩] ∧
      n.groups = [[40, 60], [], [50, 50], [], []] ∧ n.orientation = .column := by
  let pane (n : UInt64) (size : Float32) : Node Unit := .leaf { id := ⟨n⟩, size } ()
  let branch (n : UInt64) (size : Float32) (cs : Forest Unit) : Node Unit :=
    .branch { id := ⟨n⟩, orientation := .column, size } cs
  let t := branch 1 100 [branch 2 70 [], branch 3 20 [branch 4 5 [pane 5 1]],
    branch 1 30 [branch 6 80 [pane 5 9, pane 7 9]]]
  have hsome : t.balance?.isSome := by decide +kernel
  obtain ⟨n, hn⟩ := Option.isSome_iff_exists.mp hsome
  obtain ⟨⟨top, h⟩, -⟩ := (balancing_keeps_survivors t).2 n hn
  have htop : top = t := Option.some.inj (h.top_eq.symm.trans rfl)
  refine ⟨t, n, hn, by decide +kernel, ?_, ?_, ?_⟩
  · rw [h.ids_eq]
    decide +kernel
  · rw [h.groups_eq]
    decide +kernel
  · rw [h.orientation_eq, htop]
    rfl

end Tiling
