import Tiling.Proofs.Congruence
import Tiling.Proofs.Conservation
import Tiling.Proofs.DropAxis
import Tiling.Proofs.DropOrder
import Tiling.Proofs.Rebalancing
import Tiling.Proofs.Shown

/-!
# What edits reveal

An edit hides no pane elsewhere in the tree. A deletion may reveal one: a branch that is left with
one child gives its place to the child, but its visibility is lost with it. So the panes below the
child of a hidden branch come into view. Insertions, also those that wrap a pane, and new sizes
reveal nothing.
-/

namespace Tiling

variable {α : Type}

open Context

namespace Node

def opens (gone : List NodeId) (n : Node α) : Bool :=
  -- Balancing removes every branch that does not survive, be it hidden or not.
  n.visible || !n.survives || n.id ∈ gone

def inView (gone : List NodeId) (keep : NodeId → Bool) (n : Node α) : List NodeId :=
  ((n.leavesUnder (opens gone)).map id).filter keep

/-! ## 1. Balancing -/

theorem leavesUnder_congr {p q : Node α → Bool} {n : Node α} (h : ∀ k ∈ n.nodes, p k = q k) :
    n.leavesUnder p = n.leavesUnder q := by
  induction n with
  | leaf hd d => rw [leavesUnder_leaf, leavesUnder_leaf, h _ (self_mem_nodes _)]
  | branch hd cs ih =>
    rw [leavesUnder_branch, leavesUnder_branch, h _ (self_mem_nodes _)]
    have hbelow : cs.flatMap (leavesUnder p) = cs.flatMap (leavesUnder q) :=
      List.flatMap_congr fun c hc => ih c hc fun k hk =>
        h k (mem_nodes_trans hk (mem_nodes_of_mem_children hc))
    rw [hbelow]

/-- The more a test lets through, the more leaves are under it. -/
theorem leavesUnder_mono {p q : Node α → Bool} (h : ∀ k, p k → q k) {n : Node α} :
    (n.leavesUnder p).Sublist (n.leavesUnder q) := by
  refine ((List.monotone_filter_right _ fun l hl => ?_).map _).filter _
  rw [Bool.and_eq_true, List.all_eq_true] at hl ⊢
  exact ⟨fun k hk => h k (hl.1 k hk), h _ hl.2⟩

theorem leavesUnder_sublist (p : Node α → Bool) (n : Node α) :
    (n.leavesUnder p).Sublist n.leaves := by
  rw [leavesUnder, leaves, nodesUnder, ← map_snd_lineages]
  exact (List.filter_sublist.map _).filter _

def inSight (l : List (NodeId × Bool × Option α) × (NodeId × Bool × Option α)) : Bool :=
  -- The marks tell whether a node is a leaf and visible with all nodes above it.
  l.1.all (·.2.1) && l.2.2.1 && l.2.2.2.isSome

theorem isSome_datum? (n : Node α) : n.datum?.isSome = n.isLeaf := by
  cases n <;> rfl

theorem map_id_shown (n : Node α) : n.shown.map id = (n.marks.filter inSight).map (·.2.1) := by
  rw [shown, leavesUnder, nodesUnder, marks, List.filter_map, List.filter_map, List.filter_filter,
    List.map_map, List.map_map]
  refine congrArg₂ List.map rfl (List.filter_congr fun l _ => ?_)
  simp [inSight, mark, isSome_datum?, List.all_map, Function.comp_def, Bool.and_comm]

theorem inSight_condensed (l : List (Node α) × Node α) :
    (inSight ((l.1.filter survives).map mark, l.2.mark) && l.2.survives) =
      (l.2.isLeaf && (l.1.all (opens []) && opens [] l.2)) := by
  have habove : ((l.1.filter survives).map mark).all (·.2.1) = l.1.all (opens []) := by
    rw [List.all_map, List.all_filter]
    refine congrArg (List.all l.1) (funext fun k => ?_)
    simp [opens, mark, Bool.or_comm]
  rw [inSight, habove]
  cases l.2 with
  | leaf h d => simp [mark, opens, datum?]
  | branch h cs => simp [mark, datum?]

/-- Balancing brings into view what only branches hide that do not survive. -/
theorem map_id_shown_of_balance? {n m : Node α} (h : n.balance? = some m) :
    m.shown.map id = (n.leavesUnder (opens [])).map id := by
  obtain ⟨top, hcondenses⟩ := condensesTo_of_balance? h
  rw [map_id_shown, hcondenses.marks_eq, survivingMarks, List.filter_map, List.filter_filter,
    List.map_map, leavesUnder, nodesUnder, List.filter_map, List.filter_filter, List.map_map]
  exact congrArg₂ List.map rfl (List.filter_congr fun l _ => inSight_condensed l)

/-- In a forked tree only the visible nodes and those that are removed open. -/
theorem Forked.leavesUnder_opens {n : Node α} (h : n.Forked) (gone : List NodeId) :
    n.leavesUnder (opens gone) = n.leavesUnder fun k => k.visible || k.id ∈ gone :=
  leavesUnder_congr fun k hk => by rw [opens, h.survives hk, Bool.not_true, Bool.or_false]

/-! ## 2. Edits out of view -/

section View

variable {gone : List NodeId} {keep : NodeId → Bool}

/-- What opens a node is its flag, its id and whether it survives. -/
theorem opens_congr {n m : Node α} (hvisible : m.visible = n.visible)
    (hsurvives : m.survives = n.survives) (hid : m.id = n.id) : opens gone m = opens gone n := by
  rw [opens, opens, hvisible, hsurvives, hid]

theorem inView_branch (h : Header) (cs : Forest α) :
    (branch h cs).inView gone keep =
      if opens gone (branch h cs) then cs.flatMap (inView gone keep) else [] := by
  rw [inView, leavesUnder_branch]
  split
  · rw [List.map_flatMap, List.filter_flatMap]
    rfl
  · rfl

/-- Where no id is kept, nothing is in view. -/
theorem inView_eq_nil {n : Node α} (h : ∀ id ∈ n.ids, keep id = false) :
    n.inView gone keep = [] := by
  refine List.filter_eq_nil_iff.mpr fun id hid => ?_
  rw [List.mem_map] at hid
  obtain ⟨k, hk, rfl⟩ := hid
  have hleaf := (n.leavesUnder_sublist _).subset hk
  exact ne_true_of_eq_false (h _ (id_mem_of_mem_nodes (List.mem_of_mem_filter hleaf)))

/-- One node in the place of the other changes nothing for the panes in `keep` that are seen. -/
structure SeenAlike (gone : List NodeId) (keep : NodeId → Bool) (n m : Node α) : Prop where
  bears_eq : m.bears = n.bears
  inView_eq : m.inView gone keep = n.inView gone keep

theorem SeenAlike.refl (n : Node α) : SeenAlike gone keep n n :=
  ⟨rfl, rfl⟩

theorem SeenAlike.symm {n m : Node α} (h : SeenAlike gone keep n m) : SeenAlike gone keep m n :=
  ⟨h.bears_eq.symm, h.inView_eq.symm⟩

theorem SeenAlike.trans {n m k : Node α} (h : SeenAlike gone keep n m)
    (h' : SeenAlike gone keep m k) : SeenAlike gone keep n k :=
  ⟨h'.bears_eq.trans h.bears_eq, h'.inView_eq.trans h.inView_eq⟩

theorem congruence_seenAlike : Congruence (SeenAlike (α := α) gone keep) := by
  intro h cs ds hall
  have hforest : ds.countP bears = cs.countP bears ∧
      ds.flatMap (inView gone keep) = cs.flatMap (inView gone keep) := by
    induction hall with
    | nil => exact ⟨rfl, rfl⟩
    | cons hcd _ ih =>
      rw [List.countP_cons, List.countP_cons, ih.1, hcd.bears_eq, List.flatMap_cons,
        List.flatMap_cons, ih.2, hcd.inView_eq]
      exact ⟨rfl, rfl⟩
  have hopens : opens gone (branch h ds) = opens gone (branch h cs) :=
    opens_congr rfl (by rw [survives_branch, survives_branch, hforest.1]) rfl
  refine ⟨?_, ?_⟩
  · rw [Bool.eq_iff_iff, bears_branch_iff, bears_branch_iff, hforest.1]
  · rw [inView_branch, inView_branch, hopens, hforest.2]

/-- What is seen alike is seen alike in every context. -/
theorem SeenAlike.plug (c : Context α) {m k : Node α} (h : SeenAlike gone keep m k) :
    SeenAlike gone keep (plug c m) (plug c k) :=
  congruence_seenAlike.plug SeenAlike.refl c h

theorem seenAlike_mapHeader {f : Header → Header} (hid : ∀ h, (f h).id = h.id)
    (hvisible : ∀ h, (f h).visible = h.visible) (n : Node α) :
    SeenAlike gone keep n (n.mapHeader f) := by
  refine ⟨bears_mapHeader f n, ?_⟩
  cases n with
  | leaf h d =>
    have hopens : opens gone (leaf (f h) d) = opens gone (leaf h d) :=
      opens_congr (hvisible h) rfl (hid h)
    rw [mapHeader, inView, inView, leavesUnder_leaf, leavesUnder_leaf, hopens]
    split <;> simp [hid]
  | branch h cs =>
    have hopens : opens gone (branch (f h) cs) = opens gone (branch h cs) :=
      opens_congr (hvisible h) rfl (hid h)
    rw [mapHeader, inView_branch, inView_branch, hopens]

theorem seenAlike_withSize (n : Node α) (size : Float32) :
    SeenAlike gone keep n (n.withSize size) := by
  rw [withSize]
  exact seenAlike_mapHeader (by intro; rfl) (by intro; rfl) n

theorem seenAlike_withOrientation (n : Node α) (o : Orientation) :
    SeenAlike gone keep n (n.withOrientation o) := by
  rw [withOrientation]
  exact seenAlike_mapHeader (by intro; rfl) (by intro; rfl) n

theorem seenAlike_inner (n : Node α) (o : Orientation) : SeenAlike gone keep n (n.inner o) := by
  rw [inner]
  split
  · exact (seenAlike_withSize n _).trans (seenAlike_withOrientation _ _)
  · exact seenAlike_withSize n _

/-- A branch around a single node is not seen, for balancing removes it. -/
theorem seenAlike_lone (h : Header) (n : Node α) : SeenAlike gone keep n (branch h [n]) := by
  have hlone : (branch h [n]).survives = false := by
    rw [survives_branch, decide_eq_false_iff_not]
    exact Nat.not_le.mpr (Nat.lt_succ_of_le (List.countP_le_length (l := [n])))
  refine ⟨by simp, ?_⟩
  rw [inView_branch, opens, hlone, List.flatMap_singleton]
  simp

/-- A child out of `keep` comes to a branch that survives without it, or that opens anyway, or that
has nothing to show. -/
theorem seenAlike_of_child {h : Header} {x y : Forest α} {k : Node α}
    (hk : ∀ id ∈ k.ids, keep id = false) (hbears : (branch h (x ++ y)).bears)
    (hopens : 2 ≤ (x ++ y).countP bears ∨ (h.visible ∨ h.id ∈ gone) ∨
      (x ++ y).flatMap (inView gone keep) = []) :
    SeenAlike gone keep (branch h (x ++ y)) (branch h (x ++ k :: y)) := by
  have hcount : (x ++ y).countP bears ≤ (x ++ k :: y).countP bears :=
    List.Sublist.countP_le (.append_left (.cons _ (.refl _)) x)
  have hforest : (x ++ k :: y).flatMap (inView gone keep) =
      (x ++ y).flatMap (inView gone keep) := by
    rw [List.flatMap_append, List.flatMap_cons, inView_eq_nil hk, List.nil_append,
      ← List.flatMap_append]
  refine ⟨?_, ?_⟩
  · rw [hbears]
    exact bears_branch_iff.mpr (Nat.lt_of_lt_of_le (bears_branch_iff.mp hbears) hcount)
  · rw [inView_branch, inView_branch, hforest]
    rcases hopens with htwo | hopens | hnil
    · have hsurvives : (branch h (x ++ k :: y)).survives = (branch h (x ++ y)).survives := by
        rw [survives_branch, survives_branch, decide_eq_true htwo,
          decide_eq_true (htwo.trans hcount)]
      have hsame : opens gone (branch h (x ++ k :: y)) = opens gone (branch h (x ++ y)) :=
        opens_congr rfl hsurvives rfl
      rw [hsame]
    · have hboth : ∀ cs : Forest α, opens gone (branch h cs) = true := fun cs => by
        rcases hopens with hopens | hopens <;> simp [opens, visible, header, hopens]
      rw [hboth, hboth]
    · rw [hnil, ite_self, ite_self]

/-- A graft of a child that is not kept hides and reveals nothing in a container that forked
already, that opens or that had nothing in view. -/
theorem seenAlike_graft {h : Header} {cs : Forest α} {child : Node α}
    (hchild : ∀ id ∈ child.ids, keep id = false) (hbears : (branch h cs).bears)
    (hopens : 2 ≤ cs.countP bears ∨ (h.visible ∨ h.id ∈ gone) ∨
      cs.flatMap (inView gone keep) = []) (i : Nat) :
    SeenAlike gone keep (branch h cs) ((branch h cs).graft i child) := by
  have hjoined : ∀ id ∈ (child.joined h cs).ids, keep id = false := by
    rwa [← map_id_census, census_joined, map_id_census]
  have hcs : cs.take i ++ cs.drop i = cs := List.take_append_drop i cs
  have halike : SeenAlike gone keep (branch h (cs.take i ++ cs.drop i))
      (branch h (cs.take i ++ child.joined h cs :: cs.drop i)) :=
    seenAlike_of_child hjoined (by rwa [hcs]) (by rwa [hcs])
  rw [hcs] at halike
  rwa [graft_branch]

/-- The branch that wraps a hidden node is hidden too. -/
theorem seenAlike_wrap_graft {n : Node α} (hf : n.Forked) {child : Node α}
    (hchild : ∀ id ∈ child.ids, keep id = false) (id : NodeId) (o : Orientation) (i : Nat) :
    SeenAlike [] keep n ((n.wrap id o).graft i child) := by
  have hinner : SeenAlike [] keep n (n.inner o) := seenAlike_inner n o
  have hlone := hinner.trans (seenAlike_lone ⟨id, o, n.size, n.visible⟩ _)
  rw [wrap_eq]
  refine hlone.trans (seenAlike_graft hchild (hlone.bears_eq.trans hf.bears) (.inr ?_) i)
  by_cases hvisible : n.visible
  · exact .inl (.inl hvisible)
  · have hopens : opens [] n = false := by
      simp [opens, hvisible, hf.survives (self_mem_nodes n)]
    refine .inr ?_
    rw [List.flatMap_singleton, hinner.inView_eq, inView, leavesUnder_eq_nil hopens]
    rfl

/-- What a graft brings is out of `keep`. -/
theorem Placed.seenAlike {root child : Node α} {goal : Goal} {i : Nat} {ids : IdSupply}
    {r : Node α × IdSupply} (hr : Placed root i child ids goal r) (hf : root.Forked)
    (hchild : ∀ id ∈ child.ids, keep id = false) : SeenAlike [] keep root r.1 := by
  cases hr with
  | @joins c h cs hroot hc =>
    subst hroot
    have hbranch := hf.of_mem_nodes (mem_nodes_plug c (branch h cs))
    refine .plug c (seenAlike_graft hchild hbranch.bears (.inl ?_) i)
    rw [hbranch.countP_bears]
    exact (forked_branch.mp hbranch).1
  | @splits c h d hroot hc =>
    subst hroot
    exact .plug c (seenAlike_wrap_graft (forked_leaf h d) hchild _ _ i)
  | crosses => exact seenAlike_wrap_graft hf hchild _ _ i

theorem seenAlike_resized (root : Node α) (r : Resize) :
    SeenAlike gone keep root (root.resized r) := by
  rcases root.resized_cases r with ⟨-, hsame⟩ | ⟨c, m, -, rfl, hplug⟩
  · rw [hsame]
    exact .refl root
  · rw [hplug]
    exact .plug c (seenAlike_withSize m r.size)

theorem seenAlike_foldl_resized (shares : List Resize) (root : Node α) :
    SeenAlike gone keep root (shares.foldl resized root) := by
  induction shares generalizing root with
  | nil => exact .refl root
  | cons r shares ih => exact (seenAlike_resized root r).trans (ih _)

end View

/-! ## 3. Deletions -/

/-- A parent of two is removed when one of its children goes. -/
theorem seenAlike_delete {root p k tree : Node α} (hd : root.ids.Nodup) (hf : root.Forked)
    (hk : k ∈ root.nodes) (hp : root.parent? k.id = some p)
    (h : root.updateParent? k.id (fun parent => parent.dropChild k.id 0) = some tree) :
    SeenAlike (root.pairParent k.id) (fun id => id ∉ k.ids) root tree := by
  have hgone : p.children.length = 2 → p.id ∈ root.pairParent k.id := fun htwo =>
    mem_pairParent.mpr ⟨p, hp, htwo, rfl⟩
  generalize root.pairParent k.id = gone at hgone ⊢
  obtain ⟨c, hdr, x, y, rfl, rfl, rfl⟩ := exists_plug_delete hd hk hp h
  obtain ⟨htwo, hforked⟩ := forked_branch.mp (hf.of_mem_nodes (mem_nodes_plug c _))
  have hsublist : (x ++ y).Sublist (x ++ k :: y) := .append_left (.cons _ (.refl _)) x
  have hcount : (x ++ y).countP bears = (x ++ y).length :=
    List.countP_eq_length.mpr fun j hj => (hforked j (hsublist.subset hj)).bears
  have hlength : (x ++ k :: y).length = (x ++ y).length + 1 := by
    rw [List.length_append, List.length_cons, List.length_append, Nat.add_assoc]
  rw [hlength] at htwo
  rw [children_branch, hlength] at hgone
  refine .plug c (.symm (seenAlike_of_child (by simp) ?_ ?_))
  · rw [bears_branch_iff, hcount]
    omega
  · rw [hcount]
    rcases Nat.lt_or_ge (x ++ y).length 2 with hone | hleft
    · exact .inr (.inl (.inr (hgone (by omega))))
    · exact .inl hleft

/-- No node that a deletion leaves without its role as a branch survives. -/
theorem survives_of_delete {root p k tree n : Node α} (hd : root.ids.Nodup) (hf : root.Forked)
    (hk : root.find? k.id = some k) (hp : root.parent? k.id = some p)
    (h : root.updateParent? k.id (fun parent => parent.dropChild k.id 0) = some tree)
    (hn : n ∈ tree.nodes) (hgone : n.id ∈ root.pairParent k.id) : n.survives = false := by
  obtain ⟨q, hq, htwo, hid⟩ := mem_pairParent.mp hgone
  obtain rfl := Option.some.inj (hp.symm.trans hq)
  refine eq_false_of_ne_true fun hsurvives => ?_
  have hmem : n.id ∈ tree.survivors := by
    rw [survivors_eq]
    exact List.mem_map_of_mem (List.mem_filter.mpr ⟨hn, hsurvives⟩)
  exact (((survivors_delete hd hf hk hp h).2 n.id).mp hmem).2.2 ⟨hid, htwo⟩

/-- Once balanced, the edited tree shows of `keep` what the old one shows without `gone`. -/
theorem SeenAlike.mem_iff {gone : List NodeId} {keep : NodeId → Bool} {root tree : Node α}
    (h : SeenAlike gone keep root tree) (hf : root.Forked)
    (hgone : ∀ n ∈ tree.nodes, n.id ∈ gone → n.survives = false) {id : NodeId}
    (hid : keep id = true) :
    id ∈ (tree.leavesUnder (opens [])).map Node.id ↔
      id ∈ (root.leavesUnder fun k => k.visible || k.id ∈ gone).map Node.id := by
  have hopens : tree.leavesUnder (opens []) = tree.leavesUnder (opens gone) := by
    refine leavesUnder_congr fun n hn => ?_
    by_cases hmem : n.id ∈ gone
    · simp [opens, hgone n hn hmem]
    · simp [opens, hmem]
  have hview : ∀ n : Node α, id ∈ (n.leavesUnder (opens gone)).map Node.id ↔
      id ∈ n.inView gone keep := fun n => by
    rw [inView, List.mem_filter, and_iff_left hid]
  rw [hopens, ← hf.leavesUnder_opens, hview, hview, h.inView_eq]

end Node

namespace State

def shownIds (s : State α) : List NodeId :=
  s.root.elim [] fun root => root.shown.map Node.id

def shownWithout (s : State α) (gone : List NodeId) : List NodeId :=
  s.root.elim [] fun root => (root.leavesUnder fun k => k.visible || k.id ∈ gone).map Node.id

def dissolvedBy (s : State α) : Action α → List NodeId
  | .delete id => s.root.elim [] fun root => root.pairParent id
  | _ => []

end State

def Action.leavesInPlace : Action α → Bool
  | .insert .. | .delete _ | .resize _ => true
  | _ => false

/-! ## 4. What comes into view -/

open Node

namespace State

/-- What a state shows after settling is what its tree showed, seen through the containers that give
way. -/
theorem shownIds_settle {s : State α} {tree : Node α} (h : s.root = some tree) :
    s.settle.shownIds = (tree.leavesUnder (opens [])).map Node.id := by
  show (s.root.bind Node.balance?).elim [] _ = _
  rw [h, Option.bind_some]
  cases hb : tree.balance? with
  | none =>
    -- without leaves there is nothing to see
    have hleaves : tree.leaves = [] := by
      rw [Node.balance?_eq_none, ← Bool.not_eq_true, ← Node.leaves_ne_nil_iff, not_ne_iff] at hb
      exact hb
    have hnil := tree.leavesUnder_sublist (opens [])
    rw [hleaves, List.sublist_nil] at hnil
    rw [hnil]
    rfl
  | some m => exact Node.map_id_shown_of_balance? hb

theorem leafIds_of_root {s : State α} {root : Node α} (hs : s.Settled)
    (hroot : s.root = some root) : s.leafIds = root.leafIds := by
  rw [leafIds, hs.leaves_of_root hroot]
  rfl

theorem leafIds_of_empty {s : State α} (hs : s.Settled) (hroot : s.root = none) :
    s.leafIds = [] := by
  rw [leafIds, hs.leaves_eq, hroot]
  rfl

theorem shownWithout_of_root {s : State α} {root : Node α} (hroot : s.root = some root)
    (gone : List NodeId) :
    s.shownWithout gone = (root.leavesUnder fun k => k.visible || k.id ∈ gone).map Node.id := by
  rw [shownWithout, hroot]
  rfl

/-- Trees that are seen alike show the same after settling. -/
theorem settle_shows {s r : State α} {root tree : Node α} {gone : List NodeId}
    {keep : NodeId → Bool} (hs : s.Settled) (hroot : s.root = some root)
    (htree : r.root = some tree) (h : SeenAlike gone keep root tree)
    (hgone : ∀ n ∈ tree.nodes, n.id ∈ gone → n.survives = false) {id : NodeId}
    (hid : keep id = true) : id ∈ r.settle.shownIds ↔ id ∈ s.shownWithout gone := by
  rw [shownIds_settle htree, shownWithout_of_root hroot]
  exact h.mem_iff (hs.forked root hroot) hgone hid

/-- After an edit a leaf is shown exactly when it would have been before, were the dissolved
containers visible. -/
theorem edit_shows {s r : State α} {a : Action α} (hs : s.Settled) (hd : s.treeIds.Nodup)
    (ha : a.leavesInPlace) (h : s.edit a = .ok r) {id : NodeId} (hbefore : id ∈ s.leafIds)
    (hafter : id ∈ r.settle.leafIds) :
    id ∈ r.settle.shownIds ↔ id ∈ s.shownWithout (s.dissolvedBy a) := by
  cases a with
  | insert node magnified focused =>
    have hedited := insert_edited h
    generalize htree : r.root = tree, r.ids = ids at hedited
    cases hedited with
    | plant _ hroot =>
      rw [leafIds_of_empty hs hroot] at hbefore
      cases hbefore
    | @graft _ root _ goal i p hcarried hroot hgoal hnew hr =>
      cases hcarried
      rw [leafIds_of_root hs hroot] at hbefore
      have hout : id ∉ node.ids := fun hid => hnew id hid ((root.leafIds_sublist).subset hbefore)
      have halike : SeenAlike [] (fun i => i ∉ node.ids) root _ :=
        hr.seenAlike (hs.forked root hroot) (by simp)
      exact settle_shows hs hroot htree halike (fun _ _ h => nomatch h) (decide_eq_true hout)
    | rearrange hb => cases hb
  | delete x =>
    have hedited := delete_edited h
    generalize htree : r.root = tree, r.ids = ids at hedited
    cases hedited with
    | plant hcarried => cases hcarried
    | graft hcarried => cases hcarried
    | clear hroot =>
      rw [leafIds_of_empty (settle_settled r) (by rw [settle, htree]; rfl)] at hafter
      cases hafter
    | @delete _ root k p tree hroot hk hp htree' =>
      have hf := hs.forked root hroot
      rw [treeIds_eq hroot] at hd
      obtain rfl := id_of_find? hk
      rw [leafIds_settle htree] at hafter
      have hout := (((survivors_delete hd hf hk hp htree').2 id).mp
        (leafIds_subset_survivors tree hafter)).2.1
      have hdissolved : s.dissolvedBy (.delete k.id) = root.pairParent k.id := by
        rw [dissolvedBy, hroot]
        rfl
      rw [hdissolved]
      exact settle_shows hs hroot htree (seenAlike_delete hd hf (mem_nodes_of_find? hk) hp htree')
        (fun n hn => survives_of_delete hd hf hk hp htree' hn) (decide_eq_true hout)
    | rearrange hb => cases hb
  | resize shares =>
    obtain ⟨root, hroot, h⟩ := bind_eq_ok h
    obtain ⟨-, -, h⟩ := bind_eq_ok h
    obtain rfl := Except.ok.inj h
    have halike : SeenAlike [] (fun _ => true) root (shares.foldl resized root) :=
      seenAlike_foldl_resized shares root
    exact settle_shows hs (rootOf_eq_ok hroot) rfl halike
      (fun _ _ h => absurd h List.not_mem_nil) rfl
  | _ => cases ha

/-- Without some of the containers no less is shown. -/
theorem shownWithout_subset (s : State α) (gone : List NodeId) :
    s.shownIds ⊆ s.shownWithout gone := by
  rw [shownIds, shownWithout]
  cases s.root with
  | none => exact List.nil_subset _
  | some root => exact List.map_subset _ (leavesUnder_mono fun k hk => by simp [hk]).subset

/-- Where the nodes in `gone` are visible, it makes no difference that they hide nothing. -/
theorem shownWithout_of_visible {s : State α} {gone : List NodeId}
    (h : ∀ root, s.root = some root → ∀ k ∈ root.nodes, k.id ∈ gone → k.visible) :
    s.shownWithout gone = s.shownIds := by
  rw [shownIds, shownWithout]
  cases hroot : s.root with
  | none => rfl
  | some root =>
    refine congrArg (List.map Node.id) (leavesUnder_congr fun k hk => ?_)
    by_cases hgone : k.id ∈ gone
    · simp [h root hroot k hk hgone]
    · simp [hgone]

end State

open State

/-- An accepted insertion, deletion or resizing hides no pane that stays. Of what hides a pane only
the branch can go that a deletion leaves with one child, so where that branch is visible or there is
none, the same panes are seen as before. -/
theorem only_dissolved_branch_reveals (s : State α) (a : Action α) (hs : Reachable s)
    (hd : s.treeIds.Nodup) (ha : a.leavesInPlace) (haccepted : (s.step a).2 = none) (id : NodeId)
    (hbefore : id ∈ s.leafIds) (hafter : id ∈ (s.apply a).leafIds) :
    (id ∈ (s.apply a).shownIds ↔ id ∈ s.shownWithout (s.dissolvedBy a)) ∧
    (id ∈ s.shownIds → id ∈ (s.apply a).shownIds) ∧
    ((∀ root, s.root = some root → ∀ k ∈ root.nodes, k.id ∈ s.dissolvedBy a → k.visible) →
      (id ∈ (s.apply a).shownIds ↔ id ∈ s.shownIds)) := by
  obtain ⟨hedit, hperformed, htaken⟩ :
      a.isEdit = true ∧ s.performed a = a ∧ s.taken a = s := by
    cases a with
    | insert | delete | resize => exact ⟨rfl, rfl, rfl⟩
    | _ => cases ha
  have hperform := step_accepted haccepted
  rw [hperformed, htaken] at hperform
  obtain ⟨r, hr, hsettle⟩ := perform_edit hedit hperform
  have happly : s.apply a = r.settle := hsettle.symm
  rw [happly] at hafter ⊢
  have hshows := edit_shows hs.settled hd ha hr hbefore hafter
  refine ⟨hshows, fun hshown => hshows.mpr (s.shownWithout_subset _ hshown), fun hvisible => ?_⟩
  rw [hshows, shownWithout_of_visible hvisible]

/-- A visible column of two gives way to its last pane, and the hidden column beside it stays out of
view. -/
theorem visible_column_gives_way :
    ∃ s : State Unit, Reachable s ∧ s.treeIds.Nodup ∧ (s.step (.delete ⟨6⟩)).2 = none ∧
      s.dissolvedBy (.delete ⟨6⟩) = [⟨5⟩] ∧ (s.apply (.delete ⟨6⟩)).leafIds = [⟨3⟩, ⟨4⟩, ⟨7⟩] ∧
      ⟨3⟩ ∉ (s.apply (.delete ⟨6⟩)).shownIds ∧ ⟨7⟩ ∈ (s.apply (.delete ⟨6⟩)).shownIds := by
  let pane (n : UInt64) : Node Unit := .leaf { id := ⟨n⟩ } ()
  let column (n : UInt64) (visible : Bool) (cs : Forest Unit) : Node Unit :=
    .branch { id := ⟨n⟩, orientation := .column, visible } cs
  let s := State.ofRoot
    (.branch { id := ⟨1⟩ } [column 2 false [pane 3, pane 4], column 5 true [pane 6, pane 7]])
  have hs : Reachable s := .ofRoot _
  have hd : s.treeIds.Nodup := by decide +kernel
  have haccepted : (s.step (.delete ⟨6⟩)).2 = none := by decide +kernel
  have hleaves : (s.apply (.delete ⟨6⟩)).leafIds = [⟨3⟩, ⟨4⟩, ⟨7⟩] := by decide +kernel
  have h := fun id hbefore hafter =>
    only_dissolved_branch_reveals s (.delete ⟨6⟩) hs hd rfl haccepted id hbefore hafter
  refine ⟨s, hs, hd, haccepted, by decide +kernel, hleaves, ?_, ?_⟩
  · rw [(h ⟨3⟩ (by decide +kernel) (by decide +kernel)).1]
    decide +kernel
  · exact (h ⟨7⟩ (by decide +kernel) (by decide +kernel)).2.1 (by decide +kernel)

/-- When one of the two panes of a hidden column is deleted, the other one comes into view. -/
theorem last_pane_of_hidden_column_appears :
    ∃ s : State Unit, Reachable s ∧ s.treeIds.Nodup ∧ (s.step (.delete ⟨4⟩)).2 = none ∧
      ⟨5⟩ ∈ s.leafIds ∧ ⟨5⟩ ∈ (s.apply (.delete ⟨4⟩)).leafIds ∧
      ⟨5⟩ ∉ s.shownIds ∧ ⟨5⟩ ∈ (s.apply (.delete ⟨4⟩)).shownIds := by
  let pane (n : UInt64) : Node Unit := .leaf { id := ⟨n⟩ } ()
  let column : Node Unit :=
    .branch { id := ⟨3⟩, orientation := .column, visible := false } [pane 4, pane 5]
  refine ⟨State.ofRoot (.branch { id := ⟨1⟩ } [pane 2, column]), .ofRoot _, ?_⟩
  decide +kernel

end Tiling
