import Tiling.Proofs.Arrival
import Tiling.Proofs.SizeBlind
import Tiling.Proofs.UpToSizes

/-!
# Drops that change nothing

A drop onto a side of a pane or of a branch asks for no move if the moved node is at the place asked
for already: at its index or right before it. The move would put a copy beside the node and take the
node out, which changes sizes only. Any other move gives some branch other children.
-/

namespace Tiling

variable {α : Type}

open Node Context

namespace Node

@[simp] theorem childIds_sizeless (n : Node α) (id : NodeId) :
    n.sizeless.childIds id = n.childIds id := by
  unfold childIds
  rw [find?_sizeless]
  cases n.find? id with
  | none => rfl
  | some m => simp

theorem childIds_of_not_mem {n : Node α} {id : NodeId} (h : id ∉ n.ids) : n.childIds id = [] := by
  unfold childIds
  rw [find?_eq_none.mpr h]
  rfl

end Node

/-! ## 1. The places a drop asks for -/

def Placement.Within (place : Placement) (root : Node α) : Prop :=
  ∀ h cs, place.parent = some h.id → root.find? h.id = some (.branch h cs) →
    place.index ≤ cs.length

theorem Node.childIndex?_lt {n : Node α} {id : NodeId} {i : Nat} (h : n.childIndex? id = some i) :
    i < n.children.length := by
  obtain ⟨hi, -⟩ := List.findIdx?_eq_some_iff_getElem.mp h
  exact hi

theorem Placement.within_of_child {root p : Node α} {id : NodeId} {i offset : Nat}
    (hd : root.ids.Nodup) (hp : p ∈ root.nodes) (hi : p.childIndex? id = some i)
    (hoffset : offset ≤ 1) : Within ⟨some p.id, i + offset⟩ root := by
  intro h cs hparent hfind
  rw [← Option.some.inj hparent, find?_of_mem_nodes hd hp, Option.some.injEq] at hfind
  have hlt := childIndex?_lt hi
  rw [hfind, children_branch] at hlt
  show i + offset ≤ cs.length
  omega

/-- The placement of a drop lies within the group it names. -/
theorem Placement.ofDrop?_within {root target : Node α} {axis : Orientation} {zone : DropZone}
    {place : Placement} (hd : root.ids.Nodup) (hf : root.Forked)
    (h : Placement.ofDrop? root target axis zone = some place) : place.Within root := by
  have hoffset : zone.offset ≤ 1 := by
    cases zone.offset_cases with
    | inl h => omega
    | inr h => omega
  have hmem : ∀ {id p}, root.parent? id = some p → p ∈ root.nodes := fun hp =>
    ((parent?_eq_some_iff hd).mp hp).1
  rw [ofDrop?] at h
  split at h
  · cases h
    cases hfurther : if zone.isOuter then besideParent? root target zone.offset else none with
    | none =>
      -- every branch has an index 1
      intro h cs _ hfind
      have htwo := (forked_branch.mp (hf.of_mem_nodes (mem_nodes_of_find? hfind))).1
      show zone.offset ≤ cs.length
      omega
    | some further =>
      rw [Option.ite_none_right_eq_some] at hfurther
      obtain ⟨p, -, h⟩ := Option.bind_eq_some_iff.mp hfurther.2
      obtain ⟨g, hg, h⟩ := Option.bind_eq_some_iff.mp h
      obtain ⟨i, hi, h⟩ := Option.bind_eq_some_iff.mp h
      cases h
      exact within_of_child hd (hmem hg) hi hoffset
  · rw [beside?] at h
    split at h
    · next p hp =>
      obtain ⟨i, hi, rfl⟩ := Option.map_eq_some_iff.mp h
      exact within_of_child hd (hmem hp) hi hoffset
    · rw [Option.ite_none_right_eq_some] at h
      cases h.2
      intro h cs hparent
      cases hparent

/-- A drop onto a side that is not rejected is left alone or asks for a move to its place. -/
theorem Node.resolveDrop_side_ok {root : Node α} {target moved : NodeId} {zone : DropZone}
    {axis : Orientation} {staged : Option (Action α)} (hzone : zone.axis? = some axis)
    (h : root.resolveDrop target moved zone = .ok staged) :
    ∃ t m place, root.find? target = some t ∧ root.find? moved = some m ∧ target ∉ m.ids ∧
      Placement.ofDrop? root t axis zone = some place ∧
      (staged = none ↔ place.keeps root moved = true) := by
  rw [resolveDrop] at h
  split at h
  · cases h
  split at h
  · cases h
  · cases h
  · next t m ht hm =>
    split at h
    · cases h
    · next hout =>
      rw [contains_iff] at hout
      simp only [hzone] at h
      split at h
      · cases h
      · next place hplace =>
        refine ⟨t, m, place, ht, hm, hout, hplace, ?_⟩
        split at h
        · next hkeeps =>
          cases h
          exact iff_of_true rfl hkeeps
        · next hmoves =>
          cases h
          exact iff_of_false (Option.some_ne_none _) hmoves

/-! ## 2. A move to where the node is -/

namespace Node

/-- The copy beside the node takes its place. -/
theorem dropChild_graft_beside {h : Header} {x y : Forest α} {m : Node α} {i : Nat}
    (hx : ∀ c ∈ x, c.id ≠ m.id) (hi : i = x.length ∨ i = x.length + 1) :
    ((branch h (x ++ m :: y)).graft i m).dropChild m.id (if i ≤ x.length then i + 1 else 0) =
      branch h (x ++ m.joined h (x ++ m :: y) :: y) := by
  rw [graft_branch]
  generalize m.joined h (x ++ m :: y) = copy
  cases hi with
  | inl hi =>
    subst hi
    have hdrop := dropChild_branch h (x ++ [copy]) [] y m (by simp)
    rw [List.length_append, List.length_singleton] at hdrop
    rw [if_pos (Nat.le_refl _), List.take_left, List.drop_left]
    simpa using hdrop
  | inr hi =>
    subst hi
    have hdrop := dropChild_branch h [] x (copy :: y) m hx
    rw [if_neg (by omega), List.take_length_add_append, List.drop_length_add_append]
    simpa using hdrop

/-- What `keeps` compares: the parent asked for is the node's own, and the index is the node's own
or the next one. -/
theorem keeps_iff {root m : Node α} {place : Placement} (hd : root.ids.Nodup)
    (hm : m ∈ root.nodes) : place.keeps root m.id = true ↔
      ∃ h x y, root.find? h.id = some (branch h (x ++ m :: y)) ∧ (∀ c ∈ x, c.id ≠ m.id) ∧
        place.parent = some h.id ∧ (place.index = x.length ∨ place.index = x.length + 1) := by
  unfold Placement.keeps
  constructor
  · intro hkeeps
    split at hkeeps
    · next p hp =>
      obtain ⟨hpn, hmp, -⟩ := exists_plug_parent hd hm hp
      obtain ⟨h, x, y, rfl, hx, -⟩ := exists_first_child (nodup_ids_of_mem_nodes hd hpn) hmp
      simp only [childIndex?_branch hx, Bool.and_eq_true, Bool.or_eq_true,
        decide_eq_true_iff] at hkeeps
      exact ⟨h, x, y, find?_of_mem_nodes hd hpn, hx, hkeeps.1, hkeeps.2.imp Eq.symm Eq.symm⟩
    · cases hkeeps
  · intro hplace
    obtain ⟨h, x, y, hfind, hx, hparent, hindex⟩ := hplace
    have hp : root.parent? m.id = some (branch h (x ++ m :: y)) :=
      (parent?_eq_some_iff hd).mpr ⟨mem_nodes_of_find? hfind, m, by simp, rfl⟩
    simp only [hp, childIndex?_branch hx, hparent, Bool.and_eq_true, Bool.or_eq_true,
      decide_eq_true_iff]
    exact ⟨rfl, hindex.imp Eq.symm Eq.symm⟩

/-- The tree with the copy in the node's place differs in sizes only. -/
theorem NormalForm.sizeless_replaced {c : Context α} {h : Header} {x y : Forest α} {m : Node α}
    (hn : (Context.plug c (branch h (x ++ m :: y))).NormalForm) :
    (Context.plug c (branch h (x ++ m.joined h (x ++ m :: y) :: y))).sizeless =
      (Context.plug c (branch h (x ++ m :: y))).sizeless := by
  have hnormal := hn.of_mem_nodes (mem_nodes_plug c _)
  obtain ⟨hturned, hm⟩ := (normalForm_branch.mp hnormal).2 m (by simp)
  refine Context.sizeless_plug ?_ c
  rw [sizeless_branch, sizeless_branch, List.map_append, List.map_append, List.map_cons,
    List.map_cons, hm.alternating.sizeless_joined hturned]

/-- A node placed right before or right behind itself leaves the tree, up to sizes, once its stale
copy is gone. -/
theorem Placed.sizeless_kept {root m : Node α} {i : Nat} {ids : IdSupply} {h : Header}
    {x y : Forest α} {r : Node α × IdSupply} (hr : Placed root i m ids (.under h.id) r)
    (hn : root.NormalForm) (hfind : root.find? h.id = some (branch h (x ++ m :: y)))
    (hx : ∀ c ∈ x, c.id ≠ m.id) (hi : i = x.length ∨ i = x.length + 1) :
    (r.1.dropStale m.id (some h.id)
      (root.staleStart m.id (some h.id) (.under h.id) i)).sizeless = root.sizeless := by
  rw [staleStart_of_eq hfind hx]
  generalize hgoal : Goal.under h.id = goal at hr
  cases hr with
  | @joins c hdr cs hroot hc =>
    have hid := Goal.under.inj hgoal
    -- the branch asked for is the old parent
    have hfound : root.find? hdr.id = some (branch hdr cs) := find?_hole hroot hc
    rw [← hid, hfind, Option.some.injEq] at hfound
    obtain ⟨rfl, rfl⟩ := branch.inj hfound
    have hupdate := update?_plug (m := (branch h (x ++ m :: y)).graft i m)
      (fun n => n.dropChild m.id (if i ≤ x.length then i + 1 else 0)) hc
    rw [dropChild_graft_beside hx hi] at hupdate
    rw [Node.dropStale]
    show (((plug c ((branch h (x ++ m :: y)).graft i m)).update? h.id _).getD _).sizeless = _
    rw [show h.id = ((branch h (x ++ m :: y)).graft i m).id from rfl, hupdate, Option.getD_some,
      hroot]
    exact (hroot ▸ hn).sizeless_replaced
  | @splits c hdr d hroot hc =>
    have hfound : root.find? hdr.id = some (leaf hdr d) := find?_hole hroot hc
    rw [← Goal.under.inj hgoal, hfind] at hfound
    cases hfound
  | crosses => cases hgoal

/-! ## 3. A move to another place -/

theorem length_placedAmong {moved : NodeId} {l : List NodeId} (h : moved ∉ l) (i : Nat) :
    (placedAmong moved i l).length = l.length + 1 := by
  rw [placedAmong_of_not_mem h, length_take_cons_drop]

/-- Only beside its old place does a node leave the row as it was. -/
theorem index_of_placedAmong_eq {k : NodeId} {x y : List NodeId} {i : Nat} (hx : k ∉ x)
    (hy : k ∉ y) (hi : i ≤ (x ++ k :: y).length)
    (h : placedAmong k i (x ++ k :: y) = x ++ k :: y) : i = x.length ∨ i = x.length + 1 := by
  by_cases hle : i ≤ x.length
  · have htake : k ∉ x.take i := fun hk => hx (List.mem_of_mem_take hk)
    have hdrop : k ∉ x.drop i := fun hk => hx (List.mem_of_mem_drop hk)
    rw [placedAmong, List.take_append_of_le_length hle, List.drop_append_of_le_length hle,
      filter_ne_append_cons hdrop hy, filter_ne_of_not_mem htake] at h
    have hrest : k ∉ x.drop i ++ y := by simp [hdrop, hy]
    have hlen := congrArg List.length ((List.append_cons_inj_of_notMem htake hrest).mp h).1
    rw [List.length_take] at hlen
    omega
  · obtain ⟨j, rfl⟩ := Nat.exists_eq_add_of_lt (Nat.lt_of_not_le hle)
    rw [placedAmong, Nat.add_assoc, List.take_length_add_append, List.drop_length_add_append,
      List.take_succ_cons, List.drop_succ_cons,
      filter_ne_append_cons hx fun hk => hy (List.mem_of_mem_take hk),
      filter_ne_of_not_mem fun hk => hy (List.mem_of_mem_drop hk), List.append_assoc] at h
    have hrest := List.append_cancel_left h
    rw [List.length_append, List.length_cons] at hi
    -- the moved node comes first among what was behind it, so nothing was skipped
    cases j with
    | zero => exact .inr rfl
    | succ j =>
      cases y with
      | nil => rw [List.length_nil] at hi; omega
      | cons o y =>
        rw [List.take_succ_cons, List.cons_append] at hrest
        exact absurd (List.cons.inj hrest).1.symm fun heq => hy (heq ▸ List.mem_cons_self)

/-- A move that leaves every row as it was goes to a place beside the node's own. -/
theorem Arrived.keeps {root m t : Node α} {new : NodeId} {place : Placement} {goal : Goal}
    (harrived : root.Arrived m.id new place.index goal t) (hd : root.ids.Nodup)
    (hm : m ∈ root.nodes) (hnew : new ∉ root.ids) (hgoal : goal.parent? = place.parent)
    (hplace : place.Within root) (hrows : ∀ id, t.childIds id = root.childIds id) :
    place.keeps root m.id = true := by
  cases harrived with
  | @joins _ h cs found children_eq =>
    have hhost : branch h cs ∈ root.nodes := mem_nodes_of_find? found
    have hrow : root.childIds h.id = cs.map id := childIds_of_mem_nodes hd hhost
    have hparent : place.parent = some h.id := hgoal.symm
    rw [hrows, hrow] at children_eq
    have hmem : m.id ∈ cs.map id := by
      by_contra hnot
      have hlen := congrArg List.length children_eq
      rw [List.length_map, List.length_map, length_placedAmong hnot, List.length_map] at hlen
      omega
    -- so the host is the old parent, and nothing has given way
    obtain ⟨k, hk, hid⟩ := List.mem_map.mp hmem
    have hp : root.parent? m.id = some (branch h cs) :=
      (parent?_eq_some_iff hd).mpr ⟨hhost, k, hk, hid⟩
    obtain ⟨-, hmcs, -⟩ := exists_plug_parent hd hm hp
    obtain ⟨_, x, y, heq, hx, hy⟩ := exists_first_child (nodup_ids_of_mem_nodes hd hhost) hmcs
    obtain ⟨rfl, rfl⟩ := branch.inj heq
    have hstand : root.standIn m.id (.under h.id) = fun j => j := by
      funext j
      rw [standIn_eq hp, if_neg fun hgone => hgone.2.1 rfl]
    have hle := hplace h _ hparent found
    rw [hstand, List.map_id', List.map_append, List.map_cons] at children_eq
    have hindex := index_of_placedAmong_eq (by simpa using hx) (by simpa using hy)
      (by simpa using hle) children_eq.symm
    rw [List.length_map] at hindex
    exact (keeps_iff hd hm).mpr ⟨h, x, y, found, hx, hparent, hindex⟩
  | splits found children_eq =>
    rw [hrows, childIds_of_not_mem hnew] at children_eq
    split at children_eq <;> cases children_eq
  | crosses children_eq =>
    rw [hrows, childIds_of_not_mem hnew] at children_eq
    split at children_eq <;> cases children_eq

end Node

/-! ## 4. The drop -/

theorem Placement.goal_of (place : Placement) :
    ∃ goal, Goal.of place.parent place.parent.isNone = .ok goal ∧ goal.parent? = place.parent := by
  cases place.parent with
  | none => exact ⟨.besideRoot, rfl, rfl⟩
  | some parent => exact ⟨.under parent, rfl, rfl⟩

/-- A move to where the node is already leaves the tree, up to sizes. -/
theorem State.sizeless_of_keeps {s r : State α} {root m t : Node α} {place : Placement}
    (hroot : s.root = some root) (hn : root.NormalForm) (hd : root.ids.Nodup) (hm : m ∈ root.nodes)
    (hkeeps : place.keeps root m.id = true)
    (hr : s.move place.parent place.parent.isNone place.index m = .ok r)
    (ht : r.settle.root = some t) : t.sizeless = root.sizeless := by
  obtain ⟨h, x, y, hfind, hx, hparent, hindex⟩ := (keeps_iff hd hm).mp hkeeps
  have hgoal : Goal.of place.parent place.parent.isNone = .ok (.under h.id) := by
    rw [hparent]
    rfl
  obtain ⟨p, placed, hp, -, hplaced, htree⟩ :=
    relocates_of_move hroot hgoal (find?_of_mem_nodes hd hm) hr
  have hp' : root.parent? m.id = some (branch h (x ++ m :: y)) :=
    (parent?_eq_some_iff hd).mpr ⟨mem_nodes_of_find? hfind, m, by simp, rfl⟩
  obtain rfl := Option.some.inj (hp.symm.trans hp')
  have hkept := hn.balance?_of_sizeless (hplaced.sizeless_kept hn hfind hx hindex)
  have hsettled : r.root.bind Node.balance? = some t := ht
  rw [htree, Option.bind_some, id_branch] at hsettled
  rw [hsettled] at hkept
  exact Option.some.inj hkept

/-- A drop onto a side of a pane or a branch that is not rejected stages nothing exactly if the move
to the place asked for would change nothing but sizes, or what is the same, leave each branch with
the children that it has. That move is accepted in any case. -/
theorem noop_drops_are_suppressed (s : State α) (root : Node α) (target moved : NodeId)
    (zone : DropZone) (axis : Orientation) (staged : Option (Action α)) (hs : Reachable s)
    (hd : s.treeIds.Nodup) (hbound : s.ids.next.toNat < 2 ^ 63) (hroot : s.root = some root)
    (hzone : zone.axis? = some axis) (h : root.resolveDrop target moved zone = .ok staged) :
    ∃ t m place after, root.find? target = some t ∧ root.find? moved = some m ∧
      Placement.ofDrop? root t axis zone = some place ∧
      s.step (.move place.parent place.parent.isNone place.index m) = (after, none) ∧
      (staged = none ↔ after.root.map Node.sizeless = some root.sizeless) ∧
      (staged = none ↔ ∃ n, after.root = some n ∧ ∀ id, n.childIds id = root.childIds id) := by
  have hcovers := hs.covers
  rw [State.treeIds_eq hroot] at hd hcovers
  have hn := hs.settled.normalForm root hroot
  obtain ⟨t, m, place, ht, hm, hout, hplace, hstaged⟩ := resolveDrop_side_ok hzone h
  obtain rfl := id_of_find? ht
  obtain rfl := id_of_find? hm
  have hmn := mem_nodes_of_find? hm
  have hfits := Placement.ofDrop?_fits hd (mem_nodes_of_find? ht) hmn hout hplace
  obtain ⟨after, hperform, -⟩ := State.perform_of_fits hd hroot hfits
  obtain ⟨r, hr, hsettle⟩ := State.map_eq_ok hperform
  have hstep := State.step_of_edit (a := .move place.parent place.parent.isNone place.index m) rfl hr
  rw [hsettle] at hstep
  obtain ⟨goal, hgoal, hparent⟩ := place.goal_of
  obtain ⟨n, hroot', harrived⟩ := State.move_arrived hroot hn.forked hd hcovers hbound hgoal hm hr
  rw [hsettle] at hroot'
  -- the node keeps its place, the trees differ in sizes only, the children are the same: each gives
  -- the next, and the last gives the first
  have hsame : place.keeps root m.id = true → n.sizeless = root.sizeless := fun hkeeps =>
    State.sizeless_of_keeps hroot hn hd hmn hkeeps hr (hsettle ▸ hroot')
  have hrows : n.sizeless = root.sizeless → ∀ id, n.childIds id = root.childIds id := by
    intro heq id
    rw [← childIds_sizeless, heq, childIds_sizeless]
  have hkeeps : (∀ id, n.childIds id = root.childIds id) → place.keeps root m.id = true :=
    harrived.keeps hd hmn (hcovers.peek_not_mem hbound) hparent
      (Placement.ofDrop?_within hd hn.forked hplace)
  refine ⟨t, m, place, after.settle, ht, hm, hplace, hstep, ?_, ?_⟩
  · rw [hstaged, hroot', Option.map_some, Option.some.injEq]
    exact ⟨hsame, fun heq => hkeeps (hrows heq)⟩
  · rw [hstaged, hroot']
    constructor
    · intro hkeeps
      exact ⟨n, rfl, hrows (hsame hkeeps)⟩
    · intro hchildren
      obtain ⟨n', hn', hall⟩ := hchildren
      obtain rfl := Option.some.inj hn'
      exact hkeeps hall

/-- The pane before a column is dropped onto its left side and stays. A pane of the column that is
dropped there leaves it. -/
theorem pane_before_column_stays :
    ∃ (s after after' : State Unit) (root : Node Unit) (place place' : Placement) (m m' : Node Unit)
      (a : Action Unit), s.root = some root ∧
      root.resolveDrop ⟨3⟩ ⟨2⟩ .left = .ok none ∧
      s.step (.move place.parent place.parent.isNone place.index m) = (after, none) ∧
      after.root.map Node.sizeless = some root.sizeless ∧
      root.resolveDrop ⟨3⟩ ⟨4⟩ .left = .ok (some a) ∧
      s.step (.move place'.parent place'.parent.isNone place'.index m') = (after', none) ∧
      after'.root.map Node.sizeless ≠ some root.sizeless := by
  let pane (n : UInt64) : Node Unit := .leaf { id := ⟨n⟩ } ()
  let column : Node Unit := .branch { id := ⟨3⟩ } [pane 4, pane 5]
  let s := State.ofRoot (.branch { id := ⟨1⟩ } [pane 2, column])
  have hd : s.treeIds.Nodup := by decide +kernel
  have hbound : s.ids.next.toNat < 2 ^ 63 := by decide +kernel
  have hparts : s.root.map (fun root =>
      ((root.resolveDrop ⟨3⟩ ⟨2⟩ .left).toOption.map Option.isNone,
        (root.resolveDrop ⟨3⟩ ⟨4⟩ .left).toOption.map Option.isNone)) =
          some (some true, some false) := by decide +kernel
  obtain ⟨root, hroot, hparts⟩ := Option.map_eq_some_iff.mp hparts
  rw [Prod.mk.injEq] at hparts
  cases hstay : root.resolveDrop ⟨3⟩ ⟨2⟩ .left with
  | error r =>
    rw [hstay] at hparts
    cases hparts.1
  | ok staged =>
    cases hleave : root.resolveDrop ⟨3⟩ ⟨4⟩ .left with
    | error r =>
      rw [hleave] at hparts
      cases hparts.2
    | ok staged' =>
      rw [hstay, hleave] at hparts
      obtain ⟨_, m, place, after, -, -, -, hstep, hsame, -⟩ :=
        noop_drops_are_suppressed s root ⟨3⟩ ⟨2⟩ .left .row staged (.ofRoot _) hd hbound hroot rfl
          hstay
      obtain ⟨_, m', place', after', -, -, -, hstep', hsame', -⟩ :=
        noop_drops_are_suppressed s root ⟨3⟩ ⟨4⟩ .left .row staged' (.ofRoot _) hd hbound hroot rfl
          hleave
      obtain rfl := Option.isNone_iff_eq_none.mp (Option.some.inj hparts.1)
      obtain ⟨a, rfl⟩ := Option.ne_none_iff_exists'.mp
        (mt Option.isNone_iff_eq_none.mpr (Bool.eq_false_iff.mp (Option.some.inj hparts.2)))
      exact ⟨s, after, after', root, place, place', m, m', a, hroot, hstay, hstep,
        hsame.mp rfl, hleave, hstep', mt hsame'.mpr (Option.some_ne_none a)⟩

end Tiling
