import Tiling.Node.Edit
import Tiling.Proofs.NormalForm

/-!
# Grafting a child and taking one out

The two edits of a sibling group, each with its effect on the census of the whole tree. Grafting adds
the entries of the child and raises one number or makes a new branch; taking a child out removes its
entries and lowers one number.
-/

namespace Tiling

variable {α : Type}

open Context
open scoped List

namespace Node

/-! ## 1. The edits -/

def inner (n : Node α) (o : Orientation) : Node α :=
  if n.isLeaf then (n.withSize Share.whole).withOrientation o.reverse else n.withSize Share.whole

theorem wrap_eq (n : Node α) (id : NodeId) (o : Orientation) :
    n.wrap id o = branch ⟨id, o, n.size, n.visible⟩ [n.inner o] := by
  rw [wrap, inner]
  simp only [withSize, isLeaf_mapHeader]

@[simp] theorem census_inner (n : Node α) (o : Orientation) : (n.inner o).census = n.census := by
  rw [inner]
  split <;> simp

@[simp] theorem id_inner (n : Node α) (o : Orientation) : (n.inner o).id = n.id := by
  rw [inner]
  split <;> simp

@[simp] theorem bears_inner (n : Node α) (o : Orientation) : (n.inner o).bears = n.bears := by
  rw [inner]
  split <;> simp

theorem inner_branch (h : Header) (cs : Forest α) (o : Orientation) :
    (branch h cs).inner o = branch { h with size := Share.whole } cs := rfl

def joined (child : Node α) (h : Header) (cs : Forest α) : Node α :=
  (child.orient h.orientation.reverse).joining cs

theorem insertIdx_min (cs : Forest α) (i : Nat) (k : Node α) :
    cs.insertIdx (min i cs.length) k = cs.take i ++ k :: cs.drop i := by
  induction cs generalizing i with
  | nil => simp
  | cons c cs ih =>
    cases i with
    | zero => rfl
    | succ i =>
      rw [List.length_cons, Nat.succ_min_succ, List.insertIdx_succ_cons, ih]
      rfl

theorem length_take_cons_drop {β : Type} (xs : List β) (i : Nat) (x : β) :
    (xs.take i ++ x :: xs.drop i).length = xs.length + 1 := by
  rw [List.length_append, List.length_cons, ← Nat.add_assoc, ← List.length_append,
    List.take_append_drop]

theorem forall_mem_take_cons_drop {β : Type} {P : β → Prop} {xs : List β} {i : Nat} {x : β} :
    (∀ y ∈ xs.take i ++ x :: xs.drop i, P y) ↔ P x ∧ ∀ y ∈ xs, P y := by
  rw [List.forall_mem_append, List.forall_mem_cons, and_left_comm, ← List.forall_mem_append,
    List.take_append_drop]

theorem graft_branch (h : Header) (cs : Forest α) (i : Nat) (child : Node α) :
    (branch h cs).graft i child = branch h (cs.take i ++ child.joined h cs :: cs.drop i) := by
  rw [← insertIdx_min]
  rfl

@[simp] theorem id_joined (child : Node α) (h : Header) (cs : Forest α) :
    (child.joined h cs).id = child.id := by
  rw [joined, joining]
  split <;> simp

@[simp] theorem census_joined (child : Node α) (h : Header) (cs : Forest α) :
    (child.joined h cs).census = child.census := by
  rw [joined, joining]
  split <;> simp

@[simp] theorem bears_joined (child : Node α) (h : Header) (cs : Forest α) :
    (child.joined h cs).bears = child.bears := by
  rw [joined, joining]
  split <;> simp

/-- The child that is taken out is the first of its identifier from `start` on. -/
theorem dropChild_branch (h : Header) (w x y : Forest α) (k : Node α)
    (hx : ∀ c ∈ x, c.id ≠ k.id) :
    (branch h (w ++ (x ++ k :: y))).dropChild k.id w.length = branch h (w ++ (x ++ y)) := by
  have hfind : (x ++ k :: y).findIdx? (fun c => decide (c.id = k.id)) = some x.length := by
    rw [List.findIdx?_append, List.findIdx?_eq_none_iff.mpr (by simpa using hx)]
    simp [List.findIdx?_cons]
  rw [dropChild, dropChild?]
  simp [hfind, List.eraseIdx_append_of_length_le]

end Node

/-! ## 2. The census after an edit -/

/-- The census of a tree, opened at one of its containers. -/
theorem Context.census_plug_branch {d : Context α} {h : Header} {cs : Forest α}
    (hb : (Node.branch h cs).bears) :
    (plug d (.branch h cs)).census ~
      ⟨h.id, some (cs.countP Node.bears)⟩ :: (census d ++ cs.flatMap Node.census) := by
  have hp := census_plug (c := d) hb
  rw [Node.census_branch] at hp
  exact hp.trans List.perm_middle

namespace Node

/-- A graft adds the census of the child and one to the count of the container it enters. -/
theorem census_graft {d : Context α} {h : Header} {cs : Forest α} (hb : (branch h cs).bears)
    (i : Nat) (child : Node α) :
    ∃ rest, (plug d (branch h cs)).census ~ ⟨h.id, some (cs.countP bears)⟩ :: rest ∧
      (plug d ((branch h cs).graft i child)).census ~
        ⟨h.id, some (cs.countP bears + child.bears.toNat)⟩ :: (rest ++ child.census) := by
  refine ⟨_, census_plug_branch hb, ?_⟩
  -- the child falls between the children before and after the index
  have hcs : (cs.take i).countP bears + (cs.drop i).countP bears = cs.countP bears := by
    rw [← List.countP_append, List.take_append_drop]
  have hcount : (cs.take i ++ child.joined h cs :: cs.drop i).countP bears =
      cs.countP bears + child.bears.toNat := by
    rw [List.countP_append, List.countP_cons, bears_joined]
    cases child.bears <;> simp <;> omega
  have hbears : (branch h (cs.take i ++ child.joined h cs :: cs.drop i)).bears := by
    rw [bears_branch, ← List.take_append_drop i cs, List.any_append, Bool.or_eq_true] at hb
    rw [bears_branch, List.any_append, List.any_cons, Bool.or_eq_true, Bool.or_eq_true]
    rcases hb with hb | hb
    · exact .inl hb
    · exact .inr (.inr hb)
  rw [graft_branch]
  refine (census_plug_branch hbears).trans ?_
  rw [hcount]
  refine .cons _ ?_
  rw [List.append_assoc]
  refine .append_left _ ?_
  rw [List.flatMap_append, List.flatMap_cons, census_joined]
  calc (cs.take i).flatMap census ++ (child.census ++ (cs.drop i).flatMap census)
    _ ~ (cs.take i).flatMap census ++ ((cs.drop i).flatMap census ++ child.census) :=
      List.perm_append_comm.append_left _
    _ ~ cs.flatMap census ++ child.census := by
      rw [← List.append_assoc, ← List.flatMap_append, List.take_append_drop]

/-- A wrapper adds its own entry and the census of the child it takes in. -/
theorem census_wrap_graft {d : Context α} {n : Node α} (hn : n.bears) (id : NodeId)
    (o : Orientation) (i : Nat) (child : Node α) :
    (plug d ((n.wrap id o).graft i child)).census ~
      ⟨id, some (1 + child.bears.toNat)⟩ :: ((plug d n).census ++ child.census) := by
  have hwrap : (branch ⟨id, o, n.size, n.visible⟩ [n.inner o]).bears := by
    rw [bears_branch, List.any_cons, bears_inner, hn, Bool.true_or]
  rw [wrap_eq]
  obtain ⟨rest, hbefore, hafter⟩ := census_graft (d := d) hwrap i child
  have hone : [n.inner o].countP bears = 1 := by
    rw [List.countP_singleton, bears_inner, if_pos hn]
  rw [hone] at hbefore hafter
  refine hafter.trans (.cons _ (.append_right _ ?_))
  -- the branch has one child only, so it adds one entry to the census of the tree
  have hadds := census_plug (c := d) hwrap
  rw [census_branch, hone, List.flatMap_singleton, census_inner] at hadds
  have hcons := hbefore.symm.trans (hadds.trans List.perm_middle)
  exact hcons.cons_inv.trans (census_plug hn).symm

/-- A child is taken out of a branch that keeps another one with leaves. -/
theorem census_dropChild {d : Context α} {h : Header} {x y : Forest α} {k : Node α} (hk : k.bears)
    (hxy : (branch h (x ++ y)).bears) :
    ∃ rest, (plug d (branch h (x ++ k :: y))).census ~
        ⟨h.id, some ((x ++ y).countP bears + 1)⟩ :: (rest ++ k.census) ∧
      (plug d (branch h (x ++ y))).census ~ ⟨h.id, some ((x ++ y).countP bears)⟩ :: rest := by
  refine ⟨_, ?_, census_plug_branch hxy⟩
  have hbears : (branch h (x ++ k :: y)).bears := by
    rw [bears_branch_iff, countP_bears_child hk]
    exact Nat.succ_pos _
  refine (census_plug_branch hbears).trans ?_
  rw [countP_bears_child hk, List.append_assoc]
  refine .cons _ (.append_left _ ?_)
  rw [List.flatMap_append, List.flatMap_cons, List.flatMap_append, List.append_assoc]
  exact List.perm_append_comm.append_left _

end Node

end Tiling
