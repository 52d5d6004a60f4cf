import Tiling.Node.Loan
import Tiling.Proofs.Exchange

/-!
# What loans give

A node on loan is the node at the path, and what is given back for it is set there. Two nodes are
lent together just when both are found together, in the same order, and the two that are given
back are set at the two paths. So to split the children where the paths part, with the smaller or
the larger index first, is the same as to follow the paths one by one.
-/

namespace Tiling

variable {α : Type}

/-! ## 1. Lists in two parts -/

/-- To write to both parts of a forest is to write to the whole at the two indices. -/
theorem Forest.set_append_set {cs : Forest α} {i j : Nat} (hij : i < j) (x y : Node α) :
    (cs.take j).set i x ++ (cs.drop j).set 0 y = (cs.set i x).set j y := by
  have hleft : ((cs.set i x).set j y).take j = (cs.take j).set i x := by
    rw [List.take_set_of_le (Nat.le_refl j), List.take_set]
  have hright : ((cs.set i x).set j y).drop j = (cs.drop j).set 0 y := by
    rw [← List.drop_set_of_lt hij (l := cs) (a := x), List.set_drop, Nat.add_zero]
  rw [← hleft, ← hright, List.take_append_drop]

/-- Whichever index is the larger one, the two parts give the members with the two indices. -/
theorem Forest.lendTwo?_eq {cs : Forest α} {i j : Nat} (hij : i ≠ j) :
    Forest.lendTwo? cs i j =
      (do return (← cs[i]?, ← cs[j]?, fun a b => (cs.set i a).set j b)) := by
  rw [lendTwo?]
  split
  · next hlt =>
    simp only [List.splitAt_eq, List.getElem?_take_of_lt hlt, List.head?_drop,
      Forest.set_append_set hlt]
  · next hge =>
    have hlt : j < i := by omega
    simp only [List.splitAt_eq, List.getElem?_take_of_lt hlt, List.head?_drop,
      Forest.set_append_set hlt, List.set_comm _ _ hij]

/-! ## 2. Where paths part -/

namespace Path

theorem fork?_cons_same (i : Nat) (p q : Path) :
    fork? (i :: p) (i :: q) = (fork? p q).map (· + 1) := by
  simp [fork?, List.findIdx?_cons]

theorem fork?_cons_ne {i j : Nat} (hij : i ≠ j) (p q : Path) :
    fork? (i :: p) (j :: q) = some 0 := by
  simp [fork?, List.findIdx?_cons, hij]

/-- Paths without a fork lie one above the other. -/
theorem fork?_eq_none {p q : Path} (h : fork? p q = none) : p <+: q ∨ q <+: p := by
  induction p generalizing q with
  | nil => exact .inl List.nil_prefix
  | cons i p ih =>
    cases q with
    | nil => exact .inr List.nil_prefix
    | cons j q =>
      by_cases hij : i = j
      · subst hij
        rw [fork?_cons_same, Option.map_eq_none_iff] at h
        simpa using ih h
      · rw [fork?_cons_ne hij] at h
        cases h

/-- At the fork the paths go on with different steps, after the same steps so far. -/
theorem fork?_eq_some {p q : Path} {k : Nat} (h : fork? p q = some k) :
    q.take k = p.take k ∧ ∃ i j p' q', i ≠ j ∧ p.drop k = i :: p' ∧ q.drop k = j :: q' := by
  induction p generalizing q k with
  | nil => cases h
  | cons i p ih =>
    cases q with
    | nil => cases h
    | cons j q =>
      by_cases hij : i = j
      · subst hij
        rw [fork?_cons_same, Option.map_eq_some_iff] at h
        obtain ⟨k, hk, rfl⟩ := h
        obtain ⟨htake, hdrop⟩ := ih hk
        exact ⟨congrArg (i :: ·) htake, hdrop⟩
      · rw [fork?_cons_ne hij] at h
        cases h
        exact ⟨rfl, i, j, p, q, hij, rfl, rfl⟩

end Path

namespace Node

/-! ## 3. One node -/

def loanAt (n : Node α) (p : Path) (m : Node α) : Loan α :=
  ⟨m, fun new => setAt new p n⟩

theorem loanAt_cons {h : Header} {cs : Forest α} {i : Nat} {c : Node α} (hc : cs[i]? = some c)
    (p : Path) (m : Node α) : (branch h cs).loanAt (i :: p) m =
      ⟨m, fun new => branch h (cs.set i ((c.loanAt p m).tree new))⟩ := by
  rw [loanAt]
  congr 1
  funext new
  rw [setAt, Forest.modify_eq_set hc]
  rfl

/-- Lending a node is looking it up and replacing what stands there. -/
theorem lend?_eq (n : Node α) (p : Path) : n.lend? p = (n.at? p).map (n.loanAt p) := by
  induction p generalizing n with
  | nil => rfl
  | cons i p ih =>
    cases n with
    | leaf h d => rfl
    | branch h cs =>
      rw [lend?, at?_cons, children_branch]
      cases hc : cs[i]? with
      | none => rfl
      | some c =>
        simp only [Option.bind_eq_bind, Option.bind_some, ih]
        cases c.at? p with
        | none => rfl
        | some m => exact congrArg some (loanAt_cons hc p m).symm

/-! ## 4. Two nodes -/

def pairLoanAt (n : Node α) (p q : Path) (pair : Node α × Node α) : PairLoan α :=
  ⟨pair.1, pair.2, fun a b => setAt b q (setAt a p n)⟩

theorem pairLoanAt_cons {h : Header} {cs : Forest α} {i j : Nat} {c e : Node α} (hij : i ≠ j)
    (hc : cs[i]? = some c) (he : cs[j]? = some e) (p q : Path) (a b : Node α) :
    (branch h cs).pairLoanAt (i :: p) (j :: q) (a, b) =
      ⟨a, b, fun x y => branch h ((cs.set i (setAt x p c)).set j (setAt y q e))⟩ := by
  rw [pairLoanAt]
  congr 1
  funext x y
  have he' : (cs.set i (setAt x p c))[j]? = some e := by rwa [List.getElem?_set_ne hij]
  rw [setAt, setAt, Forest.modify_eq_set hc, Forest.modify_eq_set he']

theorem lendApart_eq {i j : Nat} (hij : i ≠ j) (n : Node α) (p q : Path) :
    n.lendApart (i :: p) (j :: q) =
      (n.pairAt (i :: p) (j :: q)).map (Option.map (n.pairLoanAt (i :: p) (j :: q))) := by
  cases n with
  | leaf h d =>
    rw [pairAt, if_neg hij]
    rfl
  | branch h cs =>
    rw [lendApart, pairAt, if_neg hij, children_branch, isLeaf_branch, if_neg Bool.false_ne_true,
      Forest.lendTwo?_eq hij]
    split
    · rfl
    · refine congrArg Except.ok ?_
      cases hc : cs[i]? with
      | none => rfl
      | some c =>
        cases he : cs[j]? with
        | none => simp
        | some e =>
          simp only [Option.bind_eq_bind, Option.bind_some, Option.pure_def, lend?_eq]
          cases c.at? p with
          | none => rfl
          | some a =>
            cases e.at? q with
            | none => rfl
            | some b => exact congrArg some (pairLoanAt_cons hij hc he p q a b).symm

/-- A pair lent out of a lent subtree is a pair lent out of the tree. -/
theorem within_loanAt {n m : Node α} {r : Path} (hm : n.at? r = some m) (p q : Path)
    (pair : Node α × Node α) :
    (m.pairLoanAt p q pair).within (n.loanAt r m) = n.pairLoanAt (r ++ p) (r ++ q) pair := by
  rw [PairLoan.within, pairLoanAt, pairLoanAt]
  congr 1
  funext a b
  have hmid : (setAt (setAt a p m) r n).at? r = some (setAt a p m) := at?_setAt_self hm _
  rw [setAt_append hm, setAt_append hmid, setAt_setAt]
  rfl

/-- Two nodes are lent as they are found, and what is given back for them is set at the paths. -/
theorem lendPair_eq (n : Node α) (p q : Path) :
    n.lendPair p q = (n.pairAt p q).map (Option.map (n.pairLoanAt p q)) := by
  rw [lendPair]
  cases hfork : Path.fork? p q with
  | none =>
    rw [pairAt_eq_none (Path.fork?_eq_none hfork)]
    rfl
  | some k =>
    obtain ⟨htake, i, j, p', q', hij, hp, hq⟩ := Path.fork?_eq_some hfork
    have hp' : p = p.take k ++ i :: p' := by rw [← hp, List.take_append_drop]
    have hq' : q = p.take k ++ j :: q' := by rw [← htake, ← hq, List.take_append_drop]
    simp only [hp, hq, lend?_eq]
    generalize p.take k = r at hp' hq'
    subst hp' hq'
    rw [pairAt_append]
    cases hm : n.at? r with
    | none => rfl
    | some m =>
      show (m.lendApart (i :: p') (j :: q')).bind
        (fun pair => .ok (pair.map (PairLoan.within · (n.loanAt r m)))) =
          Except.map _ (m.pairAt (i :: p') (j :: q'))
      rw [lendApart_eq hij]
      cases m.pairAt (i :: p') (j :: q') with
      | error fault => rfl
      | ok found =>
        cases found with
        | none => rfl
        | some pair => exact congrArg (Except.ok ∘ some) (within_loanAt hm _ _ pair)

/-- The two nodes lent are the two that a look-up finds. -/
theorem lendPair_nodes (n : Node α) (p q : Path) :
    (n.lendPair p q).map (Option.map PairLoan.nodes) = n.pairAt p q := by
  rw [lendPair_eq]
  cases n.pairAt p q with
  | error fault => rfl
  | ok found => cases found <;> rfl

/-- Giving the two back the other way round is the exchange. -/
theorem lendPair_exchanged (n : Node α) (p q : Path) :
    (n.lendPair p q).map (Option.map PairLoan.exchanged) = n.exchange? p q := by
  rw [lendPair_eq, exchange?]
  cases n.pairAt p q with
  | error fault => rfl
  | ok found => cases found <;> rfl

end Node

end Tiling
