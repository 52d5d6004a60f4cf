import Tiling.Node.Path

/-!
# Nodes on loan

A node is lent out to be written to, and whatever is given back for it takes its place in the tree.
To lend two nodes at once, their paths are followed to the branch where they part. The children
there are split at the larger of the two indices, so that each part holds one of the two.
-/

namespace Tiling

variable {α : Type}

/-- A node on loan, and the tree with what is given back for it. -/
structure Loan (α : Type) where
  node : Node α
  tree : Node α → Node α

/-- Two nodes on loan, and the tree with what is given back for the one and for the other. -/
structure PairLoan (α : Type) where
  first : Node α
  second : Node α
  tree : Node α → Node α → Node α

/-- The number of steps that two paths take together before they part. -/
def Path.fork? (p q : Path) : Option Nat :=
  (p.zip q).findIdx? fun (i, j) => i ≠ j

namespace PairLoan

def nodes (loan : PairLoan α) : Node α × Node α :=
  (loan.first, loan.second)

def exchanged (loan : PairLoan α) : Node α :=
  loan.tree loan.second loan.first

def within (loan : PairLoan α) (outer : Loan α) : PairLoan α :=
  { loan with tree := fun a b => outer.tree (loan.tree a b) }

end PairLoan

def Forest.lendTwo? (cs : Forest α) (i j : Nat) :
    Option (Node α × Node α × (Node α → Node α → Forest α)) :=
  -- Each of the two is in its own part of the forest.
  if i < j then
    let (left, right) := cs.splitAt j
    do return (← left[i]?, ← right.head?, fun a b => left.set i a ++ right.set 0 b)
  else
    let (left, right) := cs.splitAt i
    do return (← right.head?, ← left[j]?, fun a b => left.set j b ++ right.set 0 a)

namespace Node

def lend? (n : Node α) : Path → Option (Loan α)
  | [] => some ⟨n, fun new => new⟩
  | i :: p =>
      match n with
      | leaf .. => none
      | branch h cs => do
          let loan ← (← cs[i]?).lend? p
          return ⟨loan.node, fun new => branch h (cs.set i (loan.tree new))⟩

def lendApart : Node α → Path → Path → Except PathFault (Option (PairLoan α))
  | branch h cs, i :: p, j :: q =>
      -- The children cannot be split beyond their end.
      if cs.length < max i j then .error ⟨max i j, cs.length⟩
      else
        .ok do
          let (c, e, forest) ← Forest.lendTwo? cs i j
          let first ← c.lend? p
          let second ← e.lend? q
          return ⟨first.node, second.node, fun a b =>
            branch h (forest (first.tree a) (second.tree b))⟩
  | _, _, _ => .ok none

def lendPair (n : Node α) (p q : Path) : Except PathFault (Option (PairLoan α)) :=
  match Path.fork? p q with
  | none => .ok none
  | some fork =>
      match n.lend? (p.take fork) with
      | none => .ok none
      | some outer => do
          let pair ← outer.node.lendApart (p.drop fork) (q.drop fork)
          return pair.map (·.within outer)

end Node

end Tiling
