import Tiling.Node

/-!
# Looking up nodes by identifier

Every search meets a node before its descendants and a child before the siblings that follow it.
Where an identifier occurs more than once, the first node met is the one found.
-/

namespace Tiling

variable {α : Type}

mutual

def Node.find? (id : NodeId) : Node α → Option (Node α)
  | .leaf h d => if h.id = id then some (.leaf h d) else none
  | .branch h cs => if h.id = id then some (.branch h cs) else Forest.find? id cs

def Forest.find? (id : NodeId) : Forest α → Option (Node α)
  | [] => none
  | c :: cs =>
      match c.find? id with
      | some n => some n
      | none => Forest.find? id cs

end

def Forest.index? (id : NodeId) (forest : Forest α) : Option Nat :=
  forest.findIdx? fun c => c.id = id

mutual

/-- The branch that has the node as a child. The search does not go below a node that bears the
identifier itself, so the node at the top has no parent. -/
def Node.parent? (id : NodeId) : Node α → Option (Node α)
  | .leaf .. => none
  | .branch h cs =>
      if h.id = id then none
      else if (Forest.index? id cs).isSome then some (.branch h cs)
      else Forest.parent? id cs

def Forest.parent? (id : NodeId) : Forest α → Option (Node α)
  | [] => none
  | c :: cs =>
      match c.parent? id with
      | some n => some n
      | none => Forest.parent? id cs

end

namespace Node

def contains (n : Node α) (id : NodeId) : Bool :=
  (n.find? id).isSome

def childIndex? (n : Node α) (id : NodeId) : Option Nat :=
  Forest.index? id n.children

end Node

mutual

def Node.update? (id : NodeId) (f : Node α → Node α) : Node α → Option (Node α)
  | .leaf h d => if h.id = id then some (f (.leaf h d)) else none
  | .branch h cs =>
      if h.id = id then some (f (.branch h cs))
      else (Forest.update? id f cs).map (.branch h)

def Forest.update? (id : NodeId) (f : Node α → Node α) : Forest α → Option (Forest α)
  | [] => none
  | c :: cs =>
      match c.update? id f with
      | some c' => some (c' :: cs)
      | none => (Forest.update? id f cs).map (c :: ·)

end

mutual

def Node.updateParent? (id : NodeId) (f : Node α → Node α) : Node α → Option (Node α)
  | .leaf .. => none
  | .branch h cs =>
      if h.id = id then none
      else if (Forest.index? id cs).isSome then some (f (.branch h cs))
      else (Forest.updateParent? id f cs).map (.branch h)

def Forest.updateParent? (id : NodeId) (f : Node α → Node α) : Forest α → Option (Forest α)
  | [] => none
  | c :: cs =>
      match c.updateParent? id f with
      | some c' => some (c' :: cs)
      | none => (Forest.updateParent? id f cs).map (c :: ·)

end

namespace Node

def replace? (n : Node α) (id : NodeId) (new : Node α) : Option (Node α × Node α) :=
  match n.find? id, n.update? id fun _ => new with
  | some old, some tree => some (old, tree)
  | _, _ => none

end Node

end Tiling
