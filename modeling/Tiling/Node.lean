import Tiling.NodeId
import Tiling.Orientation
import Tiling.Share

/-!
# Nodes

A tree of panes. A leaf carries the host's datum, a branch divides its extent among its children;
every node has a header. A forest is the list of the children of one branch. `nodes` lists a
subtree with parents before children, and the other views are read off that list.
-/

namespace Tiling

/-- What a node has besides its content. -/
structure Header where
  id : NodeId
  orientation : Orientation := .row
  /-- The node's share of the extent that it divides with its siblings. -/
  size : Float32 := Share.whole
  visible : Bool := true
deriving BEq, DecidableEq

inductive Node (α : Type) where
  | leaf (header : Header) (datum : α)
  | branch (header : Header) (children : List (Node α))
deriving BEq

abbrev Forest (α : Type) := List (Node α)

variable {α : Type}

namespace Node

def header : Node α → Header
  | leaf h _ => h
  | branch h _ => h

def mapHeader (f : Header → Header) : Node α → Node α
  | leaf h d => leaf (f h) d
  | branch h cs => branch (f h) cs

def id (n : Node α) : NodeId := n.header.id

def orientation (n : Node α) : Orientation := n.header.orientation

def size (n : Node α) : Float32 := n.header.size

def visible (n : Node α) : Bool := n.header.visible

def withSize (n : Node α) (size : Float32) : Node α :=
  n.mapHeader fun h => { h with size }

def withOrientation (n : Node α) (orientation : Orientation) : Node α :=
  -- This turns the node alone; `orient` turns what lies below it too.
  n.mapHeader fun h => { h with orientation }

def isLeaf : Node α → Bool
  | leaf .. => true
  | branch .. => false

def datum? : Node α → Option α
  | leaf _ d => some d
  | branch .. => none

def children : Node α → Forest α
  | leaf .. => []
  | branch _ cs => cs

@[simp] theorem header_mapHeader (f : Header → Header) (n : Node α) :
    (n.mapHeader f).header = f n.header := by
  cases n <;> rfl

@[simp] theorem isLeaf_mapHeader (f : Header → Header) (n : Node α) :
    (n.mapHeader f).isLeaf = n.isLeaf := by
  cases n <;> rfl

@[simp] theorem children_mapHeader (f : Header → Header) (n : Node α) :
    (n.mapHeader f).children = n.children := by
  cases n <;> rfl

@[simp] theorem id_withSize (n : Node α) (size : Float32) : (n.withSize size).id = n.id := by
  simp [withSize, id]

@[simp] theorem size_withSize (n : Node α) (size : Float32) : (n.withSize size).size = size := by
  simp [withSize, Node.size]

@[simp] theorem id_withOrientation (n : Node α) (o : Orientation) :
    (n.withOrientation o).id = n.id := by
  simp [withOrientation, id]

end Node

mutual

def Node.nodes : Node α → List (Node α)
  | .leaf h d => [.leaf h d]
  | .branch h cs => .branch h cs :: Forest.nodes cs

def Forest.nodes : Forest α → List (Node α)
  | [] => []
  | c :: cs => c.nodes ++ Forest.nodes cs

end

namespace Node

def ids (n : Node α) : List NodeId :=
  n.nodes.map id

def leaves (n : Node α) : List (Node α) :=
  n.nodes.filter isLeaf

def leafIds (n : Node α) : List NodeId :=
  n.leaves.map id

def firstLeafId? (n : Node α) : Option NodeId :=
  n.leafIds.head?

end Node

mutual

/-- Gives the node an orientation and lets the orientations alternate below it. -/
def Node.orient (o : Orientation) : Node α → Node α
  | .leaf h d => .leaf { h with orientation := o } d
  | .branch h cs => .branch { h with orientation := o } (Forest.orient o.reverse cs)

def Forest.orient (o : Orientation) : Forest α → Forest α
  | [] => []
  | c :: cs => c.orient o :: Forest.orient o cs

end

@[simp] theorem Node.id_orient (o : Orientation) (n : Node α) : (n.orient o).id = n.id := by
  cases n <;> rfl

@[simp] theorem Node.orientation_orient (o : Orientation) (n : Node α) :
    (n.orient o).orientation = o := by
  cases n <;> rfl

end Tiling
