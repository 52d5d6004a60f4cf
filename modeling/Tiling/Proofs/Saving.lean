import Tiling.Proofs.Edited
import Tiling.Proofs.SavedNodes
import Tiling.Saved.State

/-!
# Saving and loading

Nodes, actions, rectangles and states are read back from the texts that they are saved as. The
finite numbers of a tree and of a rectangle are read at once and come back as they were. Those of an
action are rounded twice, so it is asked of each that this does not miss it.
-/

namespace Tiling

/-! ## 1. Actions -/

theorem Resize.ofJson?_toJson {r : Resize} (h : Json.Kept true r.size) :
    Resize.ofJson? r.toJson = some r := by
  rw [Json.Kept] at h
  have hfields : r.toJson.record? ["node_id", "size"] =
      some [("node_id", r.node.toJson), ("size", .ofSingle r.size)] := rfl
  simp [Resize.ofJson?, hfields, List.lookup, NodeId.ofJson?_toJson, h]

namespace Action

def index? {α : Type} : Action α → Option Nat
  | move _ _ index _ => some index
  | _ => none

/-- What is asked of an action so that nothing of it is lost: its index is a word, and its shares,
which are held back, are read back as they were. No infinite or undefined share is. -/
structure Savable (a : Action String) : Prop where
  index : ∀ i ∈ a.index?, i < UInt64.size
  shares : ∀ x ∈ a.shares, Json.Kept true x

/-- In double precision the shortest decimal of this share is in the middle between it and the next
one. -/
example : (Json.ofSingle (Float32.ofBits 0x15AE43FD)).single? true =
    some (Float32.ofBits 0x15AE43FE) := by
  decide +kernel

/-- A saved action has its kind for a tag and its parts for a content. -/
theorem tagged?_toJson (a : Action String) : a.toJson.tagged? = some (a.kind, .object a.parts) := by
  cases a <;> rfl

theorem onNodeOfJson?_parts (act : NodeId → Action String) (id : NodeId) :
    onNodeOfJson? act (.object [("node_id", id.toJson)]) = some (act id) := by
  have hfields : (Json.object [("node_id", id.toJson)]).record? ["node_id"] =
      some [("node_id", id.toJson)] := rfl
  rw [onNodeOfJson?, hfields]
  simp [List.lookup, id.ofJson?_toJson]

theorem moveOfJson?_parts {parent : Option NodeId} {atRoot : Bool} {index : Nat}
    {node : Node String} {allowance : Nat} (hdepth : node.nesting ≤ allowance)
    (hindex : index < UInt64.size) (hsize : ∀ m ∈ node.nodes, Json.Kept true m.size) :
    moveOfJson? allowance (.object (parts (.move parent atRoot index node))) =
      some (.move parent atRoot index node) := by
  have hfields : Json.record? ["parent_id", "insert_at_root", "index", "node"]
      (.object (parts (.move parent atRoot index node))) =
        some (parts (.move parent atRoot index node)) := rfl
  have hparent : Json.optional? NodeId.ofJson? (some (.ofOption NodeId.toJson parent)) =
      some parent :=
    Json.optional?_ofOption (by rintro _ ⟨⟩) fun id _ => id.ofJson?_toJson
  have hvalue : index.toUInt64.toNat = index := UInt64.toNat_ofNat_of_lt' hindex
  rw [moveOfJson?, hfields]
  simp [parts, List.lookup, hparent, Json.bool?, Json.word?_ofNat hindex,
    Node.ofJson?_toJson hdepth hsize, hvalue]

theorem insertOfJson?_parts {node : Node String} {magnified focused : Bool} {allowance : Nat}
    (hdepth : node.nesting ≤ allowance) (hsize : ∀ m ∈ node.nodes, Json.Kept true m.size) :
    insertOfJson? allowance (.object (parts (.insert node magnified focused))) =
      some (.insert node magnified focused) := by
  have hfields : Json.record? ["node", "magnified", "focused"]
      (.object (parts (.insert node magnified focused))) =
        some (parts (.insert node magnified focused)) := rfl
  rw [insertOfJson?, hfields]
  simp [parts, List.lookup, Json.bool?, Node.ofJson?_toJson hdepth hsize]

theorem resizeOfJson?_parts {shares : List Resize}
    (hshares : ∀ r ∈ shares, Json.Kept true r.size) :
    resizeOfJson? (.object (parts (.resize shares))) = some (.resize shares) := by
  have hfields : Json.record? ["resize_operations"] (.object (parts (.resize shares))) =
      some (parts (.resize shares)) := rfl
  have hitems := Json.mapM_map fun r hr => Resize.ofJson?_toJson (hshares r hr)
  rw [resizeOfJson?, hfields]
  show ((shares.map Resize.toJson).mapM Resize.ofJson?).bind
    (fun rs => some (Action.resize rs)) = _
  rw [hitems]
  rfl

/-- What an action carries is nested below the action's own object. -/
theorem nesting_le {a : Action String} {node : Node String} (h : a.carried? = some node) :
    node.nesting ≤ a.toJson.depth := by
  have hmem : ("node", node.toJson) ∈ ("type", Json.string a.kind) :: a.parts := by
    cases a with
    | move | insert =>
      cases h
      simp [parts]
    | _ => cases h
  rw [← node.depth_toJson]
  exact (Json.depth_lt_of_mem_fields hmem).le

/-- The parts of an action of any kind read back to it. -/
theorem ofParts?_parts {a : Action String} {allowance : Nat} (hdepth : a.toJson.depth ≤ allowance)
    (h : a.Savable) : ofParts? allowance (.object a.parts) a.kind = some a := by
  cases a with
  | stageDrop target moved zone =>
    have hfields : Json.record? ["node", "node_to_move", "direction"]
        (.object (parts (.stageDrop target moved zone))) =
          some (parts (.stageDrop target moved zone)) := rfl
    show stageDropOfJson? _ = _
    rw [stageDropOfJson?, hfields]
    simp [parts, List.lookup, NodeId.ofJson?_toJson, Json.choice?, DropZone.ofName?_name]
  | clearStaged => rfl
  | commitStaged => rfl
  | move parent atRoot index node =>
    exact moveOfJson?_parts ((nesting_le rfl).trans hdepth) (h.index index rfl)
      (List.forall_mem_map.mp h.shares)
  | insert node magnified focused =>
    exact insertOfJson?_parts ((nesting_le rfl).trans hdepth) (List.forall_mem_map.mp h.shares)
  | delete id => exact onNodeOfJson?_parts .delete id
  | focus id => exact onNodeOfJson?_parts .focus id
  | toggleMagnified id => exact onNodeOfJson?_parts .toggleMagnified id
  | swap first second =>
    have hfields : Json.record? ["node1", "node2"] (.object (parts (.swap first second))) =
        some (parts (.swap first second)) := rfl
    show swapOfJson? _ = _
    rw [swapOfJson?, hfields]
    simp [parts, List.lookup, NodeId.ofJson?_toJson]
  | resize shares => exact resizeOfJson?_parts (List.forall_mem_map.mp h.shares)

theorem inherited_toJson {P : Json → Prop} (hP : Json.Inherited P) {a : Action String}
    (hindex : ∀ i ∈ a.index?, i < UInt64.size) (hshares : ∀ x ∈ a.shares, P (.ofSingle x)) :
    P a.toJson := by
  refine hP.object (List.forall_mem_cons.mpr ⟨hP.string _, ?_⟩)
  cases a with
  | stageDrop | delete | focus | toggleMagnified | swap | clearStaged | commitStaged =>
    simp [parts, hP.id, hP.string]
  | move parent atRoot index node =>
    have hparent := hP.ofOption NodeId.toJson (o := parent) fun id _ => hP.id id
    have hnode := node.inherited_toJson hP fun m hm => hshares _ (List.mem_map_of_mem hm)
    simp [parts, hparent, hP.bool, hP.word (hindex index rfl), hnode]
  | insert node magnified focused =>
    have hnode := node.inherited_toJson hP fun m hm => hshares _ (List.mem_map_of_mem hm)
    simp [parts, hnode, hP.bool]
  | resize shares =>
    refine List.forall_mem_singleton.mpr (hP.array (List.forall_mem_map.mpr fun r hr => ?_))
    have hsize : P (.ofSingle r.size) := hshares _ (List.mem_map_of_mem hr)
    exact hP.object (by simp [hP.id, hsize])

theorem ofJson?_toJson {a : Action String} {allowance : Nat} (hdepth : a.toJson.depth ≤ allowance)
    (h : a.Savable) : ofJson? allowance a.toJson = some a := by
  -- all of the action is held back before its kind is known
  have hreadable : a.toJson.readable := inherited_toJson Json.inherited_readable h.index
    fun x hx => Json.readable_ofSingle (h.shares x hx)
  have hparts := ofParts?_parts hdepth h
  rw [ofJson?, if_pos (by simp [hdepth, hreadable]), a.tagged?_toJson]
  exact hparts

end Action

/-! ## 2. Rectangles -/

theorem Rect.ofJson?_toJson {r : Rect} (hx : r.x.isFinite) (hy : r.y.isFinite)
    (hwidth : r.width.isFinite) (hheight : r.height.isFinite) :
    Rect.ofJson? r.toJson = some r := by
  have hfields : r.toJson.record? ["x", "y", "width", "height"] = some
      [("x", .ofSingle r.x), ("y", .ofSingle r.y), ("width", .ofSingle r.width),
        ("height", .ofSingle r.height)] := rfl
  rw [Rect.ofJson?, hfields]
  simp [List.lookup, Json.single?_ofSingle, hx, hy, hwidth, hheight]

theorem Rect.printable_toJson (r : Rect) : r.toJson.Printable :=
  .object _ (by simp [Json.printable_ofSingle])

/-! ## 3. States -/

theorem IdSupply.ofJson?_toJson (ids : IdSupply) : IdSupply.ofJson? ids.toJson = some ids := by
  have hfields : ids.toJson.record? ["next"] = some [("next", .ofWord ids.next)] := rfl
  rw [IdSupply.ofJson?, hfields]
  simp [List.lookup, Json.word?_ofWord]

theorem Forest.toJson_eq (cs : Forest String) : Forest.toJson cs = cs.map Node.toJson := by
  induction cs with
  | nil => rfl
  | cons c cs ih => rw [Forest.toJson, ih, List.map_cons]

namespace State

/-- The numbers in the tree and in the list of leaves are finite, and the staged action is savable
in its own right. -/
structure Savable (s : State String) : Prop where
  root : ∀ n ∈ s.root, ∀ m ∈ n.nodes, m.size.isFinite
  leaves : ∀ n ∈ s.leaves, ∀ m ∈ n.nodes, m.size.isFinite
  staged : ∀ a ∈ s.staged, a.Savable

/-- The saved value of a savable state can be printed. -/
theorem Savable.printable {s : State String} (h : s.Savable) : s.toJson.Printable := by
  have hP := Json.inherited_printable
  have hroot := hP.ofOption Node.toJson (o := s.root) fun n hn =>
    n.inherited_toJson hP fun m hm => Json.printable_ofSingle _
  have hleaves := hP.array (Forest.inherited_toJson hP s.leaves fun m hm =>
    Json.printable_ofSingle _)
  have hstaged := hP.ofOption Action.toJson (o := s.staged) fun a ha =>
    Action.inherited_toJson hP (h.staged a ha).index fun x _ => Json.printable_ofSingle _
  have hid := fun o : Option NodeId => hP.ofOption NodeId.toJson (o := o) fun id _ => hP.id id
  have hgeneration : (Json.ofWord s.generation).Printable := hP.word s.generation.toNat_lt
  have hids : s.ids.toJson.Printable :=
    hP.object (List.forall_mem_singleton.mpr (hP.word s.ids.next.toNat_lt))
  exact hP.object (by simp [hroot, hleaves, hstaged, hid, hgeneration, hids])

theorem leavesOfJson?_toJson {leaves : List (Node String)} {allowance : Nat}
    (hdepth : (Json.array (Forest.toJson leaves)).depth ≤ allowance)
    (h : ∀ n ∈ leaves, ∀ m ∈ n.nodes, m.size.isFinite) :
    leavesOfJson? allowance (.array (Forest.toJson leaves)) = some leaves := by
  cases allowance with
  | zero => exact absurd hdepth (Nat.not_succ_le_zero _)
  | succ allowance =>
    rw [Forest.toJson_eq] at hdepth ⊢
    refine Json.mapM_map fun n hn => Node.ofJson?_toJson ?_ fun m hm =>
      Json.single?_ofSingle (h n hn m hm)
    have hlt := Json.depth_lt_of_mem_items (List.mem_map_of_mem (f := Node.toJson) hn)
    rw [n.depth_toJson] at hlt
    omega

theorem ofJson?_toJson {s : State String} {allowance : Nat} (hdepth : s.toJson.depth ≤ allowance)
    (h : s.Savable) : ofJson? allowance s.toJson = some { s with config := {} } := by
  cases allowance with
  | zero => exact absurd hdepth (Nat.not_succ_le_zero _)
  | succ allowance =>
    -- the state's own object takes one level of the allowance
    have hbelow : ∀ f ∈
        [("root_node", Json.ofOption Node.toJson s.root),
          ("leafs", .array (Forest.toJson s.leaves)),
          ("pending_action", .ofOption Action.toJson s.staged)], f.2.depth ≤ allowance := by
      intro f hf
      refine Nat.le_of_lt_succ (lt_of_lt_of_le (Json.depth_lt_of_mem_fields ?_) hdepth)
      exact List.mem_append_left _ hf
    simp only [List.forall_mem_cons] at hbelow
    obtain ⟨hroot, hleaves, hstaged, -⟩ := hbelow
    have hroot : Json.optional? (Node.ofJson? false allowance)
        (some (.ofOption Node.toJson s.root)) = some s.root := by
      refine Json.optional?_ofOption (by rintro (_ | _) ⟨⟩) fun n hn =>
        Node.ofJson?_toJson ?_ fun m hm => Json.single?_ofSingle (h.root n hn m hm)
      rw [hn, Json.ofOption, n.depth_toJson] at hroot
      exact hroot
    have hstaged : Json.optional? (Action.ofJson? allowance)
        (some (.ofOption Action.toJson s.staged)) = some s.staged := by
      refine Json.optional?_ofOption (by rintro _ ⟨⟩) fun a ha =>
        Action.ofJson?_toJson ?_ (h.staged a ha)
      rw [ha, Json.ofOption] at hstaged
      exact hstaged
    have hid : ∀ o : Option NodeId,
        Json.optional? NodeId.ofJson? (some (.ofOption NodeId.toJson o)) = some o :=
      fun o => Json.optional?_ofOption (by rintro _ ⟨⟩) fun id _ => id.ofJson?_toJson
    have hfields : s.toJson.record?
        ["root_node", "leafs", "pending_action", "generation", "focused_node_id",
          "magnified_node_id", "ids"] = some
        [("root_node", .ofOption Node.toJson s.root),
          ("leafs", .array (Forest.toJson s.leaves)),
          ("pending_action", .ofOption Action.toJson s.staged),
          ("generation", .ofWord s.generation),
          ("focused_node_id", .ofOption NodeId.toJson s.focused),
          ("magnified_node_id", .ofOption NodeId.toJson s.magnified), ("ids", s.ids.toJson)] := rfl
    rw [ofJson?, hfields]
    simp [List.lookup, hroot, leavesOfJson?_toJson hleaves h.leaves, hstaged, Json.word?_ofWord,
      hid, IdSupply.ofJson?_toJson]

/-- A savable state loads from its saved text, but for the configuration, which is not saved. -/
theorem load?_save {s : State String} (hdepth : s.toJson.depth ≤ Json.allowance)
    (h : s.Savable) : load? s.save = some { s with config := {} } := by
  rw [load?, save, Json.parse?_print h.printable, Option.bind_some]
  exact ofJson?_toJson hdepth h

end State

/-! ## 4. Texts -/

/-- Whatever is saved is read back from its text as it was, whether it is a node, an action, a
rectangle or a state; a state has the default configuration then, and equals the one that was saved
once its configuration is put back. The numbers are finite, those of an action are assumed to
survive being held back, and nothing is nested too deep. -/
theorem everything_saved_reads_back :
    (∀ n : Node String, n.toJson.depth ≤ Json.allowance → (∀ m ∈ n.nodes, m.size.isFinite) →
      (Json.parse? n.toJson.print).bind (Node.ofJson? false Json.allowance) = some n) ∧
    (∀ a : Action String, a.toJson.depth ≤ Json.allowance → a.Savable →
      (Json.parse? a.toJson.print).bind (Action.ofJson? Json.allowance) = some a) ∧
    (∀ r : Rect, r.x.isFinite → r.y.isFinite → r.width.isFinite → r.height.isFinite →
      (Json.parse? r.toJson.print).bind Rect.ofJson? = some r) ∧
    ∀ s : State String, s.toJson.depth ≤ Json.allowance → s.Savable →
      ∃ t, State.load? s.save = some t ∧ t.config = {} ∧ { t with config := s.config } = s := by
  refine ⟨fun n hdepth hfinite => ?_, fun a hdepth ha => ?_, fun r hx hy hwidth hheight => ?_,
    fun s hdepth hs => ⟨_, State.load?_save hdepth hs, rfl, rfl⟩⟩
  · have hprintable := n.inherited_toJson Json.inherited_printable fun m _ =>
      Json.printable_ofSingle m.size
    rw [n.depth_toJson] at hdepth
    rw [Json.parse?_print hprintable, Option.bind_some]
    exact Node.ofJson?_toJson hdepth fun m hm => Json.single?_ofSingle (hfinite m hm)
  · have hprintable := a.inherited_toJson Json.inherited_printable ha.index fun x _ =>
      Json.printable_ofSingle x
    rw [Json.parse?_print hprintable, Option.bind_some]
    exact Action.ofJson?_toJson hdepth ha
  · rw [Json.parse?_print r.printable_toJson, Option.bind_some]
    exact Rect.ofJson?_toJson hx hy hwidth hheight

def stagedSample : State String :=
  { root := some (.branch { id := .generated 4 }
      [.leaf { id := ⟨1⟩, size := 33.3, visible := false } "\"one\"\n",
        .leaf { id := ⟨2⟩, orientation := .column } "two"])
    leaves := [.leaf { id := ⟨1⟩, size := 33.3, visible := false } "\"one\"\n",
      .leaf { id := ⟨2⟩, orientation := .column } "two"]
    staged := some (.move (some (.generated 4)) false 1 (.leaf { id := ⟨3⟩, size := 0.1 } "three"))
    generation := 7
    focused := some ⟨2⟩
    ids := ⟨5⟩
    config := { maxChildren := 3 } }

theorem stagedSample_reads_back :
    (∃ root, stagedSample.root = some root ∧
      (Json.parse? root.toJson.print).bind (Node.ofJson? false Json.allowance) = some root) ∧
    (∃ a, stagedSample.staged = some a ∧
      (Json.parse? a.toJson.print).bind (Action.ofJson? Json.allowance) = some a) ∧
    (Json.parse? (Rect.toJson ⟨0.0, -2.5, 1920.0, 1080.1⟩).print).bind Rect.ofJson? =
      some ⟨0.0, -2.5, 1920.0, 1080.1⟩ ∧
    ∃ t, State.load? stagedSample.save = some t ∧ t.config = {} ∧
      { t with config := stagedSample.config } = stagedSample := by
  obtain ⟨hnode, haction, hrect, hstate⟩ := everything_saved_reads_back
  have hfinite : ∀ n ∈ stagedSample.root, ∀ m ∈ n.nodes, m.size.isFinite := by
    rintro n ⟨⟩
    decide +kernel
  have hsavable : ∀ a ∈ stagedSample.staged, a.Savable := by
    rintro a ⟨⟩
    refine ⟨by rintro i ⟨⟩; decide, ?_⟩
    unfold Json.Kept
    decide +kernel
  refine ⟨⟨_, rfl, hnode _ (by decide +kernel) (hfinite _ rfl)⟩,
    ⟨_, rfl, haction _ (by decide +kernel) (hsavable _ rfl)⟩,
    hrect _ (by decide +kernel) (by decide +kernel) (by decide +kernel) (by decide +kernel),
    hstate _ (by decide +kernel) ⟨hfinite, ?_, hsavable⟩⟩
  decide +kernel

end Tiling
