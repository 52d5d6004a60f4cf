import Tiling.Proofs.Decimals
import Tiling.Proofs.JsonText
import Tiling.Saved.Node

/-!
# Reading saved nodes

A node is read back from the value that it is saved as, if the shares in it are. What holds of the
numbers in a saved value and of all containers of such holds of the whole, such as that it can be
printed without loss, or held back.
-/

namespace Tiling

/-! ## 1. Words and numbers -/

namespace Json

theorem word?_ofNat {n : Nat} (h : n < UInt64.size) :
    (number (.ofNat n)).word? = some n.toUInt64 := by
  simp [word?, Numeral.word?, Numeral.ofNat, h]

theorem word?_ofWord (n : UInt64) : (ofWord n).word? = some n := by
  rw [ofWord, word?_ofNat n.toNat_lt]
  simp

/-- Whether a number is read back as it was. A finite one is where it is read at once; where it is
held back it is rounded twice, which may miss it. -/
def Kept (held : Bool) (x : Float32) : Prop :=
  (ofSingle x).single? held = some x

/-- Zeros before the point do not change how many digits stand there. -/
theorem magnitude_mul_pow {negative : Bool} {n k : Nat} (h : n = 0 → k = 0) :
    Decimal.magnitude ⟨negative, n * 10 ^ k, 0⟩ = Decimal.magnitude ⟨negative, n, k⟩ := by
  have hlength : (Nat.toDigits 10 (n * 10 ^ k)).length = (Nat.toDigits 10 n).length + k := by
    rcases Nat.eq_zero_or_pos n with hn | hn
    · rw [h hn, pow_zero, mul_one, add_zero]
    · clear h
      induction k with
      | zero => rw [pow_zero, mul_one, add_zero]
      | succ k ih =>
        rw [pow_succ, ← mul_assoc, Nat.toDigits_of_base_le (by norm_num)
          (Nat.le_mul_of_pos_left 10 (by positivity)), List.length_append,
          Nat.mul_div_cancel _ (by norm_num), ih]
        rfl
  simp [Decimal.magnitude, hlength]

/-- The literal of the shortest decimal is settled, as its last digit is not zero. -/
theorem settled_ofDecimal {x : Float32} {d : Decimal} (h : Decimal.Shortest x d) :
    Settled (.ofDecimal d) := by
  have hlast := h.last_digit
  obtain ⟨negative, n, e⟩ := d
  simp only at hlast
  rw [Numeral.ofDecimal]
  split
  · next hspread =>
    rw [Bool.and_eq_true, decide_eq_true_iff] at hspread
    obtain ⟨hpositional, hexponent⟩ := hspread
    obtain ⟨k, rfl⟩ := Int.eq_ofNat_of_zero_le hexponent
    have hmagnitude : Decimal.magnitude ⟨negative, n * 10 ^ k, 0⟩ =
        Decimal.magnitude ⟨negative, n, k⟩ := magnitude_mul_pow fun hn => by
      have hzero := hlast.resolve_right (not_not.mpr (hn ▸ dvd_zero 10))
      omega
    refine ⟨by rintro ⟨⟩, fun _ => .inl ⟨?_, rfl⟩⟩
    show Numeral.isPositional ⟨negative, n * 10 ^ k, 0⟩ = true
    rw [Numeral.isPositional, hmagnitude]
    exact hpositional
  · next hkeep =>
    rw [Bool.and_eq_true, decide_eq_true_iff, not_and, not_le] at hkeep
    refine ⟨by rintro ⟨⟩, fun _ => .inr ⟨hlast.resolve_left ?_, hkeep⟩⟩
    rintro ⟨rfl, rfl⟩
    exact absurd (hkeep (by cases negative <;> decide)) (lt_irrefl 0)

theorem printable_ofSingle (x : Float32) : (ofSingle x).Printable := by
  rw [ofSingle, Decimal.shortest?]
  cases hd : Decimal.ofSingle? x with
  | none => exact .null
  | some d => exact .number _ (settled_ofDecimal (Decimal.shortest_shorten hd))

example : (ofSingle 33.3).print = "33.3" ∧ (ofSingle 100.0).print = "100.0" ∧
    (ofSingle 1e-7).print = "1e-7" := by
  decide +kernel

theorem depth_ofSingle (x : Float32) : (ofSingle x).depth = 0 := by
  rw [ofSingle]
  cases Decimal.shortest? x <;> rfl

theorem readable_ofSingle {x : Float32} (h : Kept true x) : (ofSingle x).readable := by
  rw [Kept] at h
  cases hj : ofSingle x with
  | number n =>
    rw [hj] at h
    exact Option.isSome_of_mem h
  | _ =>
    rw [hj] at h
    cases h

/-! ## 2. Containers -/

/-- An array is deeper than any of its items. -/
theorem depth_lt_of_mem_items {items : List Json} {j : Json} (h : j ∈ items) :
    j.depth < (array items).depth := by
  rw [depth, Nat.lt_add_one_iff]
  induction h with
  | head => exact le_max_left _ _
  | tail _ _ ih => exact ih.trans (le_max_right _ _)

theorem depth_lt_of_mem_fields {fields : List (String × Json)} {f : String × Json}
    (h : f ∈ fields) : f.2.depth < (object fields).depth := by
  rw [depth, Nat.lt_add_one_iff]
  induction h with
  | head => exact le_max_left _ _
  | tail _ _ ih => exact ih.trans (le_max_right _ _)

theorem optional?_ofOption {α : Type} {read : Json → Option α} {write : α → Json}
    (hnull : ∀ x, write x ≠ .null) {o : Option α} (h : ∀ x ∈ o, read (write x) = some x) :
    optional? read (some (ofOption write o)) = some o := by
  cases o with
  | none => rfl
  | some x =>
    have hx := h x rfl
    rw [ofOption]
    cases hwrite : write x with
    | null => exact absurd hwrite (hnull x)
    | _ =>
      rw [hwrite] at hx
      rw [optional?, hx]
      · rfl
      · rintro ⟨⟩

/-- A list of which each element reads back reads back as a whole. -/
theorem mapM_map {α : Type} {read : Json → Option α} {write : α → Json} {xs : List α}
    (h : ∀ x ∈ xs, read (write x) = some x) : (xs.map write).mapM read = some xs := by
  induction xs with
  | nil => rfl
  | cons x xs ih =>
    rw [List.forall_mem_cons] at h
    rw [List.map_cons, List.mapM_cons, h.1, ih h.2]
    rfl

/-- A property that a value has if what it is made of has it. -/
structure Inherited (P : Json → Prop) : Prop where
  null : P null
  bool (b : Bool) : P (bool b)
  word {n : Nat} (h : n < UInt64.size) : P (number (.ofNat n))
  string (s : String) : P (string s)
  array {items : List Json} (h : ∀ j ∈ items, P j) : P (array items)
  object {fields : List (String × Json)} (h : ∀ f ∈ fields, P f.2) : P (object fields)

theorem inherited_printable : Inherited Printable where
  null := .null
  bool := .bool
  word _ := .number _ (settled_ofNat _)
  string := .string
  array := .array _
  object := .object _

theorem inherited_readable : Inherited (fun j => j.readable) where
  null := rfl
  bool _ := rfl
  word h := by simp [readable, Numeral.single?, Numeral.ofNat, h]
  string _ := rfl
  array {items} h := by
    show readableItems items
    induction items with
    | nil => rfl
    | cons j js ih =>
      rw [List.forall_mem_cons] at h
      rw [readableItems, h.1, ih h.2]
      rfl
  object {fields} h := by
    show readableFields fields
    induction fields with
    | nil => rfl
    | cons f fs ih =>
      rw [List.forall_mem_cons] at h
      rw [readableFields, h.1, ih h.2]
      rfl

variable {P : Json → Prop}

theorem Inherited.id (hP : Inherited P) (id : NodeId) : P id.toJson :=
  hP.word id.raw.toNat_lt

theorem Inherited.ofOption (hP : Inherited P) {α : Type} (write : α → Json) {o : Option α}
    (h : ∀ x ∈ o, P (write x)) : P (ofOption write o) := by
  cases o with
  | none => exact hP.null
  | some x => exact h x rfl

end Json

/-! ## 3. Nodes -/

theorem NodeId.ofJson?_toJson (id : NodeId) : NodeId.ofJson? id.toJson = some id := by
  rw [NodeId.toJson, NodeId.ofJson?, Json.word?_ofWord]
  rfl

theorem Orientation.ofName?_name (o : Orientation) : Orientation.ofName? o.name = some o := by
  cases o <;> rfl

theorem DropZone.ofName?_name (zone : DropZone) : DropZone.ofName? zone.name = some zone := by
  cases zone <;> rfl

/-- The fields of a header read back to it, whatever the content says. -/
theorem Header.ofFields?_toJson (h : Header) {held : Bool} (hsize : Json.Kept held h.size)
    (content : Json) :
    Header.ofFields? held
      [("id", h.id.toJson), ("content", content), ("flex_direction", .string h.orientation.name),
        ("size", .ofSingle h.size), ("visible", .bool h.visible)] = some h := by
  rw [Json.Kept] at hsize
  simp [Header.ofFields?, List.lookup, NodeId.ofJson?_toJson, Json.choice?,
    Orientation.ofName?_name, hsize, Json.bool?]

theorem Header.record?_toJson (h : Header) (content : Json) :
    (h.toJson content).record? ["id", "content", "flex_direction", "size", "visible"] = some
      [("id", h.id.toJson), ("content", content), ("flex_direction", .string h.orientation.name),
        ("size", .ofSingle h.size), ("visible", .bool h.visible)] :=
  rfl

theorem Header.depth_toJson (h : Header) (content : Json) :
    (h.toJson content).depth = content.depth + 1 := by
  simp [Header.toJson, Json.depth, Json.depthOfFields, NodeId.toJson, Json.ofWord,
    Json.depth_ofSingle]

theorem Header.inherited_toJson {P : Json → Prop} (hP : Json.Inherited P) {h : Header}
    (hsize : P (.ofSingle h.size)) {content : Json} (hcontent : P content) :
    P (h.toJson content) := by
  refine hP.object ?_
  simp only [List.forall_mem_cons]
  exact ⟨hP.id h.id, hcontent, hP.string _, hsize, hP.bool _, List.forall_mem_nil _⟩

mutual

/-- A saved node is as deep as the node is nested. -/
theorem Node.depth_toJson : ∀ n : Node String, n.toJson.depth = n.nesting
  | .leaf h datum => by
      rw [Node.toJson, h.depth_toJson]
      rfl
  | .branch h cs => by
      rw [Node.toJson, h.depth_toJson, Node.nesting]
      simp [Json.depth, Json.depthOfFields, Forest.depthOfItems_toJson cs]

theorem Forest.depthOfItems_toJson :
    ∀ cs : Forest String, Json.depthOfItems (Forest.toJson cs) = Forest.nesting cs
  | [] => rfl
  | c :: cs => by
      rw [Forest.toJson, Forest.nesting, Json.depthOfItems, c.depth_toJson,
        Forest.depthOfItems_toJson cs]

end

mutual

/-- What every part of a value inherits holds of a saved node once it holds of the sizes. -/
theorem Node.inherited_toJson {P : Json → Prop} (hP : Json.Inherited P) : ∀ n : Node String,
    (∀ m ∈ n.nodes, P (.ofSingle m.size)) → P n.toJson
  | .leaf h datum, hsize => by
      rw [Node.nodes, List.forall_mem_singleton] at hsize
      have hcontent : P (.object [("leaf", .string datum)]) :=
        hP.object (List.forall_mem_singleton.mpr (hP.string datum))
      exact Header.inherited_toJson hP hsize hcontent
  | .branch h cs, hsize => by
      rw [Node.nodes, List.forall_mem_cons] at hsize
      have hitems := hP.array (Forest.inherited_toJson hP cs hsize.2)
      exact Header.inherited_toJson hP hsize.1 (hP.object (List.forall_mem_singleton.mpr hitems))

theorem Forest.inherited_toJson {P : Json → Prop} (hP : Json.Inherited P) : ∀ cs : Forest String,
    (∀ m ∈ Forest.nodes cs, P (.ofSingle m.size)) → ∀ j ∈ Forest.toJson cs, P j
  | [], _ => List.forall_mem_nil _
  | c :: cs, hsize => by
      rw [Forest.nodes, List.forall_mem_append] at hsize
      rw [Forest.toJson, List.forall_mem_cons]
      exact ⟨c.inherited_toJson hP hsize.1, Forest.inherited_toJson hP cs hsize.2⟩

end

mutual

/-- A node reads back from what it saves to when its nesting is within the levels and its sizes are
kept. -/
theorem Node.read?_toJson {held : Bool} :
    ∀ (n : Node String) {levels : Nat}, n.nesting ≤ levels →
      (∀ m ∈ n.nodes, Json.Kept held m.size) → Node.read? held levels n.toJson = some n
  | .leaf h datum, levels, hlevels, hsize => by
      rw [Node.nodes, List.forall_mem_singleton] at hsize
      have hh := h.ofFields?_toJson hsize (.object [("leaf", .string datum)])
      obtain ⟨levels, rfl⟩ : ∃ k, levels = k + 1 := Nat.exists_eq_add_of_le' (by
        rw [Node.nesting] at hlevels
        omega)
      rw [Node.read?, Node.toJson, h.record?_toJson]
      simp [hh, List.lookup, Json.variant?, Json.string?]
  | .branch h cs, levels, hlevels, hsize => by
      rw [Node.nodes, List.forall_mem_cons] at hsize
      have hh := h.ofFields?_toJson hsize.1
        (.object [("children", .array (Forest.toJson cs))])
      obtain ⟨levels, rfl⟩ : ∃ k, levels = k + 1 := Nat.exists_eq_add_of_le' (by
        rw [Node.nesting] at hlevels
        omega)
      have hcs : Forest.nesting cs ≤ levels := by
        rw [Node.nesting] at hlevels
        omega
      rw [Node.read?, Node.toJson, h.record?_toJson]
      simp [hh, List.lookup, Json.variant?, Json.items?,
        Forest.mapM_read?_toJson cs hcs hsize.2]

theorem Forest.mapM_read?_toJson {held : Bool} :
    ∀ (cs : Forest String) {levels : Nat}, Forest.nesting cs ≤ levels →
      (∀ m ∈ Forest.nodes cs, Json.Kept held m.size) →
      (Forest.toJson cs).mapM (Node.read? held levels) = some cs
  | [], _, _, _ => rfl
  | c :: cs, levels, hlevels, hsize => by
      rw [Forest.nesting, max_le_iff] at hlevels
      rw [Forest.nodes, List.forall_mem_append] at hsize
      rw [Forest.toJson, List.mapM_cons, c.read?_toJson hlevels.1 hsize.1,
        Forest.mapM_read?_toJson cs hlevels.2 hsize.2]
      rfl

end

theorem Node.ofJson?_toJson {held : Bool} {n : Node String} {allowance : Nat}
    (hdepth : n.nesting ≤ allowance) (hsize : ∀ m ∈ n.nodes, Json.Kept held m.size) :
    Node.ofJson? held allowance n.toJson = some n := by
  rw [Node.ofJson?, n.read?_toJson hdepth hsize]
  simp [hdepth]

end Tiling
