import Tiling.Proofs.Swap
import Tiling.Proofs.UpToSizes

/-!
# Giving nodes new shares

A list of new shares writes the last one that it has for each node, and balancing then normalizes
each sibling group. In a balanced tree the groups without a named member are normalized already and
stay as they are. What the list says before the last share of a node leaves no trace.
-/

namespace Tiling

variable {α : Type}

open Node Context

/-! ## 1. The last share for a node -/

namespace Resize

def last? (shares : List Resize) (id : NodeId) : Option Float32 :=
  (shares.reverse.find? fun r => r.node = id).map size

theorem last?_singleton (r : Resize) (id : NodeId) :
    last? [r] id = if r.node = id then some r.size else none := by
  rw [last?, List.reverse_singleton, List.find?_singleton]
  by_cases hid : r.node = id <;> simp [hid]

theorem last?_cons (r : Resize) (shares : List Resize) (id : NodeId) :
    last? (r :: shares) id = (last? shares id).or (last? [r] id) := by
  rw [last?, List.reverse_cons, List.find?_append, Option.map_or]
  rfl

/-- A node is given no size exactly when it is not named. -/
theorem last?_eq_none {shares : List Resize} {id : NodeId} :
    last? shares id = none ↔ id ∉ shares.map node := by
  simp [last?, List.find?_eq_none]

end Resize

namespace Header

def given (shares : List Resize) (h : Header) : Header :=
  { h with size := (Resize.last? shares h.id).getD h.size }

theorem id_given (shares : List Resize) (h : Header) : (h.given shares).id = h.id := rfl

theorem given_eq_self {shares : List Resize} {h : Header} (hid : h.id ∉ shares.map Resize.node) :
    h.given shares = h := by
  rw [given, Resize.last?_eq_none.mpr hid, Option.getD_none]

theorem given_singleton_eq_self {r : Resize} {h : Header} (hid : h.id ≠ r.node) :
    h.given [r] = h :=
  given_eq_self (mt List.mem_singleton.mp hid)

theorem given_cons (r : Resize) (shares : List Resize) :
    given (r :: shares) = given shares ∘ given [r] := by
  funext h
  rw [given, Resize.last?_cons, Option.getD_or]
  rfl

end Header

/-! ## 2. Writing the shares -/

/-- A change that spares the headers around the hole is one of the node in the hole. -/
theorem Context.mapHeaders_plug {f : Header → Header} {c : Context α}
    (h : ∀ hd : Header, hd.id ∈ idsBefore c ++ idsAfter c → f hd = hd) (m : Node α) :
    (plug c m).mapHeaders f = plug c (m.mapHeaders f) := by
  induction c with
  | nil => rfl
  | cons g c ih =>
    have hsiblings : ∀ ks : Forest α,
        (∀ id ∈ ks.flatMap Node.ids, id ∈ idsBefore (g :: c) ++ idsAfter (g :: c)) →
        ks.map (Node.mapHeaders f) = ks := by
      intro ks hks
      refine (List.map_congr_left fun k hk => ?_).trans (List.map_id' ks)
      refine mapHeaders_eq_self fun m hm => h m.header (hks _ ?_)
      exact List.mem_flatMap.mpr ⟨k, hk, id_mem_of_mem_nodes hm⟩
    have htop : f g.header = g.header := h g.header (by simp [idsBefore])
    have hbelow := ih fun hd hin => h hd (by
      rw [List.mem_append] at hin
      rcases hin with hin | hin <;> simp [idsBefore, idsAfter, hin])
    simp only [plug_cons, Frame.fill, mapHeaders_branch, List.map_append, List.map_cons, htop,
      hbelow]
    rw [hsiblings g.before (by intro id hin; simp [idsBefore, List.mem_flatMap.mp hin]),
      hsiblings g.after (by intro id hin; simp [idsAfter, List.mem_flatMap.mp hin])]

namespace Node

/-- A node ends with the size last given to it, or keeps its own. -/
theorem size_mapHeaders_given (shares : List Resize) (n : Node α) :
    (n.mapHeaders (Header.given shares)).size = (Resize.last? shares n.id).getD n.size := by
  rw [size, header_mapHeaders]
  rfl

theorem mapHeaders_given_singleton {n : Node α} (hd : n.ids.Nodup) (size : Float32) :
    n.mapHeaders (Header.given [⟨n.id, size⟩]) = n.withSize size := by
  have hlast : Resize.last? [⟨n.id, size⟩] n.header.id = some size :=
    (Resize.last?_singleton _ _).trans (if_pos rfl)
  have htop : n.header.given [⟨n.id, size⟩] = { n.header with size } := by
    simp only [Header.given, hlast, Option.getD_some]
  cases n with
  | leaf h d => exact congrArg (leaf · d) htop
  | branch h cs =>
    rw [ids_branch, List.nodup_cons] at hd
    rw [mapHeaders_branch]
    refine congrArg₂ branch htop ((List.map_congr_left fun c hc => ?_).trans (List.map_id' cs))
    -- no node below has the identifier
    refine mapHeaders_eq_self fun m hm => Header.given_singleton_eq_self fun hid => hd.1 ?_
    have hmem : h.id ∈ c.ids := mem_ids.mpr ⟨m, hm, hid⟩
    exact List.mem_flatMap.mpr ⟨c, hc, hmem⟩

/-- Without repetitions, resizing one node rewrites the header with its id. -/
theorem resized_eq {n : Node α} (hd : n.ids.Nodup) (r : Resize) :
    n.resized r = n.mapHeaders (Header.given [r]) := by
  obtain ⟨id, size⟩ := r
  rcases n.resized_cases ⟨id, size⟩ with ⟨hnot, hsame⟩ | ⟨c, m, rfl, rfl, hplug⟩
  · rw [hsame]
    refine (mapHeaders_eq_self fun m hm => Header.given_singleton_eq_self fun hid => hnot ?_).symm
    exact mem_ids.mpr ⟨m, hm, hid⟩
  · have hm : m.ids.Nodup := nodup_ids_of_mem_nodes hd (mem_nodes_plug c m)
    rw [hplug, mapHeaders_plug, mapHeaders_given_singleton hm]
    -- the identifier does not occur around the hole
    intro hdr hin
    refine Header.given_singleton_eq_self fun hid => ?_
    rw [hid, List.mem_append] at hin
    rw [ids_plug, List.nodup_append, List.nodup_append] at hd
    obtain ⟨⟨-, -, hbefore⟩, -, hafter⟩ := hd
    rcases hin with hin | hin
    · exact hbefore _ hin _ (id_mem_ids m) rfl
    · exact hafter _ (List.mem_append_right _ (id_mem_ids m)) _ hin rfl

/-- Of all shares that are written the last one for each node remains. -/
theorem foldl_resized_eq {n : Node α} (hd : n.ids.Nodup) (shares : List Resize) :
    shares.foldl resized n = n.mapHeaders (Header.given shares) := by
  induction shares generalizing n with
  | nil => exact (mapHeaders_eq_self fun m _ => Header.given_eq_self List.not_mem_nil).symm
  | cons r shares ih =>
    have hids : (n.mapHeaders (Header.given [r])).ids = n.ids :=
      ids_mapHeaders (Header.id_given [r]) n
    rw [List.foldl_cons, resized_eq hd, ih (hids ▸ hd), mapHeaders_mapHeaders,
      Header.given_cons r shares]

/-! ## 3. Balancing the tree with its new shares -/

theorem exists_getElem?_of_map_eq {β γ : Type} {l l' : List β} {f : β → γ}
    (h : l.map f = l'.map f) {i : Nat} {x : β} (hx : l[i]? = some x) :
    ∃ y, l'[i]? = some y ∧ f y = f x := by
  rw [← Option.map_eq_some_iff, ← List.getElem?_map, ← h, List.getElem?_map, hx, Option.map_some]

/-- `m` is `n` with the last shares given, normalized in each sibling group. -/
structure Reshared (shares : List Resize) (n m : Node α) : Prop where
  sizeless_eq : m.sizeless = n.sizeless
  size_eq : m.size = (Resize.last? shares n.id).getD n.size
  groups_eq : m.groups = n.nodes.map fun p =>
    Share.normalize (p.children.map fun c => (Resize.last? shares c.id).getD c.size)

theorem NormalForm.mapHeaders {f : Header → Header} {n : Node α} (h : n.NormalForm)
    (hf : ∀ hd, (f hd).orientation = hd.orientation) : (n.mapHeaders f).NormalForm := by
  have hturned : ∀ m : Node α, (m.mapHeaders f).orientation = m.orientation := fun m => by
    rw [orientation, header_mapHeaders, hf, orientation]
  constructor
  · rw [Forked, nodes_mapHeaders, List.forall_mem_map]
    intro m hm
    rw [isLeaf_mapHeaders, children_mapHeaders, List.length_map]
    exact h.forked m hm
  · rw [Alternating, nodes_mapHeaders, List.forall_mem_map]
    intro m hm
    rw [children_mapHeaders, List.forall_mem_map]
    intro c hc
    rw [hturned, hturned]
    exact h.alternating m hm c hc

/-- Resizing a tree in normal form and balancing it keeps its shape: each group is what normalizing
makes of the shares last given in it. -/
theorem NormalForm.exists_reshared {n : Node α} (h : n.NormalForm) (hd : n.ids.Nodup)
    (shares : List Resize) :
    ∃ m, (shares.foldl resized n).balance? = some m ∧ n.Reshared shares m := by
  rw [foldl_resized_eq hd]
  obtain ⟨m, hm, hsizeless, hsize, hgroups⟩ :=
    (h.mapHeaders (f := Header.given shares) fun _ => rfl).balance?
  refine ⟨m, hm, ?_, ?_, ?_⟩
  · rw [hsizeless, sizeless, mapHeaders_mapHeaders]
    rfl
  · rw [hsize, size_mapHeaders_given]
  · rw [hgroups, groups, nodes_mapHeaders, List.map_map, List.map_map]
    refine List.map_congr_left fun p _ => ?_
    simp only [Function.comp_def, children_mapHeaders, List.map_map, size_mapHeaders_given]

namespace Reshared

variable {shares : List Resize} {n m : Node α}

theorem ids_eq (h : n.Reshared shares m) : m.ids = n.ids := by
  rw [← ids_sizeless, h.sizeless_eq, ids_sizeless]

/-- The nodes at one position of both trees differ in sizes, and below them one group is what
normalizing makes of the other with its last shares. -/
theorem exists_source (h : n.Reshared shares m) {p' : Node α} (hp' : p' ∈ m.nodes) :
    ∃ p ∈ n.nodes, p'.sizeless = p.sizeless ∧ p'.children.map size =
      Share.normalize (p.children.map fun c => (Resize.last? shares c.id).getD c.size) := by
  have hsizeless : m.nodes.map sizeless = n.nodes.map sizeless := by
    have hnodes := congrArg nodes h.sizeless_eq
    rwa [sizeless, sizeless, nodes_mapHeaders, nodes_mapHeaders] at hnodes
  obtain ⟨i, hi⟩ := List.getElem?_of_mem hp'
  obtain ⟨p, hp, heq⟩ := exists_getElem?_of_map_eq hsizeless hi
  have hgroup := congrArg (·[i]?) h.groups_eq
  rw [groups, List.getElem?_map, List.getElem?_map, hi, hp, Option.map_some, Option.map_some,
    Option.some.injEq] at hgroup
  exact ⟨p, List.mem_of_getElem? hp, heq.symm, hgroup⟩

section

variable {k k' : Node α} (hn : n.Balanced) (hd : n.ids.Nodup) (hk : k ∈ n.nodes)
  (hid : k'.id = k.id) (hunnamed : ∀ p ∈ n.nodes, k ∈ p.children →
    ∀ c ∈ p.children, c.id ∉ shares.map Resize.node)

include hn hd hk hid hunnamed

/-- A child in a group without a named member keeps its size. -/
theorem size_child (h : n.Reshared shares m) {p' : Node α} (hp' : p' ∈ m.nodes)
    (hk' : k' ∈ p'.children) : k'.size = k.size := by
  obtain ⟨p, hp, hsizeless, hsizes⟩ := h.exists_source hp'
  have hids : p'.children.map id = p.children.map id := by
    have hchildren := congrArg (fun t => t.children.map id) hsizeless
    simpa [Function.comp_def] using hchildren
  -- the child at the same position is the node itself
  obtain ⟨i, hi⟩ := List.getElem?_of_mem hk'
  obtain ⟨c, hc, hcid⟩ := exists_getElem?_of_map_eq hids hi
  have hcp : c ∈ p.children := List.mem_of_getElem? hc
  obtain rfl : c = k := eq_of_id_eq hd (mem_nodes_trans (mem_nodes_of_mem_children hcp) hp) hk
    (hcid.trans hid)
  -- its group was normalized before, and nothing new is given in it
  have hgiven : p.children.map (fun c => (Resize.last? shares c.id).getD c.size) =
      p.children.map size := List.map_congr_left fun b hb => by
    rw [Resize.last?_eq_none.mpr (hunnamed p hp hcp b hb), Option.getD_none]
  have hkept : p'.children.map size = p.children.map size := by
    rw [hsizes, hgiven]
    exact (hn p hp).normalized
  obtain ⟨b, hb, hsize⟩ := exists_getElem?_of_map_eq hkept hi
  obtain rfl : b = c := Option.some.inj (hb.symm.trans hc)
  exact hsize.symm

/-- A node keeps its size when no member of its group is named. -/
theorem size_eq_of_unnamed (h : n.Reshared shares m) (hk' : k' ∈ m.nodes)
    (hself : k.id ∉ shares.map Resize.node) : k'.size = k.size := by
  obtain ⟨c, hplug⟩ := exists_plug_of_mem_nodes hk'
  rcases List.eq_nil_or_concat c with rfl | ⟨c, f, rfl⟩
  · -- the root is in no group
    obtain rfl : m = k' := hplug
    have hroot : m.id = n.id := by rw [← id_sizeless, h.sizeless_eq, id_sizeless]
    obtain rfl := eq_of_id_eq hd hk (self_mem_nodes n) (hid.symm.trans hroot)
    rw [h.size_eq, Resize.last?_eq_none.mpr hself, Option.getD_none]
  · rw [List.concat_eq_append, plug_append] at hplug
    exact size_child hn hd hk hid hunnamed h (hplug ▸ mem_nodes_plug c _) (mem_children_fill f k')

end

end Reshared

end Node

/-! ## 4. The action -/

namespace State

theorem step_resize {s : State α} {root : Node α} {shares : List Resize}
    (hroot : s.root = some root) (haccepted : (s.step (.resize shares)).2 = none) :
    s.step (.resize shares) =
      ({ s with root := some (shares.foldl Node.resized root) }.settle, none) := by
  obtain ⟨r, hr, -⟩ := perform_edit rfl (step_accepted haccepted)
  obtain ⟨n, hn, h⟩ := bind_eq_ok hr
  obtain ⟨-, -, h⟩ := bind_eq_ok h
  obtain rfl : root = n := Option.some.inj (hroot.symm.trans (rootOf_eq_ok hn))
  cases h
  exact step_of_edit rfl hr

end State

/-- Where the tree is balanced, accepted new shares change nothing in it but sizes, and only the
sizes of nodes that are named or have a named sibling: the root gets the last share given for it.
The focus, the magnification and the supply stay. Lists with the same last share for each node lead
to the same state. -/
theorem resizing_keeps_unnamed_groups (s : State α) (root : Node α) (shares : List Resize)
    (hs : Reachable s) (hroot : s.root = some root) (hd : root.ids.Nodup)
    (hbalance : root.balance? = some root) (haccepted : (s.step (.resize shares)).2 = none) :
    (∃ root', root'.sizeless = root.sizeless ∧
      s.step (.resize shares) = ({ s with
        root := some root', leaves := root'.leaves
        staged := none, generation := s.generation + 1 }, none) ∧
      root'.size = (Resize.last? shares root.id).getD root.size ∧
      ∀ k ∈ root.nodes, ∀ k' ∈ root'.nodes, k'.id = k.id → k'.size ≠ k.size →
        k.id ∈ shares.map Resize.node ∨
          ∃ p ∈ root.nodes, k ∈ p.children ∧ ∃ c ∈ p.children, c.id ∈ shares.map Resize.node) ∧
    ∀ shares', (s.step (.resize shares')).2 = none →
      (∀ id, Resize.last? shares' id = Resize.last? shares id) →
      s.step (.resize shares') = s.step (.resize shares) := by
  have hbalanced := (Node.balance?_eq_self_iff root).mp hbalance
  refine ⟨?_, fun shares' haccepted' hlast => ?_⟩
  · obtain ⟨root', hroot', hreshared⟩ :=
      (Node.balance?_normalForm hbalance).exists_reshared hd shares
    have hanchored := hs.anchored.of_perm hroot (.of_eq hreshared.ids_eq)
    have hsettle := State.settle_of_balance?
      (s := { s with root := some (shares.foldl resized root) }) rfl hroot' hanchored
    refine ⟨root', hreshared.sizeless_eq, ?_, hreshared.size_eq, fun k hk k' hk' hid hsize => ?_⟩
    · rw [State.step_resize hroot haccepted, hsettle]
    · refine or_iff_not_imp_left.mpr fun hself => ?_
      by_contra hnone
      have hunnamed : ∀ p ∈ root.nodes, k ∈ p.children →
          ∀ c ∈ p.children, c.id ∉ shares.map Resize.node :=
        fun p hp hkp c hc hmem => hnone ⟨p, hp, hkp, c, hc, hmem⟩
      exact hsize (Reshared.size_eq_of_unnamed hbalanced hd hk hid hunnamed hreshared hk' hself)
  · have hgiven : Header.given shares' = Header.given shares := by
      funext h
      rw [Header.given, Header.given, hlast]
    rw [State.step_resize hroot haccepted', State.step_resize hroot haccepted,
      foldl_resized_eq hd, foldl_resized_eq hd, hgiven]

/-- Two panes of a column get new shares, one of them twice and the other one first or last. The row
around the column stays. -/
theorem column_resized_in_either_order :
    ∃ (s : State Unit) (root : Node Unit), Reachable s ∧ s.root = some root ∧ root.ids.Nodup ∧
      root.balance? = some root ∧ root.groups = [[30, 70], [], [40, 60], [], []] ∧
      (s.step (.resize [⟨⟨4⟩, 7⟩, ⟨⟨5⟩, 50⟩, ⟨⟨4⟩, 150⟩])).2 = none ∧
      (s.step (.resize [⟨⟨4⟩, 150⟩, ⟨⟨5⟩, 50⟩])).2 = none ∧
      (s.step (.resize [⟨⟨4⟩, 7⟩, ⟨⟨5⟩, 50⟩, ⟨⟨4⟩, 150⟩])).1.root.map Node.groups =
        some [[30, 70], [], [75, 25], [], []] ∧
      s.step (.resize [⟨⟨4⟩, 150⟩, ⟨⟨5⟩, 50⟩]) =
        s.step (.resize [⟨⟨4⟩, 7⟩, ⟨⟨5⟩, 50⟩, ⟨⟨4⟩, 150⟩]) := by
  let pane (n : UInt64) (orientation : Orientation) (size : Float32) : Node Unit :=
    .leaf { id := ⟨n⟩, orientation, size } ()
  let column : Node Unit :=
    .branch { id := ⟨3⟩, orientation := .column, size := 70 } [pane 4 .row 40, pane 5 .row 60]
  let root : Node Unit := .branch { id := ⟨1⟩ } [pane 2 .column 30, column]
  let s := State.ofRoot root
  have hbalance : root.balance? = some root :=
    (Node.balance?_eq_self_iff root).mpr (by decide +kernel)
  have hs : Reachable s := .ofRoot root
  have hroot : s.root = some root := hbalance
  have hd : root.ids.Nodup := by decide +kernel
  have hthree : (s.step (.resize [⟨⟨4⟩, 7⟩, ⟨⟨5⟩, 50⟩, ⟨⟨4⟩, 150⟩])).2 = none := by decide +kernel
  have htwo : (s.step (.resize [⟨⟨4⟩, 150⟩, ⟨⟨5⟩, 50⟩])).2 = none := by decide +kernel
  have hlast : ∀ id, Resize.last? [⟨⟨4⟩, 150⟩, ⟨⟨5⟩, 50⟩] id =
      Resize.last? [⟨⟨4⟩, 7⟩, ⟨⟨5⟩, 50⟩, ⟨⟨4⟩, 150⟩] id := by
    intro id
    by_cases hfour : (⟨4⟩ : NodeId) = id
    · have hfive : (⟨5⟩ : NodeId) ≠ id := hfour ▸ by decide
      simp [Resize.last?, hfour, hfive]
    · by_cases hfive : (⟨5⟩ : NodeId) = id <;> simp [Resize.last?, hfour, hfive]
  refine ⟨s, root, hs, hroot, hd, hbalance, rfl, hthree, htwo, by decide +kernel, ?_⟩
  exact (resizing_keeps_unnamed_groups s root _ hs hroot hd hbalance hthree).2 _ htwo hlast

end Tiling
