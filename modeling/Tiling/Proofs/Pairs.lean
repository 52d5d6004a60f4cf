import Tiling.Proofs.Loans

/-!
# Pairs of places

The nodes at two paths of a tree are found together unless one path begins the other. To exchange
them whole puts each where the other was. Beside the two places the tree stays as it is, and the
branches above them stay as they are but for what lies below.
-/

namespace Tiling

variable {α : Type}

namespace Node

/-- The two nodes are alike but for what lies below them. -/
structure SameTop (n m : Node α) : Prop where
  header_eq : m.header = n.header
  datum?_eq : m.datum? = n.datum?
  length_eq : m.children.length = n.children.length

/-! ## 1. Above the place of an edit -/

/-- There is a node at each step of a path that leads to one. -/
theorem exists_at?_above {n m : Node α} {p r : Path} (hm : n.at? p = some m) (h : r <+: p) :
    ∃ k, n.at? r = some k := by
  obtain ⟨u, rfl⟩ := h
  rw [at?_append, Option.bind_eq_some_iff] at hm
  obtain ⟨k, hk, -⟩ := hm
  exact ⟨k, hk⟩

theorem SameTop.refl (n : Node α) : n.SameTop n :=
  ⟨rfl, rfl, rfl⟩

theorem SameTop.trans {n m k : Node α} (h : n.SameTop m) (h' : m.SameTop k) : n.SameTop k :=
  ⟨h'.header_eq.trans h.header_eq, h'.datum?_eq.trans h.datum?_eq,
    h'.length_eq.trans h.length_eq⟩

theorem sameTop_setAt_cons (n new : Node α) (i : Nat) (p : Path) :
    n.SameTop (setAt new (i :: p) n) := by
  cases n with
  | leaf h d => exact .refl _
  | branch h cs => exact ⟨rfl, rfl, List.length_modify _ _ _⟩

/-- What is set below a node is set inside it. -/
theorem at?_setAt_append (n new : Node α) (r u : Path) :
    (setAt new (r ++ u) n).at? r = (n.at? r).map (setAt new u) := by
  induction r generalizing n with
  | nil => rfl
  | cons i r ih =>
    cases n with
    | leaf h d => rfl
    | branch h cs =>
      rw [List.cons_append, setAt, at?_cons, at?_cons, children_branch, children_branch,
        List.getElem?_modify]
      cases cs[i]? with
      | none => rfl
      | some c => simp [ih]

/-- An edit changes no node but the one at its path and those below. -/
theorem exists_sameTop_setAt {p r : Path} (h : ¬p <+: r) {n m : Node α} (hm : n.at? r = some m)
    (new : Node α) : ∃ k, (setAt new p n).at? r = some k ∧ m.SameTop k := by
  by_cases hr : r <+: p
  · obtain ⟨u, rfl⟩ := hr
    rw [at?_setAt_append, hm]
    cases u with
    | nil => simp at h
    | cons i u => exact ⟨_, rfl, sameTop_setAt_cons m new i u⟩
  · rw [at?_setAt (part_iff.mpr (not_or_intro h hr))]
    exact ⟨m, hm, .refl m⟩

/-! ## 2. The exchange -/

/-- Two nodes that stand apart are exchanged by two replacements. -/
theorem Apart.exchange?_eq {n a b : Node α} {p q : Path} (h : n.Apart p q a b) :
    n.exchange? p q = .ok (some (setAt a q (setAt b p n))) := by
  rw [exchange?, pairAt_eq h.part h.at_first h.at_second]
  rfl

/-- A node that is below neither place keeps its own header. -/
theorem exists_sameTop_exchanged {n m : Node α} {p q r : Path} (hp : ¬p <+: r) (hq : ¬q <+: r)
    (hm : n.at? r = some m) (a b : Node α) :
    ∃ k, (setAt a q (setAt b p n)).at? r = some k ∧ m.SameTop k := by
  obtain ⟨c, hc, hmc⟩ := exists_sameTop_setAt hp hm b
  obtain ⟨k, hk, hck⟩ := exists_sameTop_setAt hq hc a
  exact ⟨k, hk, hmc.trans hck⟩

/-- A node above one of two places that part is neither at nor below one of them. -/
theorem Part.above {p q r : Path} (h : Part p q) (hr : r <+: p) (hne : r ≠ p) :
    ¬p <+: r ∧ ¬q <+: r := by
  rw [part_iff, not_or] at h
  exact ⟨fun hp => hne (hr.eq_of_length_le hp.length_le), fun hq => h.2 (hq.trans hr)⟩

/-- Two nodes of a tree are lent as they are found, and exchanged by giving back each for the other.
They are found, in the order of their paths, unless one path begins the other. After the exchange
each is where the other was, what is beside both places is as before, and so is each branch above
them but for what lies below. -/
theorem parted_nodes_are_exchanged (n : Node α) (p q : Path) (a b : Node α)
    (ha : n.at? p = some a) (hb : n.at? q = some b) :
    ((n.lendPair p q).map (Option.map PairLoan.nodes) = n.pairAt p q ∧
      (n.lendPair p q).map (Option.map PairLoan.exchanged) = n.exchange? p q) ∧
    (n.pairAt p q = .ok none ↔ p <+: q ∨ q <+: p) ∧
    (¬(p <+: q ∨ q <+: p) → n.pairAt p q = .ok (some (a, b)) ∧
      ∃ m, n.exchange? p q = .ok (some m) ∧ m.at? p = some b ∧ m.at? q = some a ∧
        (∀ r, ¬p <+: r → ¬q <+: r → ¬r <+: p → ¬r <+: q → m.at? r = n.at? r) ∧
        ∀ r, r <+: p ∧ r ≠ p ∨ r <+: q ∧ r ≠ q →
          ∃ k k', n.at? r = some k ∧ m.at? r = some k' ∧ k.SameTop k') := by
  have hfound : ¬(p <+: q ∨ q <+: p) → n.pairAt p q = .ok (some (a, b)) := fun hpart =>
    pairAt_eq (part_iff.mpr hpart) ha hb
  refine ⟨⟨n.lendPair_nodes p q, n.lendPair_exchanged p q⟩,
    ⟨fun hnone => ?_, fun hprefix => pairAt_eq_none hprefix n⟩, fun hpart => ?_⟩
  · by_contra hpart
    rw [hfound hpart] at hnone
    cases hnone
  · have h : n.Apart p q a b := ⟨part_iff.mpr hpart, ha, hb⟩
    obtain ⟨hfirst, hsecond⟩ := h.at?_setAt_setAt b a
    refine ⟨hfound hpart, _, h.exchange?_eq, hfirst, hsecond, fun r hp hq hrp hrq => ?_,
      fun r hr => ?_⟩
    · rw [at?_setAt (part_iff.mpr (not_or_intro hq hrq)),
        at?_setAt (part_iff.mpr (not_or_intro hp hrp))]
    · have hout : (∃ k, n.at? r = some k) ∧ ¬p <+: r ∧ ¬q <+: r := by
        rcases hr with ⟨hr, hne⟩ | ⟨hr, hne⟩
        · exact ⟨exists_at?_above ha hr, h.part.above hr hne⟩
        · exact ⟨exists_at?_above hb hr, (h.part.symm.above hr hne).symm⟩
      obtain ⟨⟨k, hk⟩, hp, hq⟩ := hout
      obtain ⟨k', hk', hsame⟩ := exists_sameTop_exchanged hp hq hk a b
      exact ⟨k, k', hk, hk', hsame⟩

/-- The last pane of the column trades places with the first pane of the row. -/
theorem last_pane_trades_with_first :
    ∃ root a b m : Node Unit, root.leafIds = [⟨2⟩, ⟨4⟩, ⟨5⟩] ∧
      root.at? [1, 1] = some a ∧ root.at? [0] = some b ∧
      root.pairAt [1, 1] [0] = .ok (some (a, b)) ∧
      (root.lendPair [1, 1] [0]).map (Option.map PairLoan.exchanged) = .ok (some m) ∧
      m.leafIds = [⟨5⟩, ⟨4⟩, ⟨2⟩] ∧ m.at? [1, 0] = root.at? [1, 0] ∧
      ∃ k k', root.at? [1] = some k ∧ m.at? [1] = some k' ∧ k.SameTop k' := by
  let pane (n : UInt64) : Node Unit := .leaf { id := ⟨n⟩ } ()
  let root : Node Unit := .branch { id := ⟨1⟩ }
    [pane 2, .branch { id := ⟨3⟩, orientation := .column } [pane 4, pane 5]]
  obtain ⟨⟨-, hlent⟩, -, hparted⟩ :=
    parted_nodes_are_exchanged root [1, 1] [0] (pane 5) (pane 2) rfl rfl
  obtain ⟨hpair, m, hm, -, -, hbeside, habove⟩ := hparted (by decide)
  have hleaves : m.leafIds = [⟨5⟩, ⟨4⟩, ⟨2⟩] := by
    cases hm
    rfl
  exact ⟨root, pane 5, pane 2, m, rfl, rfl, rfl, hpair, hlent.trans hm, hleaves,
    hbeside [1, 0] (by decide) (by decide) (by decide) (by decide), habove [1] (by decide)⟩

end Node

end Tiling
