import Tiling.Proofs.Exchange

/-!
# Congruences

A relation that goes up from the children of two branches to the branches is a congruence. It
relates a tree to what an edit at one or two places makes of it, as soon as it relates what is
replaced there to what replaces it.
-/

namespace Tiling

variable {α : Type}

/-- In a forest with distinct identifiers a node below one member is not below another. -/
theorem Forest.not_mem_ids_of_ne {cs : Forest α} (hd : (cs.flatMap Node.ids).Nodup) {i j : Nat}
    {c e a m : Node α} (hij : i ≠ j) (hc : cs[i]? = some c) (he : cs[j]? = some e)
    (ha : a ∈ c.nodes) (hm : m ∈ e.nodes) : m.id ∉ a.ids := by
  intro hma
  have hmc : m.id ∈ c.ids := Node.mem_ids_trans hma ha
  have hme : m.id ∈ e.ids := Node.id_mem_of_mem_nodes hm
  obtain ⟨hi, rfl⟩ := List.getElem?_eq_some_iff.mp hc
  obtain ⟨hj, rfl⟩ := List.getElem?_eq_some_iff.mp he
  have hdisjoint := List.pairwise_iff_getElem.mp (List.nodup_flatMap.mp hd).2
  rcases Nat.lt_or_gt_of_ne hij with hlt | hgt
  · exact hdisjoint i j hi hj hlt hmc hme
  · exact hdisjoint j i hj hi hgt hme hmc

namespace Node

/-- Two branches with one header are related when their children are, one by one. -/
def Congruence (R : Node α → Node α → Prop) : Prop :=
  ∀ h cs ds, List.Forall₂ R cs ds → R (branch h cs) (branch h ds)

namespace Congruence

variable {R : Node α → Node α → Prop} (hR : Congruence R)

include hR

/-- A tree is related to itself when its leaves are. -/
theorem refl {n : Node α} (h : ∀ m ∈ n.nodes, m.isLeaf → R m m) : R n n := by
  induction n with
  | leaf hd d => exact h _ (self_mem_nodes _) rfl
  | branch hd cs ih =>
    refine hR hd cs cs (List.forall₂_same.mpr fun c hc => ih c hc fun m hm => ?_)
    exact h m (mem_nodes_trans hm (mem_nodes_of_mem_children hc))

/-- Children may be compared position by position. -/
theorem of_getElem? {h : Header} {cs ds : Forest α} (hlen : cs.length = ds.length)
    (hall : ∀ (i : Nat) (c d : Node α), cs[i]? = some c → ds[i]? = some d → R c d) :
    R (branch h cs) (branch h ds) :=
  hR h cs ds <| List.forall₂_iff_get.mpr ⟨hlen, fun i _ _ =>
    hall i _ _ (List.getElem?_eq_getElem _) (List.getElem?_eq_getElem _)⟩

/-- What fills a hole can be replaced where every node is related to itself. -/
theorem plug (hrefl : ∀ n, R n n) (c : Context α) {m k : Node α} (h : R m k) :
    R (Context.plug c m) (Context.plug c k) := by
  induction c with
  | nil => exact h
  | cons f c ih =>
    have hself : ∀ l : Forest α, List.Forall₂ R l l := fun l =>
      List.forall₂_same.mpr fun n _ => hrefl n
    exact hR _ _ _ (List.rel_append (hself f.before) (.cons ih (hself f.after)))

/-- An edit at one place. The leaves outside have to be related to themselves. -/
theorem setAt {n a a' : Node α} {p : Path} (hd : n.ids.Nodup) (ha : n.at? p = some a)
    (hkept : ∀ m ∈ n.nodes, m.isLeaf → m.id ∉ a.ids → R m m) (hnew : R a a') :
    R n (setAt a' p n) := by
  induction p generalizing n with
  | nil =>
    cases ha
    exact hnew
  | cons i p ih =>
    rw [at?_cons, Option.bind_eq_some_iff] at ha
    obtain ⟨c, hc, ha⟩ := ha
    cases n with
    | leaf hd d => cases hc
    | branch h cs =>
      rw [children_branch] at hc
      rw [ids_branch, List.nodup_cons] at hd
      have hbelow : ∀ e ∈ cs, ∀ m ∈ e.nodes, m ∈ (branch h cs).nodes :=
        fun e he m hm => mem_nodes_trans hm (mem_nodes_of_mem_children he)
      rw [Node.setAt]
      refine hR.of_getElem? (List.length_modify _ _ _).symm fun k e e' he he' => ?_
      have hmem := List.mem_of_getElem? he
      simp only [List.getElem?_modify, he, Option.map_eq_map, Option.map_some,
        Option.some.injEq] at he'
      rw [← he']
      -- the edit goes on below one child and leaves the others alone
      by_cases hik : i = k
      · obtain rfl : c = e := Option.some.inj (hc.symm.trans (hik ▸ he))
        rw [if_pos hik]
        exact ih ((List.nodup_flatMap.mp hd.2).1 c hmem) ha fun m hm => hkept m (hbelow c hmem m hm)
      · rw [if_neg hik]
        refine hR.refl fun m hm hleaf => hkept m (hbelow e hmem m hm) hleaf ?_
        exact Forest.not_mem_ids_of_ne hd.2 hik hc he (mem_nodes_of_at? ha) hm

/-- An edit at two places. -/
theorem setAt_setAt {n a b a' b' : Node α} {p q : Path} (hd : n.ids.Nodup) (h : n.Apart p q a b)
    (hkept : ∀ m ∈ n.nodes, m.isLeaf → m.id ∉ a.ids → m.id ∉ b.ids → R m m) (hnew : R a a')
    (hnew' : R b b') : R n (Node.setAt b' q (Node.setAt a' p n)) := by
  induction p generalizing n q with
  | nil => exact absurd h.part (not_part_nil q)
  | cons i p ih =>
    cases q with
    | nil => exact absurd h.part.symm (not_part_nil _)
    | cons j q =>
      obtain ⟨hpart, ha, hb⟩ := h
      rw [at?_cons, Option.bind_eq_some_iff] at ha hb
      obtain ⟨c, hc, ha⟩ := ha
      obtain ⟨c', hc', hb⟩ := hb
      cases n with
      | leaf hd d => cases hc
      | branch h cs =>
        rw [children_branch] at hc hc'
        rw [ids_branch, List.nodup_cons] at hd
        have hchild : ∀ e ∈ cs, e.ids.Nodup := (List.nodup_flatMap.mp hd.2).1
        have hbelow : ∀ e ∈ cs, ∀ m ∈ e.nodes, m ∈ (branch h cs).nodes :=
          fun e he m hm => mem_nodes_trans hm (mem_nodes_of_mem_children he)
        have houta : ∀ (k : Nat) (e : Node α), i ≠ k → cs[k]? = some e → ∀ m ∈ e.nodes,
            m.id ∉ a.ids := fun k e hik he m hm =>
          Forest.not_mem_ids_of_ne hd.2 hik hc he (mem_nodes_of_at? ha) hm
        have houtb : ∀ (k : Nat) (e : Node α), j ≠ k → cs[k]? = some e → ∀ m ∈ e.nodes,
            m.id ∉ b.ids := fun k e hjk he m hm =>
          Forest.not_mem_ids_of_ne hd.2 hjk hc' he (mem_nodes_of_at? hb) hm
        rw [Node.setAt, Node.setAt]
        refine hR.of_getElem? (by simp) fun k e e' he he' => ?_
        have hmem := List.mem_of_getElem? he
        simp only [List.getElem?_modify, he, Option.map_eq_map, Option.map_some,
          Option.some.injEq] at he'
        rw [← he']
        -- none, one or both of the two places are below the child
        by_cases hik : i = k <;> by_cases hjk : j = k
        · obtain rfl : c = e := Option.some.inj (hc.symm.trans (hik ▸ he))
          obtain rfl : c' = c := Option.some.inj (hc'.symm.trans (hjk ▸ he))
          have hpq : Part p q :=
            (part_cons.mp hpart).resolve_left (not_not_intro (hik.trans hjk.symm))
          rw [if_pos hik, if_pos hjk]
          exact ih (hchild c' hmem) ⟨hpq, ha, hb⟩ fun m hm => hkept m (hbelow c' hmem m hm)
        · obtain rfl : c = e := Option.some.inj (hc.symm.trans (hik ▸ he))
          rw [if_pos hik, if_neg hjk]
          exact hR.setAt (hchild c hmem) ha (fun m hm hleaf hma =>
            hkept m (hbelow c hmem m hm) hleaf hma (houtb k c hjk he m hm)) hnew
        · obtain rfl : c' = e := Option.some.inj (hc'.symm.trans (hjk ▸ he))
          rw [if_neg hik, if_pos hjk]
          exact hR.setAt (hchild c' hmem) hb (fun m hm hleaf =>
            hkept m (hbelow c' hmem m hm) hleaf (houta k c' hik he m hm)) hnew'
        · rw [if_neg hik, if_neg hjk]
          exact hR.refl fun m hm hleaf => hkept m (hbelow e hmem m hm) hleaf
            (houta k e hik he m hm) (houtb k e hjk he m hm)

end Congruence

end Node

end Tiling
