import Tiling.Toml
import Mathlib.Data.List.Basic
import Mathlib.Data.List.Nodup

/-!
# The tables of TOML

A sound table has each name once, so to put a value under a name changes one entry. What a table
says is the list of its values with their keys. Whatever is done to the table at the end of a path
is done to what the whole table says below that path, and to nothing else.
-/

open scoped List

namespace Tiling.Toml

/-! ## 1. Sound tables -/

/-- Whether each name stands once in its table and integers fit into 64 bits, at all levels. -/
inductive Sound : Toml → Prop where
  | text (s : String) : Sound (.text s)
  | integer (n : Int) (h : -0x8000000000000000 ≤ n ∧ n < 0x8000000000000000) : Sound (.integer n)
  | float (x : Float) : Sound (.float x)
  | bool (b : Bool) : Sound (.bool b)
  | moment : Sound .moment
  | array (items : List Toml) (h : ∀ v ∈ items, Sound v) : Sound (.array items)
  | table (origin : Origin) (t : List (String × Toml)) (hnames : (t.map Prod.fst).Nodup)
      (h : ∀ entry ∈ t, Sound entry.2) : Sound (.table origin t)
  | tables (elements : List (List (String × Toml)))
      (hnames : ∀ t ∈ elements, (t.map Prod.fst).Nodup)
      (h : ∀ t ∈ elements, ∀ entry ∈ t, Sound entry.2) : Sound (.tables elements)

structure Table.Sound (t : Table) : Prop where
  names : (t.map Prod.fst).Nodup
  values : ∀ entry ∈ t, entry.2.Sound

theorem sound_table_iff {origin : Origin} {t : Table} : (table origin t).Sound ↔ t.Sound :=
  ⟨fun | .table _ _ hnames h => ⟨hnames, h⟩, fun h => .table _ _ h.names h.values⟩

theorem sound_tables_iff {elements : List Table} :
    (tables elements).Sound ↔ ∀ t ∈ elements, t.Sound :=
  ⟨fun | .tables _ hnames h => fun t ht => ⟨hnames t ht, h t ht⟩,
    fun h => .tables _ (fun t ht => (h t ht).names) fun t ht => (h t ht).values⟩

namespace Table

theorem sound_nil : Sound [] :=
  ⟨List.nodup_nil, List.forall_mem_nil _⟩

variable {t t' : Table} {name : String} {v : Toml}

theorem lookup_eq_none : t.lookup name = none ↔ name ∉ t.map Prod.fst := by
  rw [List.lookup_eq_none_iff]
  simp only [bne_iff_ne, ne_eq, List.mem_map, not_exists, not_and]
  exact forall₂_congr fun entry _ => not_congr eq_comm

/-- The entry of a name with what is before and behind it. To set the name changes the entry only,
as no other one has that name. -/
theorem exists_set (h : t.Sound) {old : Toml} (hold : t.lookup name = some old) :
    ∃ before after : Table, t = before ++ (name, old) :: after ∧
      ∀ v, t.set name v = before ++ (name, v) :: after := by
  obtain ⟨before, after, rfl, hbefore⟩ := List.lookup_eq_some_iff.mp hold
  refine ⟨before, after, rfl, fun v => ?_⟩
  have hnames := h.names
  rw [List.map_append, List.map_cons, List.nodup_middle, List.nodup_cons, List.mem_append,
    not_or] at hnames
  have hkeep : ∀ u : Table, name ∉ u.map Prod.fst →
      (u.map fun entry => if entry.1 = name then (entry.1, v) else entry) = u := by
    intro u hu
    refine (List.map_congr_left fun entry hentry => ?_).trans (List.map_id u)
    exact if_neg fun heq : entry.1 = name => hu (heq ▸ List.mem_map_of_mem hentry)
  rw [set, if_pos (Option.isSome_of_eq_some hold), List.map_append, List.map_cons]
  show (before.map fun entry => if entry.1 = name then (entry.1, v) else entry) ++
    (if name = name then (name, v) else (name, old)) ::
      (after.map fun entry => if entry.1 = name then (entry.1, v) else entry) = _
  rw [hkeep before hnames.1.1, hkeep after hnames.1.2, if_pos rfl]

theorem set_of_lookup_eq_none (h : t.lookup name = none) : t.set name v = t ++ [(name, v)] := by
  rw [set, h]
  rfl

theorem Sound.append (h : t.Sound) (hname : t.lookup name = none) (hv : v.Sound) :
    Sound (t ++ [(name, v)]) := by
  refine ⟨?_, List.forall_mem_append.mpr ⟨h.values, List.forall_mem_singleton.mpr hv⟩⟩
  rw [List.map_append, List.map_singleton, List.nodup_append_comm, List.singleton_append,
    List.nodup_cons]
  exact ⟨lookup_eq_none.mp hname, h.names⟩

/-- Giving a name a sound value keeps a table sound. -/
theorem Sound.set (h : t.Sound) (hv : v.Sound) : (t.set name v).Sound := by
  cases hold : t.lookup name with
  | none =>
    rw [set_of_lookup_eq_none hold]
    exact h.append hold hv
  | some old =>
    obtain ⟨before, after, rfl, hset⟩ := exists_set h hold
    rw [hset]
    have hnames := h.names
    have hvalues := h.values
    rw [List.forall_mem_append, List.forall_mem_cons] at hvalues
    refine ⟨?_, List.forall_mem_append.mpr ⟨hvalues.1, List.forall_mem_cons.mpr
      ⟨hv, hvalues.2.2⟩⟩⟩
    rw [List.map_append, List.map_cons] at hnames ⊢
    exact hnames

theorem Sound.lookup (h : t.Sound) (hlookup : t.lookup name = some v) : v.Sound := by
  obtain ⟨before, after, rfl, -⟩ := List.lookup_eq_some_iff.mp hlookup
  exact h.values (name, v) (by simp)

/-- A change at the end of a path keeps the whole table sound if it keeps that table sound. -/
theorem Sound.alter {way : Origin} {change : Origin → Table → Option Table}
    (hchange : ∀ origin u u', u.Sound → change origin u = some u' → u'.Sound) {path : Key}
    {origin : Origin} (h : t.Sound) (halter : alter way change path origin t = some t') :
    t'.Sound := by
  induction path generalizing origin t t' with
  | nil => exact hchange origin t t' h halter
  | cons name path ih =>
    rw [Table.alter] at halter
    split at halter
    · obtain ⟨sub, hsub, rfl⟩ := Option.map_eq_some_iff.mp halter
      exact h.set (sound_table_iff.mpr (ih sound_nil hsub))
    · next hlookup =>
      split at halter
      · obtain ⟨sub, hsub, rfl⟩ := Option.map_eq_some_iff.mp halter
        exact h.set (sound_table_iff.mpr (ih (sound_table_iff.mp (h.lookup hlookup)) hsub))
      · cases halter
    · next elements hlookup =>
      have helements := sound_tables_iff.mp (h.lookup hlookup)
      split at halter
      · next last hlast =>
        obtain ⟨last', hlast', rfl⟩ := Option.map_eq_some_iff.mp halter
        refine h.set (sound_tables_iff.mpr (List.forall_mem_append.mpr ⟨fun t ht =>
          helements t (List.dropLast_subset _ ht), List.forall_mem_singleton.mpr ?_⟩))
        exact ih (helements last (List.mem_of_getLast? hlast)) hlast'
      · cases halter
    · cases halter

theorem Sound.addNew (h : t.Sound) (hv : v.Sound) (hadd : addNew t name v = some t') :
    t'.Sound := by
  rw [Table.addNew] at hadd
  split at hadd
  · cases hadd
  · next hname =>
    cases hadd
    exact h.append (Option.not_isSome_iff_eq_none.mp hname) hv

/-- An entry that is let in keeps a table sound. -/
theorem Sound.enter {origin : Origin} {key : Key} (h : t.Sound) (hv : v.Sound)
    (henter : t.enter origin key v = some t') : t'.Sound := by
  rw [Table.enter, Option.bind_eq_bind, Option.bind_eq_some_iff] at henter
  obtain ⟨name, -, halter⟩ := henter
  refine h.alter (fun origin u u' hu hchange => ?_) halter
  split at hchange
  · exact hu.addNew hv hchange
  · cases hchange

end Table

/-! ## 2. What a table says -/

def under (path : Key) (said : List (Key × Toml)) : List (Key × Toml) :=
  said.map fun (key, v) => (path ++ key, v)

mutual

/-- The values below this one with their keys from here. A table in braces is one value, as no
other line can add to it. -/
def said : Toml → List (Key × Toml)
  | .table .inline t => [([], .table .inline t)]
  | .table _ t => Table.settings t
  | .tables elements => saidInAll elements
  | v => [([], v)]

def Table.settings : Table → List (Key × Toml)
  | [] => []
  | (name, v) :: t => under [name] v.said ++ Table.settings t

def saidInAll : List Table → List (Key × Toml)
  | [] => []
  | t :: elements => Table.settings t ++ saidInAll elements

end

section
variable {path path' : Key} {l l' : List (Key × Toml)}

@[simp]
theorem under_nil_left : under [] l = l := by
  simp [under]

@[simp]
theorem under_nil : under path [] = [] :=
  rfl

theorem under_append : under path (l ++ l') = under path l ++ under path l' :=
  List.map_append

/-- Settings moved under two paths, one after the other, are moved under the two joined. -/
theorem under_under : under path (under path' l) = under (path ++ path') l := by
  simp [under]

theorem under_perm (h : l ~ l') : under path l ~ under path l' :=
  h.map _

end

theorem saidInAll_append {ts us : List Table} :
    saidInAll (ts ++ us) = saidInAll ts ++ saidInAll us := by
  induction ts with
  | nil => rfl
  | cons t ts ih => rw [List.cons_append, saidInAll, saidInAll, ih, List.append_assoc]

namespace Table

variable {t t' : Table} {name : String} {v : Toml}

theorem settings_append {t u : Table} : settings (t ++ u) = t.settings ++ u.settings := by
  induction t with
  | nil => rfl
  | cons entry t ih =>
    obtain ⟨name, v⟩ := entry
    rw [List.cons_append, settings, settings, ih, List.append_assoc]

theorem settings_singleton : settings [(name, v)] = under [name] v.said := by
  rw [settings, settings, List.append_nil]

/-- A table that is not inline says its settings. -/
theorem said_table {origin : Origin} (h : origin ≠ .inline) :
    (table origin t).said = t.settings := by
  cases origin <;> first | rfl | contradiction

def saidAt (found : Option Toml) : List (Key × Toml) :=
  found.elim [] said

/-- A value under a name says what it says, whatever the other entries are. -/
theorem exists_settings_set (h : t.Sound) (name : String) : ∃ rest,
    t.settings ~ under [name] (saidAt (t.lookup name)) ++ rest ∧
      ∀ v, (t.set name v).settings ~ under [name] v.said ++ rest := by
  cases hold : t.lookup name with
  | none =>
    refine ⟨t.settings, .refl _, fun v => ?_⟩
    rw [set_of_lookup_eq_none hold, settings_append, settings_singleton]
    exact List.perm_append_comm
  | some old =>
    obtain ⟨before, after, rfl, hset⟩ := exists_set h hold
    have hsplit : ∀ v, settings (before ++ (name, v) :: after) ~
        under [name] v.said ++ (before.settings ++ after.settings) := by
      intro v
      rw [settings_append, settings]
      exact List.perm_append_comm_assoc _ _ _
    exact ⟨_, hsplit old, fun v => hset v ▸ hsplit v⟩

def reach : Key → Table → Table
  | [], t => t
  | name :: path, t =>
      match t.lookup name with
      | some (.table _ sub) => reach path sub
      | some (.tables elements) => reach path (elements.getLast?.getD [])
      -- A path that leads nowhere ends in an empty table.
      | _ => []

theorem reach_nil : ∀ {path : Key}, reach path [] = []
  | [] => rfl
  | _ :: _ => rfl

theorem Sound.reach {path : Key} (h : t.Sound) : (t.reach path).Sound := by
  induction path generalizing t with
  | nil => exact h
  | cons name path ih =>
    rw [Table.reach]
    split
    · next hlookup => exact ih (sound_table_iff.mp (h.lookup hlookup))
    · next elements hlookup =>
      cases hlast : elements.getLast? with
      | none => exact ih sound_nil
      | some last =>
        exact ih (sound_tables_iff.mp (h.lookup hlookup) last (List.mem_of_getLast? hlast))
    · exact sound_nil

/-- What is changed below a path of a value is changed below that path and the value's name. -/
theorem perm_step {path : Key} {a b x y inner outer l l' : List (Key × Toml)}
    (more : List (Key × Toml))
    (ha : a ~ under path x ++ inner) (hb : b ~ under path y ++ inner)
    (hl : l ~ under [name] (more ++ a) ++ outer) (hl' : l' ~ under [name] (more ++ b) ++ outer) :
    ∃ rest, l ~ under (name :: path) x ++ rest ∧ l' ~ under (name :: path) y ++ rest := by
  have hmove : ∀ {c z : List (Key × Toml)}, c ~ under path z ++ inner →
      under [name] (more ++ c) ++ outer ~
        under (name :: path) z ++ (under [name] (more ++ inner) ++ outer) := by
    intro c z hc
    have hc' := (hc.append_left more).trans (List.perm_append_comm_assoc _ _ _)
    refine ((under_perm hc').append_right outer).trans (.of_eq ?_)
    rw [under_append, under_under, List.append_assoc]
    rfl
  exact ⟨_, hl.trans (hmove ha), hl'.trans (hmove hb)⟩

/-- A change at the end of a path changes what the table says below that path, and nothing else. -/
theorem settings_alter {way : Origin} {change : Origin → Table → Option Table} {path : Key}
    {origin : Origin} (hway : way ≠ .inline) (h : t.Sound)
    (halter : alter way change path origin t = some t') :
    ∃ origin' u', change origin' (t.reach path) = some u' ∧ ∃ rest,
      t.settings ~ under path (t.reach path).settings ++ rest ∧
        t'.settings ~ under path u'.settings ++ rest := by
  induction path generalizing origin t t' with
  | nil => exact ⟨origin, t', halter, [], by simp [reach], by simp⟩
  | cons name path ih =>
    obtain ⟨outer, ht, hset⟩ := exists_settings_set h name
    rw [Table.alter] at halter
    rw [reach]
    cases hlookup : t.lookup name with
    | none =>
      rw [hlookup] at halter ht
      obtain ⟨sub, hsub, rfl⟩ := Option.map_eq_some_iff.mp halter
      obtain ⟨origin', u', hchange, inner, hinner, hinner'⟩ := ih sound_nil hsub
      rw [reach_nil] at hchange hinner
      have hset' := hset (.table way sub)
      rw [said_table hway] at hset'
      exact ⟨origin', u', hchange, perm_step [] hinner hinner' ht hset'⟩
    | some old =>
      rw [hlookup] at halter ht
      have hold := h.lookup hlookup
      cases old with
      | table kind sub =>
        dsimp only at halter ⊢
        split at halter
        · next henter =>
          obtain ⟨sub', hsub, rfl⟩ := Option.map_eq_some_iff.mp halter
          have hkind : kind ≠ .inline := fun heq => by simp [heq, mayEnter] at henter
          obtain ⟨origin', u', hchange, inner, hinner, hinner'⟩ :=
            ih (sound_table_iff.mp hold) hsub
          have hset' := hset (.table kind sub')
          rw [said_table hkind] at hset'
          rw [saidAt, Option.elim_some, said_table hkind] at ht
          exact ⟨origin', u', hchange, perm_step [] hinner hinner' ht hset'⟩
        · cases halter
      | tables elements =>
        dsimp only at halter ⊢
        split at halter
        · next last hlast =>
          obtain ⟨last', hlast', rfl⟩ := Option.map_eq_some_iff.mp halter
          rw [hlast, Option.getD_some]
          obtain ⟨origin', u', hchange, inner, hinner, hinner'⟩ :=
            ih (sound_tables_iff.mp hold last (List.mem_of_getLast? hlast)) hlast'
          have hsaid : ∀ last : Table, (tables (elements.dropLast ++ [last])).said =
              saidInAll elements.dropLast ++ last.settings := by
            intro last
            rw [said, saidInAll_append, saidInAll, saidInAll, List.append_nil]
          have hset' := hset (.tables (elements.dropLast ++ [last']))
          rw [hsaid] at hset'
          rw [saidAt, Option.elim_some, ← List.dropLast_append_getLast? last hlast, hsaid] at ht
          exact ⟨origin', u', hchange, perm_step _ hinner hinner' ht hset'⟩
        · cases halter
      | _ => cases halter

/-- What a header finds is under the last part of its path, in the table the others lead to. -/
theorem lookup_reach {path : Key} {found : Option Toml}
    (hfound : t.atHeader? (path ++ [name]) = some found) : (t.reach path).lookup name = found := by
  induction path generalizing t with
  | nil => exact Option.some.inj hfound
  | cons name' path ih =>
    rw [List.cons_append, atHeader?.eq_3 _ _ _ (by simp)] at hfound
    rw [reach]
    cases hlookup : t.lookup name' with
    | none =>
      rw [hlookup] at hfound
      exact Option.some.inj hfound
    | some old =>
      rw [hlookup] at hfound
      cases old with
      | table kind sub =>
        dsimp only at hfound
        split at hfound
        · exact ih hfound
        · cases hfound
      | tables elements =>
        obtain ⟨last, hlast, hfound⟩ := Option.bind_eq_some_iff.mp hfound
        dsimp only
        rw [hlast]
        exact ih hfound
      | _ => cases hfound

theorem Sound.atHeader {path : Key} (h : t.Sound) (hfound : t.atHeader? path = some (some v)) :
    v.Sound := by
  rcases path.eq_nil_or_concat with rfl | ⟨path, name, rfl⟩
  · cases hfound
  · rw [List.concat_eq_append] at hfound
    exact h.reach.lookup (lookup_reach hfound)

/-- To enter a value adds what it says under its key. -/
theorem settings_enter {origin : Origin} {key : Key} (h : t.Sound)
    (henter : t.enter origin key v = some t') :
    t'.settings ~ t.settings ++ under key v.said := by
  rw [Table.enter, Option.bind_eq_bind, Option.bind_eq_some_iff] at henter
  obtain ⟨name, hname, halter⟩ := henter
  obtain ⟨origin', u', hchange, rest, ht, ht'⟩ := settings_alter (by decide) h halter
  have hu' : addNew (t.reach key.dropLast) name v = some u' := by
    split at hchange
    · exact hchange
    · cases hchange
  rw [Table.addNew] at hu'
  split at hu'
  · cases hu'
  · cases hu'
    rw [settings_append, settings_singleton, under_append, under_under,
      List.dropLast_append_getLast? name hname, List.append_assoc] at ht'
    refine ht'.trans (.trans ?_ (ht.symm.append_right _))
    rw [List.append_assoc]
    exact List.perm_append_comm.append_left _

/-! ## 3. Settings and lookups -/

theorem mem_under_cons {key : Key} {l : List (Key × Toml)} {name' : String} :
    (name' :: key, v) ∈ under [name] l ↔ name = name' ∧ (key, v) ∈ l := by
  simp [under, and_comm]

/-- Every setting of a table has a key. -/
theorem ne_nil_of_mem_settings {entry : Key × Toml} (h : entry ∈ t.settings) : entry.1 ≠ [] := by
  induction t with
  | nil => cases h
  | cons first t ih =>
    obtain ⟨name, v⟩ := first
    rw [settings, List.mem_append] at h
    rcases h with h | h
    · obtain ⟨⟨key, u⟩, -, rfl⟩ := List.mem_map.mp h
      exact List.cons_ne_nil _ _
    · exact ih h

theorem ne_nil_of_mem_saidInAll {elements : List Table} {entry : Key × Toml}
    (h : entry ∈ saidInAll elements) : entry.1 ≠ [] := by
  induction elements with
  | nil => cases h
  | cons t elements ih =>
    rw [saidInAll, List.mem_append] at h
    exact h.elim ne_nil_of_mem_settings ih

/-- Below the key of a value that is said as a whole there is that value only. -/
theorem eq_of_mem_said {u : Toml} (h : ([], v) ∈ u.said) : u = v := by
  cases u with
  | table origin t =>
    cases origin with
    | inline => exact (Prod.mk.inj (List.mem_singleton.mp h)).2.symm
    | _ => exact absurd rfl (ne_nil_of_mem_settings h)
  | tables elements => exact absurd rfl (ne_nil_of_mem_saidInAll h)
  | _ => exact (Prod.mk.inj (List.mem_singleton.mp h)).2.symm

/-- A sound table says below a name what the value under that name says. -/
theorem mem_settings_cons (h : t.Sound) {key : Key} :
    (name :: key, v) ∈ t.settings ↔ ∃ u, t.lookup name = some u ∧ (key, v) ∈ u.said := by
  induction t with
  | nil => simp [settings]
  | cons entry t ih =>
    obtain ⟨name', u⟩ := entry
    have hnames := List.nodup_cons.mp h.names
    have ht : Sound t := ⟨hnames.2, (List.forall_mem_cons.mp h.values).2⟩
    rw [settings, List.mem_append, mem_under_cons, ih ht, List.lookup_cons]
    by_cases hname : name = name'
    · subst hname
      have hnone : t.lookup name = none := lookup_eq_none.mpr hnames.1
      simp [hnone]
    · simp [beq_eq_false_iff_ne.mpr hname, Ne.symm hname]

end Table

end Tiling.Toml
