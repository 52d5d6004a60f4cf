import Tiling.Config.Load
import Tiling.Proofs.Documents
import Tiling.Proofs.WholeNumbers

/-!
# Loading a configuration

A file that is accepted gives a valid configuration. Each setting is what the lines of the file say
it is, or its default where they say nothing, whatever the order of the lines and whatever else
they say.
-/

open scoped List

namespace Tiling.Config

open Toml (Key Line Table)

/-! ## 1. Valid configurations -/

def Invalid.InRange (c : Config) : Invalid → Prop
  | maxChildren => 2 ≤ c.maxChildren
  | centerFraction => 0.0 < c.zones.center ∧ c.zones.center < 1.0
  | outerFraction => 0.0 ≤ c.zones.outer ∧ c.zones.outer < 0.5

instance (c : Config) : ∀ setting : Invalid, Decidable (setting.InRange c)
  | .maxChildren => inferInstanceAs (Decidable (_ ≤ _))
  | .centerFraction => inferInstanceAs (Decidable (_ ∧ _))
  | .outerFraction => inferInstanceAs (Decidable (_ ∧ _))

def Valid (c : Config) : Prop :=
  ∀ setting : Invalid, setting.InRange c

/-- The check reports the first setting that is out of its range. -/
theorem invalid?_eq_find? (c : Config) :
    c.invalid? = [.maxChildren, .centerFraction, .outerFraction].find? fun setting : Invalid =>
      ¬setting.InRange c := by
  simp only [invalid?, ← Nat.not_le, ← Bool.decide_and, ← decide_not, decide_eq_true_eq,
    List.find?_cons, List.find?_nil]
  show (if ¬Invalid.maxChildren.InRange c then some Invalid.maxChildren
    else if ¬Invalid.centerFraction.InRange c then some Invalid.centerFraction
    else if ¬Invalid.outerFraction.InRange c then some Invalid.outerFraction else none) = _
  by_cases hchildren : Invalid.maxChildren.InRange c
  · by_cases hcenter : Invalid.centerFraction.InRange c
    · by_cases houter : Invalid.outerFraction.InRange c <;> simp [hchildren, hcenter, houter]
    · simp [hchildren, hcenter]
  · simp [hchildren]

/-- Nothing is found invalid exactly when the configuration is valid. -/
theorem invalid?_eq_none_iff {c : Config} : c.invalid? = none ↔ c.Valid := by
  rw [invalid?_eq_find?, List.find?_eq_none]
  refine ⟨fun h setting => ?_, fun h setting _ => ?_⟩
  · have := h setting (by cases setting <;> simp)
    simpa using this
  · simpa using h setting

/-- The setting reported is one that is out of range. -/
theorem not_inRange_of_invalid? {c : Config} {setting : Invalid} (h : c.invalid? = some setting) :
    ¬setting.InRange c := by
  rw [invalid?_eq_find?] at h
  simpa using List.find?_some h

/-- The defaults pass their own checks. -/
theorem valid_default : Valid {} :=
  invalid?_eq_none_iff.mp (by decide +kernel)

/-! ## 2. Settings -/

section

variable {α : Type} {said said' : List (Key × Toml)} {key : Key} {read : Toml → Option α}
  {default x x' : α}

/-- Whether a setting is what is said under a key, or its default where nothing is said. -/
structure Given (said : List (Key × Toml)) (key : Key) (read : Toml → Option α)
    (default x : α) : Prop where
  of_mem : ∀ v, (key, v) ∈ said → read v = some x
  of_not_mem : (∀ v, (key, v) ∉ said) → x = default

theorem Given.congr {key' : Key} (h : Given said key read default x)
    (hsaid : ∀ v, (key', v) ∈ said' ↔ (key, v) ∈ said) : Given said' key' read default x :=
  ⟨fun v hv => h.of_mem v ((hsaid v).mp hv),
    fun hnone => h.of_not_mem fun v hv => hnone v ((hsaid v).mpr hv)⟩

/-- A document settles at most one value for a key. -/
theorem Given.unique (h : Given said key read default x) (h' : Given said key read default x') :
    x = x' := by
  by_cases hsaid : ∃ v, (key, v) ∈ said
  · obtain ⟨v, hv⟩ := hsaid
    exact Option.some.inj ((h.of_mem v hv).symm.trans (h'.of_mem v hv))
  · have hnone := not_exists.mp hsaid
    rw [h.of_not_mem hnone, h'.of_not_mem hnone]

/-- A setting that is looked up in a sound table is given by what the table says, if it reads values
only that are said as a whole. -/
theorem given_of_lookup {t : Table} {name : String} (ht : t.Sound)
    (hread : ∀ v x, read v = some x → v.said = [([], v)])
    (hx : settingOr default read (t.lookup name) = some x) :
    Given t.settings [name] read default x := by
  refine ⟨fun v hv => ?_, fun hnone => ?_⟩
  · obtain ⟨u, hlookup, hu⟩ := (Table.mem_settings_cons ht).mp hv
    rw [hlookup, Table.eq_of_mem_said hu] at hx
    exact hx
  · cases hlookup : t.lookup name with
    | none =>
      rw [hlookup] at hx
      exact (Option.some.inj hx).symm
    | some u =>
      rw [hlookup] at hx
      refine absurd ((Table.mem_settings_cons ht).mpr ⟨u, hlookup, ?_⟩) (hnone u)
      rw [hread u x hx]
      exact List.mem_singleton_self _

/-- A key the table does not have takes its default. -/
theorem given_default {t : Table} {name : String} (ht : t.Sound) (hlookup : t.lookup name = none) :
    Given t.settings (name :: key) read default default := by
  refine ⟨fun v hv => ?_, fun _ => rfl⟩
  obtain ⟨u, hu, -⟩ := (Table.mem_settings_cons ht).mp hv
  rw [hlookup] at hu
  cases hu

/-- What is given in a table that is not in braces is given in the table that holds it. -/
theorem Given.below {t u : Table} {origin : Toml.Origin} {name : String} (ht : t.Sound)
    (hlookup : t.lookup name = some (.table origin u)) (horigin : origin ≠ .inline)
    (h : Given u.settings key read default x) : Given t.settings (name :: key) read default x := by
  refine h.congr fun v => (Table.mem_settings_cons ht).trans ⟨?_, fun hv => ?_⟩
  · rintro ⟨value, hvalue, hv⟩
    cases hlookup.symm.trans hvalue
    rwa [Table.said_table horigin] at hv
  · exact ⟨_, hlookup, (Table.said_table horigin).symm ▸ hv⟩

end

theorem said_of_countOf? : ∀ v n, countOf? v = some n → v.said = [([], v)]
  | .integer _, _, _ => rfl

theorem said_of_singleOf? : ∀ v x, singleOf? v = some x → v.said = [([], v)]
  | .integer _, _, _ => rfl
  | .float _, _, _ => rfl

/-- Whether a configuration is the one that is said. The zones are said as one value or one by
one. -/
structure Settles (said : List (Key × Toml)) (c : Config) : Prop where
  maxChildren : Given said ["max_children_per_node"] countOf? 5 c.maxChildren
  zones : ∀ v, (["drop_zones"], v) ∈ said → zonesOf? v = some c.zones
  center : (∀ v, (["drop_zones"], v) ∉ said) →
    Given said ["drop_zones", "center_fraction"] singleOf? (1.0 / 3.0) c.zones.center
  outer : (∀ v, (["drop_zones"], v) ∉ said) →
    Given said ["drop_zones", "outer_fraction"] singleOf? 0.1 c.zones.outer

/-- The order in which a document says things does not matter. -/
theorem Settles.congr {said said' : List (Key × Toml)} {c : Config} (h : Settles said c)
    (hsaid : said ~ said') : Settles said' c := by
  have hmem : ∀ key v, (key, v) ∈ said' ↔ (key, v) ∈ said := fun key v => hsaid.symm.mem_iff
  have hnone (hnone : ∀ v, (["drop_zones"], v) ∉ said') : ∀ v, (["drop_zones"], v) ∉ said :=
    fun v hv => hnone v ((hmem _ v).mpr hv)
  exact ⟨h.maxChildren.congr (hmem _), fun v hv => h.zones v ((hmem _ v).mp hv),
    fun h' => (h.center (hnone h')).congr (hmem _), fun h' => (h.outer (hnone h')).congr (hmem _)⟩

/-- A table of fractions gives both, whether it stands in braces or not. -/
theorem given_zonesOf? {origin : Toml.Origin} {u : Table} {zones : ZoneFractions} (hu : u.Sound)
    (h : zonesOf? (.table origin u) = some zones) :
    Given u.settings ["center_fraction"] singleOf? (1.0 / 3.0) zones.center ∧
      Given u.settings ["outer_fraction"] singleOf? 0.1 zones.outer := by
  simp only [zonesOf?, zonesOf?.fractions, Option.bind_eq_bind, Option.bind_eq_some_iff] at h
  obtain ⟨center, hcenter, outer, houter, h⟩ := h
  cases h
  exact ⟨given_of_lookup hu said_of_singleOf? hcenter, given_of_lookup hu said_of_singleOf? houter⟩

/-- A configuration read from a table is the one its settings describe. -/
theorem settles_ofTable? {t : Table} {c : Config} (ht : t.Sound) (h : ofTable? t = some c) :
    Settles t.settings c := by
  simp only [ofTable?, Option.bind_eq_bind, Option.bind_eq_some_iff] at h
  obtain ⟨maxChildren, hchildren, zones, hzones, h⟩ := h
  cases h
  have hfractions (hnone : ∀ v, (["drop_zones"], v) ∉ t.settings) :
      Given t.settings ["drop_zones", "center_fraction"] singleOf? (1.0 / 3.0) zones.center ∧
        Given t.settings ["drop_zones", "outer_fraction"] singleOf? 0.1 zones.outer := by
    cases hlookup : t.lookup "drop_zones" with
    | none =>
      rw [hlookup] at hzones
      cases hzones
      exact ⟨given_default ht hlookup, given_default ht hlookup⟩
    | some value =>
      have hwhole : value.said ≠ [([], value)] := fun hsaid =>
        hnone value ((Table.mem_settings_cons ht).mpr
          ⟨value, hlookup, hsaid.symm ▸ List.mem_singleton_self _⟩)
      rw [hlookup] at hzones
      cases value with
      | table origin u =>
        have horigin : origin ≠ .inline := fun heq => hwhole (heq ▸ rfl)
        have hu := Toml.sound_table_iff.mp (ht.lookup hlookup)
        have hzones : zonesOf? (.table origin u) = some zones := hzones
        obtain ⟨hcenter, houter⟩ := given_zonesOf? hu hzones
        exact ⟨hcenter.below ht hlookup horigin, houter.below ht hlookup horigin⟩
      | array items => exact absurd rfl hwhole
      | moment => exact absurd rfl hwhole
      | _ => cases hzones
  refine ⟨given_of_lookup ht said_of_countOf? hchildren, fun v hv => ?_,
    fun hnone => (hfractions hnone).1, fun hnone => (hfractions hnone).2⟩
  obtain ⟨u, hlookup, hu⟩ := (Table.mem_settings_cons ht).mp hv
  rw [hlookup, Table.eq_of_mem_said hu] at hzones
  exact hzones

/-- What is said under the names of the settings decides the configuration. -/
theorem Settles.unique {said said' : List (Key × Toml)} {c c' : Config} (h : Settles said c)
    (h' : Settles said' c') (hsame : ∀ name ∈ ["max_children_per_node", "drop_zones"], ∀ key v,
      (name :: key, v) ∈ said ↔ (name :: key, v) ∈ said') : c = c' := by
  obtain ⟨maxChildren, zones⟩ := c
  obtain ⟨maxChildren', zones'⟩ := c'
  have hchildren : maxChildren = maxChildren' :=
    h.maxChildren.unique (h'.maxChildren.congr (hsame _ (by simp) []))
  have hzone := hsame "drop_zones" (by simp)
  have hzones : zones = zones' := by
    by_cases hwhole : ∃ v, (["drop_zones"], v) ∈ said
    · obtain ⟨v, hv⟩ := hwhole
      exact Option.some.inj ((h.zones v hv).symm.trans (h'.zones v ((hzone [] v).mp hv)))
    · have hnone := not_exists.mp hwhole
      have hnone' : ∀ v, (["drop_zones"], v) ∉ said' := fun v hv =>
        hnone v ((hzone [] v).mpr hv)
      obtain ⟨center, outer⟩ := zones
      obtain ⟨center', outer'⟩ := zones'
      have hcenter : center = center' :=
        (h.center hnone).unique ((h'.center hnone').congr (hzone _))
      have houter : outer = outer' :=
        (h.outer hnone).unique ((h'.outer hnone').congr (hzone _))
      rw [hcenter, houter]
  rw [hchildren, hzones]

/-! ## 3. Accepted files -/

variable {content content' : ByteArray} {c c' : Config}

def table? (content : ByteArray) : Option Table :=
  (String.fromUTF8? content).bind Toml.parse?

/-- A document that gives a configuration is accepted or refused by the check. -/
theorem load_of_some (h : (table? content).bind ofTable? = some c) :
    load (.file content) = c.invalid?.elim (.ok c) fun setting => .error (.invalid setting) := by
  obtain ⟨t, ht, hc⟩ := Option.bind_eq_some_iff.mp h
  obtain ⟨text, htext, hparse⟩ := Option.bind_eq_some_iff.mp ht
  rw [load, htext]
  show ofText text = _
  rw [ofText, hparse, Option.bind_some, hc]
  cases hinvalid : c.invalid? with
  | none => simp only [hinvalid, Option.elim_none]
  | some setting => simp only [hinvalid, Option.elim_some]

/-- Any other file is refused before a setting is looked at. -/
theorem load_of_none (h : (table? content).bind ofTable? = none) :
    load (.file content) = .error .unreadable ∨ load (.file content) = .error .malformed := by
  rw [table?, Option.bind_assoc] at h
  rw [load]
  cases htext : String.fromUTF8? content with
  | none => exact .inl rfl
  | some text =>
    rw [htext, Option.bind_some] at h
    refine .inr ?_
    show ofText text = _
    rw [ofText, h]

/-- A file is accepted if it is a document that gives a valid configuration. -/
theorem load_eq_ok_iff :
    load (.file content) = .ok c ↔ (table? content).bind ofTable? = some c ∧ c.Valid := by
  rw [← invalid?_eq_none_iff]
  cases hgiven : (table? content).bind ofTable? with
  | none => rcases load_of_none hgiven with h | h <;> simp [h]
  | some config =>
    rw [load_of_some hgiven]
    cases hinvalid : config.invalid? with
    | none =>
      rw [Option.elim_none, Except.ok.injEq, Option.some.injEq]
      exact ⟨fun heq => ⟨heq, heq ▸ hinvalid⟩, And.left⟩
    | some setting =>
      simp only [Option.elim_some, reduceCtorEq, Option.some.injEq, false_iff, not_and]
      rintro rfl hnone
      cases hinvalid.symm.trans hnone

/-- A file is refused for a setting if it is a document that gives a configuration of which the
check reports the setting. -/
theorem load_eq_invalid_iff {setting : Invalid} :
    load (.file content) = .error (.invalid setting) ↔
      ∃ c, (table? content).bind ofTable? = some c ∧ c.invalid? = some setting := by
  cases hgiven : (table? content).bind ofTable? with
  | none => rcases load_of_none hgiven with h | h <;> simp [h]
  | some config =>
    rw [load_of_some hgiven]
    cases hinvalid : config.invalid? <;> simp [hinvalid]

/-- A loaded configuration is valid. -/
theorem valid_of_load {found : Found} (h : load found = .ok c) : c.Valid := by
  cases found with
  | nothing =>
    cases h
    exact valid_default
  | directory => cases h
  | file content => exact (load_eq_ok_iff.mp h).2

/-- A file is refused for a setting only if the document gives one that is out of its range. -/
theorem not_inRange_of_load {setting : Invalid}
    (h : load (.file content) = .error (.invalid setting)) :
    ∃ c, (table? content).bind ofTable? = some c ∧ ¬setting.InRange c := by
  obtain ⟨c, hgiven, hinvalid⟩ := load_eq_invalid_iff.mp h
  exact ⟨c, hgiven, not_inRange_of_invalid? hinvalid⟩

def said? (content : ByteArray) : Option (List (Key × Toml)) := do
  let text ← String.fromUTF8? content
  return Line.settings [] (← Toml.lines? text)

/-- An accepted file gives what its lines say, and defaults for what they leave out. -/
theorem settles_of_load (h : load (.file content) = .ok c) :
    ∃ said, said? content = some said ∧ Settles said c := by
  obtain ⟨htable, -⟩ := load_eq_ok_iff.mp h
  obtain ⟨t, ht, hc⟩ := Option.bind_eq_some_iff.mp htable
  obtain ⟨text, htext, hparse⟩ := Option.bind_eq_some_iff.mp ht
  obtain ⟨hsound, lines, hlines, hperm⟩ := Toml.settings_parse hparse
  refine ⟨Line.settings [] lines, by simp [said?, htext, hlines], ?_⟩
  exact (settles_ofTable? hsound hc).congr hperm

/-- Two accepted files that say the same about the settings give the same configuration, in
whatever order they say it and whatever else they say. -/
theorem load_unique (h : load (.file content) = .ok c) (h' : load (.file content') = .ok c')
    {said said' : List (Key × Toml)} (hsaid : said? content = some said)
    (hsaid' : said? content' = some said')
    (hsame : ∀ name ∈ ["max_children_per_node", "drop_zones"], ∀ key v,
      (name :: key, v) ∈ said ↔ (name :: key, v) ∈ said') : c = c' := by
  obtain ⟨l, hl, hc⟩ := settles_of_load h
  obtain ⟨l', hl', hc'⟩ := settles_of_load h'
  cases hsaid.symm.trans hl
  cases hsaid'.symm.trans hl'
  exact hc.unique hc' hsame

/-! ## 4. Counts -/

section

open Toml

theorem scanEntry_of_scanKey {value : Scan Toml} {cs more : List Char} {key : Key}
    (h : scanKey cs = some (key, '=' :: more)) :
    scanEntry value cs = (value (skipBlanks more)).map fun (v, rest) => ((key, v), rest) := by
  rw [scanEntry, h]
  exact (Option.map_eq_bind ..).symm

/-- A document of one whole number is one line, as long as the number fits. -/
theorem lines?_count (n : Nat) : lines? ("max_children_per_node = " ++ toString n) =
    (ofInt? n).map fun v => [.entry ["max_children_per_node"] v] := by
  let more := "ax_children_per_node = ".toList ++ Nat.toDigits 10 n
  have htext : ("max_children_per_node = " ++ toString n).toList = 'm' :: more := by
    rw [String.toList_append]
    simp [more]
  have hend : EndsLine [] := by simp [EndsLine]
  have hvalue := scanValue_toDigits nestingLimit n hend
  rw [List.append_nil] at hvalue
  have hkey : scanKey ('m' :: more) =
      some (["max_children_per_node"], '=' :: ' ' :: Nat.toDigits 10 n) := rfl
  have hblank : skipBlanks (' ' :: Nat.toDigits 10 n) = skipBlanks (Nat.toDigits 10 n) := rfl
  have hline : Line.scan ('m' :: more) =
      (ofInt? n).map fun v => (.entry ["max_children_per_node"] v, []) := by
    rw [Line.scan.eq_3 _ (by simp) (by simp), scanEntry_of_scanKey hkey, hblank,
      skipBlanks_toDigits, hvalue]
    cases ofInt? n with
    | none => rfl
    | some v => rfl
  have hfinish : finishLine? ('m' :: more) = none := rfl
  have hskip : skipBlanks ('m' :: more) = 'm' :: more := rfl
  rw [lines?, htext]
  show Line.scanAll (more.length + 1 + 1) ('m' :: more) = _
  rw [Line.scanAll, hfinish, hskip, hline]
  cases ofInt? n with
  | none => rfl
  | some v => rfl

end

/-- Every count from two up to the greatest number of 64 bits with a sign can be configured. -/
theorem ofText_count (n : Nat) : ofText ("max_children_per_node = " ++ toString n) =
    if 2 ^ 63 ≤ n then .error .malformed
    else if n < 2 then .error (.invalid .maxChildren)
    else .ok { maxChildren := n } := by
  by_cases hn : 2 ^ 63 ≤ n
  · have hint : Toml.ofInt? n = none := if_neg (by simp; omega)
    rw [if_pos hn, ofText, Toml.parse?, lines?_count, hint]
    rfl
  · have hint : Toml.ofInt? n = some (.integer n) := if_pos (by simp; omega)
    have hparse : Toml.parse? ("max_children_per_node = " ++ toString n) =
        some [("max_children_per_node", .integer n)] := by
      rw [Toml.parse?, lines?_count, hint]
      rfl
    have htable : ofTable? [("max_children_per_node", .integer n)] = some { maxChildren := n } := by
      simp [ofTable?, settingOr, countOf?, List.lookup_cons]
    rw [if_neg hn, ofText, hparse, Option.bind_some, htable]
    dsimp only
    by_cases hleast : n < 2
    · have hinvalid : invalid? { maxChildren := n } = some .maxChildren := if_pos hleast
      rw [if_pos hleast, hinvalid]
    · have hvalid : Valid { maxChildren := n } := by
        intro setting
        cases setting with
        | maxChildren => exact Nat.not_lt.mp hleast
        | centerFraction => exact valid_default .centerFraction
        | outerFraction => exact valid_default .outerFraction
      rw [if_neg hleast, invalid?_eq_none_iff.mpr hvalid]

example : (ofText "max_children_per_node = 3 # panes\n[drop_zones]\ncenter_fraction = 0.5").toOption =
    some { maxChildren := 3, zones := { center := 0.5 } } := by
  decide +kernel

end Tiling.Config
