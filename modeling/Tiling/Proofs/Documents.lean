import Tiling.Proofs.Tables
import Tiling.Toml.Parser

/-!
# Reading TOML documents

A document that is accepted gives a sound table, and the table says what the lines of the document
say: every line's value once, under the line's key below the last header, and nothing more.
-/

open scoped List

namespace Tiling.Toml

/-! ## 1. Scanned values -/

/-- A value as one line writes it: its tables stand in braces. -/
structure Written (v : Toml) : Prop where
  sound : v.Sound
  whole : v.said = [([], v)]

variable {value : Scan Toml} {cs rest : List Char} {v : Toml}

theorem written_ofInt {n : Int} (h : ofInt? n = some v) : v.Written := by
  rw [ofInt?] at h
  split at h
  · next hrange =>
    cases h
    rw [Bool.and_eq_true, decide_eq_true_iff, decide_eq_true_iff] at hrange
    exact ⟨.integer n hrange, rfl⟩
  · cases h

theorem written_float (x : Float) : (float x).Written :=
  ⟨.float x, rfl⟩

theorem written_scanInteger_inBase {base : Nat}
    (h : scanInteger.inBase base cs = some (v, rest)) : v.Written := by
  simp only [scanInteger.inBase, Option.bind_eq_bind, Option.bind_eq_some_iff] at h
  obtain ⟨⟨digits, more⟩, -, n, hn, h⟩ := h
  cases h
  exact written_ofInt hn

theorem written_scanInteger (h : scanInteger cs = some (v, rest)) : v.Written := by
  unfold scanInteger at h
  split at h
  · exact written_scanInteger_inBase h
  · exact written_scanInteger_inBase h
  · exact written_scanInteger_inBase h
  · simp only [Option.bind_eq_bind, Option.bind_eq_some_iff] at h
    obtain ⟨⟨digits, more⟩, -, n, hn, h⟩ := h
    cases h
    exact written_ofInt hn

theorem written_scanFinite (h : scanFinite cs = some (v, rest)) : v.Written := by
  simp only [scanFinite, Option.bind_eq_bind, Option.bind_eq_some_iff] at h
  obtain ⟨⟨whole, more⟩, -, ⟨⟨fraction, exponent⟩, rest'⟩, -, h⟩ := h
  split at h
  · cases h
  · cases h
    exact written_float _

/-- A number scans to a value that a document can write, be it whole or not. -/
theorem written_scanNumber (h : scanNumber cs = some (v, rest)) : v.Written := by
  rw [scanNumber] at h
  split at h
  · next found hfound =>
    cases h
    exact written_scanFinite hfound
  · split at h
    · next found hfound =>
      cases h
      rw [scanSpecial] at hfound
      split at hfound
      · cases hfound
        exact written_float _
      · cases hfound
        exact written_float _
      · cases hfound
    · exact written_scanInteger h

theorem written_scanMoment (h : scanMoment cs = some (v, rest)) : v.Written := by
  have hv : v = .moment := by
    rw [scanMoment] at h
    split at h
    · cases h
      rfl
    · obtain ⟨more, -, heq⟩ := Option.map_eq_some_iff.mp h
      cases heq
      rfl
  rw [hv]
  exact ⟨.moment, rfl⟩

theorem written_scanSimple (h : scanSimple cs = some (v, rest)) : v.Written := by
  unfold scanSimple at h
  split at h
  · obtain ⟨⟨s, more⟩, -, heq⟩ := Option.map_eq_some_iff.mp h
    cases heq
    exact ⟨.text s, rfl⟩
  · obtain ⟨⟨s, more⟩, -, heq⟩ := Option.map_eq_some_iff.mp h
    cases heq
    exact ⟨.text s, rfl⟩
  · cases h
    exact ⟨.bool true, rfl⟩
  · cases h
    exact ⟨.bool false, rfl⟩
  · split at h
    · next found hfound =>
      cases h
      exact written_scanMoment hfound
    · exact written_scanNumber h

def Writes (value : Scan Toml) : Prop :=
  ∀ ⦃cs rest v⦄, value cs = some (v, rest) → Written v

theorem sound_scanItems (hvalue : Writes value) {rounds : Nat} {acc items : List Toml}
    (hacc : ∀ v ∈ acc, v.Sound) (h : scanItems value rounds acc cs = some (items, rest)) :
    ∀ v ∈ items, v.Sound := by
  induction rounds generalizing acc cs with
  | zero => cases h
  | succ rounds ih =>
    simp only [scanItems, Option.bind_eq_bind, Option.bind_eq_some_iff] at h
    obtain ⟨more, -, h⟩ := h
    split at h
    · cases h
      exact hacc
    · simp only [Option.bind_eq_some_iff] at h
      obtain ⟨⟨item, more'⟩, hitem, rest', -, h⟩ := h
      have hacc' : ∀ v ∈ item :: acc, v.Sound :=
        List.forall_mem_cons.mpr ⟨(hvalue hitem).sound, hacc⟩
      split at h
      · exact ih hacc' h
      · cases h
        exact hacc'
      · cases h

theorem written_scanEntry (hvalue : Writes value) {key : Key}
    (h : scanEntry value cs = some ((key, v), rest)) : v.Written := by
  simp only [scanEntry, Option.bind_eq_bind, Option.bind_eq_some_iff] at h
  obtain ⟨⟨key', more⟩, -, h⟩ := h
  split at h
  · simp only [Option.bind_eq_some_iff] at h
    obtain ⟨⟨v', more'⟩, hv, h⟩ := h
    cases h
    exact hvalue hv
  · cases h

/-- The entries of an inline table enter it one by one, and each keeps its keys apart. -/
theorem sound_scanEntries (hvalue : Writes value) {rounds : Nat} {t t' : Table} (ht : t.Sound)
    (h : scanEntries value rounds t cs = some (t', rest)) : t'.Sound := by
  induction rounds generalizing t cs with
  | zero => cases h
  | succ rounds ih =>
    simp only [scanEntries, Option.bind_eq_bind, Option.bind_eq_some_iff] at h
    obtain ⟨⟨⟨key, v⟩, more⟩, hentry, t₁, henter, h⟩ := h
    have ht₁ := ht.enter (written_scanEntry hvalue hentry).sound henter
    split at h
    · exact ih ht₁ h
    · cases h
      exact ht₁
    · cases h

theorem sound_scanInline (hvalue : Writes value) {t : Table}
    (h : scanInline value cs = some (t, rest)) : t.Sound := by
  rw [scanInline] at h
  split at h
  · cases h
    exact Table.sound_nil
  · exact sound_scanEntries hvalue Table.sound_nil h

/-- Every value the scanner returns is one that a document can write, at any depth of nesting. -/
theorem writes_scanValue (depth : Nat) : Writes (scanValue depth) := by
  induction depth with
  | zero => exact fun cs rest v h => written_scanSimple h
  | succ depth ih =>
    intro cs rest v h
    unfold scanValue at h
    split at h
    · cases ‹_ = 0›
    · next hdepth =>
      cases hdepth
      obtain ⟨⟨items, more⟩, hitems, heq⟩ := Option.map_eq_some_iff.mp h
      cases heq
      refine ⟨.array _ fun v hv => ?_, rfl⟩
      exact sound_scanItems ih (List.forall_mem_nil _) hitems v (List.mem_reverse.mp hv)
    · next hdepth =>
      cases hdepth
      obtain ⟨⟨t, more⟩, ht, heq⟩ := Option.map_eq_some_iff.mp h
      cases heq
      exact ⟨sound_table_iff.mpr (sound_scanInline ih ht), rfl⟩
    · exact written_scanSimple h

/-! ## 2. Lines -/

namespace Line

def Written : Line → Prop
  | .entry _ v => v.Written
  | _ => True

def settings : Key → List Line → List (Key × Toml)
  | _, [] => []
  | _, .header path :: lines => settings path lines
  | _, .sharedHeader path :: lines => settings path lines
  | path, .entry key v :: lines => (path ++ key, v) :: settings path lines

theorem written_scan {line : Line} (h : scan cs = some (line, rest)) : line.Written := by
  unfold scan at h
  split at h
  · simp only [Option.bind_eq_bind, Option.bind_eq_some_iff] at h
    obtain ⟨⟨path, more⟩, -, h⟩ := h
    split at h
    · simp only [Option.bind_eq_some_iff] at h
      obtain ⟨more', -, h⟩ := h
      cases h
      trivial
    · cases h
  · simp only [Option.bind_eq_bind, Option.bind_eq_some_iff] at h
    obtain ⟨⟨path, more⟩, -, h⟩ := h
    split at h
    · simp only [Option.bind_eq_some_iff] at h
      obtain ⟨more', -, h⟩ := h
      cases h
      trivial
    · cases h
  · simp only [Option.bind_eq_bind, Option.bind_eq_some_iff] at h
    obtain ⟨⟨⟨key, v⟩, more⟩, hentry, more', -, h⟩ := h
    cases h
    exact written_scanEntry (writes_scanValue nestingLimit) hentry

theorem written_scanAll {rounds : Nat} {lines : List Line} (h : scanAll rounds cs = some lines) :
    ∀ line ∈ lines, line.Written := by
  induction rounds generalizing cs lines with
  | zero =>
    rw [scanAll] at h
    split at h
    · cases h
      exact List.forall_mem_nil _
    · cases h
  | succ rounds ih =>
    rw [scanAll] at h
    split at h
    · cases h
      exact List.forall_mem_nil _
    · exact ih h
    · simp only [Option.bind_eq_bind, Option.bind_eq_some_iff] at h
      obtain ⟨⟨line, more⟩, hline, lines', hlines, h⟩ := h
      cases h
      exact List.forall_mem_cons.mpr ⟨written_scan hline, ih hlines⟩

end Line

/-- Every line of a document that scans carries only values that a document can write. -/
theorem written_lines {text : String} {lines : List Line} (h : lines? text = some lines) :
    ∀ line ∈ lines, line.Written :=
  Line.written_scanAll h

/-! ## 3. Drafts -/

namespace Draft

variable {d d' : Draft} {log : List (Key × Toml)} {t : Table}

/-- What stands in the document where the table that is being filled goes, and will be replaced. -/
def stale (d : Draft) : List (Key × Toml) :=
  match d.path.getLast? with
  | none => []
  | some name => if d.shared then [] else Table.saidAt ((d.root.reach d.path.dropLast).lookup name)

/-- Whether a draft holds what has been said so far. -/
structure Holds (d : Draft) (log : List (Key × Toml)) : Prop where
  root : d.root.Sound
  current : d.current.Sound
  top : d.path = [] → d.root = []
  kept : log ++ under d.path d.stale ~ d.root.settings ++ under d.path d.current.settings

theorem holds_nil : Holds {} [] :=
  ⟨Table.sound_nil, Table.sound_nil, fun _ => rfl, .refl _⟩

/-- An entry adds its one setting to what the draft holds, under the open header. -/
theorem Holds.entry {key : Key} {v : Toml} (h : d.Holds log) (hv : v.Written)
    (htake : d.take? (.entry key v) = some d') : d'.Holds (log ++ [(d.path ++ key, v)]) := by
  simp only [take?, Option.bind_eq_bind, Option.bind_eq_some_iff] at htake
  obtain ⟨current, henter, htake⟩ := htake
  cases htake
  refine ⟨h.root, h.current.enter hv.sound henter, h.top, ?_⟩
  have hsaid : under d.path current.settings ~ _ :=
    under_perm (Table.settings_enter h.current henter)
  rw [hv.whole, under_append, under_under] at hsaid
  calc log ++ [(d.path ++ key, v)] ++ under d.path d.stale
      _ ~ log ++ under d.path d.stale ++ [(d.path ++ key, v)] := by
        rw [List.append_assoc, List.append_assoc]
        exact List.perm_append_comm.append_left _
      _ ~ d.root.settings ++ under d.path d.current.settings ++ [(d.path ++ key, v)] :=
        h.kept.append_right _
      _ ~ d.root.settings ++ under d.path current.settings := by
        rw [List.append_assoc]
        exact (hsaid.trans (.of_eq (by simp [under]))).symm.append_left _

/-- What is put under a name says what the table that is being filled says, and what stands there
already apart from what is stale. -/
theorem exists_placed {u u' : Table} {name : String} (hu : u.Sound) (hcurrent : d.current.Sound)
    (hplace : d.place? name u = some u') :
    ∃ v more, u' = u.set name v ∧ v.Sound ∧ v.said ~ d.current.settings ++ more ∧
      Table.saidAt (u.lookup name) =
        (if d.shared then [] else Table.saidAt (u.lookup name)) ++ more := by
  have hplain (hshared : d.shared = false) : ∃ more,
      (table .header d.current).said ~ d.current.settings ++ more ∧ Table.saidAt (u.lookup name) =
        (if d.shared then [] else Table.saidAt (u.lookup name)) ++ more := by
    refine ⟨[], ?_, ?_⟩
    · rw [List.append_nil]
      exact .refl _
    · rw [hshared]
      exact (List.append_nil _).symm
  rw [place?] at hplace
  split at hplace
  · next hshared _ =>
    cases hplace
    obtain ⟨more, hsaid, hold⟩ := hplain hshared
    exact ⟨_, more, rfl, sound_table_iff.mpr hcurrent, hsaid, hold⟩
  · next hshared _ =>
    cases hplace
    obtain ⟨more, hsaid, hold⟩ := hplain hshared
    exact ⟨_, more, rfl, sound_table_iff.mpr hcurrent, hsaid, hold⟩
  · next hshared hlookup =>
    cases hplace
    refine ⟨_, [], rfl, sound_tables_iff.mpr (List.forall_mem_singleton.mpr hcurrent), .refl _, ?_⟩
    rw [hshared, hlookup]
    rfl
  · next elements hshared hlookup =>
    cases hplace
    have helements := sound_tables_iff.mp (hu.lookup hlookup)
    refine ⟨_, saidInAll elements, rfl, sound_tables_iff.mpr (List.forall_mem_append.mpr
      ⟨helements, List.forall_mem_singleton.mpr hcurrent⟩), ?_, ?_⟩
    · rw [said, saidInAll_append, saidInAll, saidInAll, List.append_nil]
      exact List.perm_append_comm
    · rw [hshared, hlookup]
      rfl
  · cases hplace

/-- Putting the open table in its place replaces what is stale there and keeps everything else. -/
theorem exists_replaced (hroot : d.root.Sound) (hcurrent : d.current.Sound) {path : Key}
    {name : String} (hpath : d.path = path ++ [name])
    (halter : Table.alter .implied (fun _ => d.place? name) path .header d.root = some t) :
    ∃ other, d.root.settings ~ under d.path d.stale ++ other ∧
      t.settings ~ under d.path d.current.settings ++ other := by
  obtain ⟨-, u', hplace, rest, hold, hnew⟩ := Table.settings_alter (by decide) hroot halter
  have hreach : (d.root.reach path).Sound := hroot.reach
  obtain ⟨v, more, rfl, -, hsaid, hlookup⟩ := exists_placed hreach hcurrent hplace
  obtain ⟨outer, hu, hset⟩ := Table.exists_settings_set hreach name
  have hstale : d.stale =
      if d.shared then [] else Table.saidAt ((d.root.reach path).lookup name) := by
    simp [stale, hpath]
  rw [hlookup, ← hstale] at hu
  have hsplit : ∀ l : List (Key × Toml), under path (under [name] (l ++ more) ++ outer) ++ rest =
      under d.path l ++ (under d.path more ++ (under path outer ++ rest)) := by
    intro l
    simp only [hpath, under_append, under_under, List.append_assoc]
  have hset' := (hset v).trans ((under_perm hsaid).append_right outer)
  exact ⟨_, (hold.trans ((under_perm hu).append_right rest)).trans (.of_eq (hsplit _)),
    (hnew.trans ((under_perm hset').append_right rest)).trans (.of_eq (hsplit _))⟩

/-- Replacing `old` by `new` leaves what is kept, when what is kept and `old` are together what was
there before and `new`. -/
theorem perm_of_replaced {β : Type} {before after old new other kept : List β}
    (hbefore : before ~ old ++ other) (hafter : after ~ new ++ other)
    (hkept : kept ++ old ~ before ++ new) : after ~ kept := by
  have hsum : after ++ old ~ kept ++ old :=
    calc after ++ old
        _ ~ new ++ other ++ old := hafter.append_right _
        _ ~ old ++ other ++ new := by
          rw [List.append_assoc]
          exact (List.perm_append_comm.append_left _).trans List.perm_append_comm
        _ ~ before ++ new := hbefore.symm.append_right _
        _ ~ kept ++ old := hkept.symm
  exact (List.perm_append_right_iff _).mp hsum

/-- Closing the open table moves its settings into the document and loses none. -/
theorem Holds.settle (h : d.Holds log) (hsettle : d.settle? = some t) :
    t.Sound ∧ t.settings ~ log := by
  rw [settle?] at hsettle
  rcases d.path.eq_nil_or_concat with hpath | ⟨path, name, hpath⟩
  · have hkept := h.kept
    rw [hpath] at hsettle
    cases hsettle
    refine ⟨h.current, ?_⟩
    rw [stale, hpath, h.top hpath] at hkept
    simpa [Table.settings] using hkept.symm
  · rw [List.concat_eq_append] at hpath
    have halter : Table.alter .implied (fun _ => d.place? name) path .header d.root = some t := by
      simpa [hpath] using hsettle
    refine ⟨h.root.alter (fun _ u u' hu hplace => ?_) halter, ?_⟩
    · obtain ⟨v, -, rfl, hv, -⟩ := exists_placed hu h.current hplace
      exact hu.set hv
    · obtain ⟨other, hroot, ht⟩ := exists_replaced h.root h.current hpath halter
      exact perm_of_replaced hroot ht h.kept

/-- A table with a header starts with what is stale below the header. -/
theorem Holds.open {path : Key} {found : Option Toml} (ht : t.Sound) (hlog : t.settings ~ log)
    (hfound : t.atHeader? path = some found) {current : Table} {shared : Bool}
    (hcurrent : current.Sound)
    (hstale : (if shared then [] else Table.saidAt found) = current.settings) :
    Holds { root := t, current, path, shared } log := by
  refine ⟨ht, hcurrent, fun hpath => ?_, ?_⟩
  · cases (show path = [] from hpath)
    cases hfound
  · have : stale { root := t, current, path, shared } = current.settings := by
      rcases path.eq_nil_or_concat with rfl | ⟨path, name, rfl⟩
      · cases hfound
      · rw [List.concat_eq_append] at hfound ⊢
        simpa [stale, Table.lookup_reach hfound] using hstale
    rw [this]
    exact hlog.symm.append_right _

/-- A line is entered in what has been said so far. -/
theorem Holds.take {line : Line} (h : d.Holds log) (hline : line.Written)
    (htake : d.take? line = some d') : d'.Holds (log ++ Line.settings d.path [line]) := by
  cases line with
  | entry key v => exact h.entry hline htake
  | header path =>
    rw [Line.settings, Line.settings, List.append_nil]
    simp only [take?, startTable?, Option.bind_eq_bind, Option.bind_eq_some_iff] at htake
    obtain ⟨t, hsettle, found, hfound, htake⟩ := htake
    obtain ⟨ht, hlog⟩ := h.settle hsettle
    split at htake
    · cases htake
      exact .open ht hlog hfound Table.sound_nil rfl
    · cases htake
      exact .open ht hlog hfound (sound_table_iff.mp (ht.atHeader hfound)) rfl
    · cases htake
  | sharedHeader path =>
    rw [Line.settings, Line.settings, List.append_nil]
    simp only [take?, startShared?, Option.bind_eq_bind, Option.bind_eq_some_iff] at htake
    obtain ⟨t, hsettle, found, hfound, htake⟩ := htake
    obtain ⟨ht, hlog⟩ := h.settle hsettle
    split at htake
    · cases htake
      exact .open ht hlog hfound Table.sound_nil rfl
    · cases htake
      exact .open ht hlog hfound Table.sound_nil rfl
    · cases htake

theorem take?_path {line : Line} (h : d.take? line = some d') (rest : List Line) :
    Line.settings d.path (line :: rest) =
      Line.settings d.path [line] ++ Line.settings d'.path rest := by
  cases line with
  | entry key v =>
    simp only [take?, Option.bind_eq_bind, Option.bind_eq_some_iff] at h
    obtain ⟨current, -, h⟩ := h
    cases h
    rfl
  | header path =>
    simp only [take?, startTable?, Option.bind_eq_bind, Option.bind_eq_some_iff] at h
    obtain ⟨t, -, found, -, h⟩ := h
    split at h <;> cases h <;> rfl
  | sharedHeader path =>
    simp only [take?, startShared?, Option.bind_eq_bind, Option.bind_eq_some_iff] at h
    obtain ⟨t, -, found, -, h⟩ := h
    split at h <;> cases h <;> rfl

/-- The run law: after any lines a draft holds what was held before and what those lines say. -/
theorem Holds.takeAll {lines : List Line} (h : d.Holds log) (hlines : ∀ line ∈ lines, line.Written)
    (htake : lines.foldlM take? d = some d') : d'.Holds (log ++ Line.settings d.path lines) := by
  induction lines generalizing d log with
  | nil =>
    cases htake
    rw [Line.settings, List.append_nil]
    exact h
  | cons line lines ih =>
    rw [List.forall_mem_cons] at hlines
    rw [List.foldlM_cons, Option.bind_eq_bind, Option.bind_eq_some_iff] at htake
    obtain ⟨d₁, hline, hrest⟩ := htake
    rw [take?_path hline, ← List.append_assoc]
    exact ih (h.take hlines.1 hline) hlines.2 hrest

end Draft

/-- A document that is accepted says what its lines say, each once. -/
theorem settings_parse {text : String} {t : Table} (h : parse? text = some t) :
    t.Sound ∧ ∃ lines, lines? text = some lines ∧ t.settings ~ Line.settings [] lines := by
  simp only [parse?, Option.bind_eq_bind, Option.bind_eq_some_iff] at h
  obtain ⟨lines, hlines, d, htake, hsettle⟩ := h
  have hholds := Draft.holds_nil.takeAll (written_lines hlines) htake
  obtain ⟨ht, hperm⟩ := hholds.settle hsettle
  exact ⟨ht, lines, hlines, hperm⟩

end Tiling.Toml
