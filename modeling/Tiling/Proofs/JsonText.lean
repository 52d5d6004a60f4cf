import Tiling.Json.Parser
import Tiling.Proofs.JsonTokens
import Mathlib.Data.List.Forall2

/-!
# Parsing what is printed

The tokens of a printed value are scanned one after the other, and the parser makes the value out of
them again, inside of whatever containers are open around it.
-/

namespace Tiling.Json

open Token

/-! ## 1. Printed values -/

/-- The values of which nothing is lost in print. A value that names no text would be printed as
null. -/
inductive Printable : Json → Prop where
  | null : Printable .null
  | bool (b : Bool) : Printable (.bool b)
  | number (n : Numeral) (h : Settled n) : Printable (.number n)
  | string (s : String) : Printable (.string s)
  | array (items : List Json) (h : ∀ j ∈ items, Printable j) : Printable (.array items)
  | object (fields : List (String × Json)) (h : ∀ f ∈ fields, Printable f.2) :
      Printable (.object fields)

def separated (tss : List (List Token)) : List Token :=
  [Token.comma].intercalate tss

mutual

def tokens : Json → List Token
  | null | unreadable => [.null]
  | bool b => [.bool b]
  | number n => [.number n]
  | string s => [.text (some s)]
  | array items => .openArray :: (separated (tokensOfItems items) ++ [.closeArray])
  | object fields => .openObject :: (separated (tokensOfFields fields) ++ [.closeObject])

def tokensOfItems : List Json → List (List Token)
  | [] => []
  | j :: js => j.tokens :: tokensOfItems js

def tokensOfFields : List (String × Json) → List (List Token)
  | [] => []
  | (name, j) :: fs => (.text (some name) :: .colon :: j.tokens) :: tokensOfFields fs

end

theorem tokensOfItems_eq (items : List Json) : tokensOfItems items = items.map tokens := by
  induction items with
  | nil => rfl
  | cons j js ih => rw [tokensOfItems, ih, List.map_cons]

theorem tokensOfFields_eq (fields : List (String × Json)) :
    tokensOfFields fields = fields.map fun f => .text (some f.1) :: .colon :: f.2.tokens := by
  induction fields with
  | nil => rfl
  | cons f fs ih => rw [tokensOfFields, ih, List.map_cons]

theorem printItems_eq (items : List Json) : printItems items = items.map print := by
  induction items with
  | nil => rfl
  | cons j js ih => rw [printItems, ih, List.map_cons]

theorem printFields_eq (fields : List (String × Json)) :
    printFields fields = fields.map fun f => quote f.1 ++ ":" ++ f.2.print := by
  induction fields with
  | nil => rfl
  | cons f fs ih => rw [printFields, ih, List.map_cons]

theorem intercalate_cons {α : Type} (comma : α) (xs : List α) (xss : List (List α)) :
    [comma].intercalate (xs :: xss) = xs ++ xss.flatMap (comma :: ·) := by
  induction xss generalizing xs with
  | nil => simp
  | cons ys yss ih => rw [List.intercalate_cons_cons, ih, List.flatMap_cons]; simp

/-! ## 2. Scanning -/

/-- Whether a text consists of these tokens, with as many rounds as it has characters. -/
def Lexes (cs : List Char) (ts : List Token) : Prop :=
  ∀ rounds acc, cs.length ≤ rounds → scanAll rounds acc cs = some (acc.reverse ++ ts)

theorem lexes_nil : Lexes [] [] := by
  intro rounds acc _
  cases rounds <;> simp [scanAll]

/-- A token starts where blanks end. -/
theorem isBlank_of_scan {c : Char} {cs : List Char} {r : Token × List Char}
    (h : scan (c :: cs) = some r) : isBlank c = false := by
  rw [Bool.eq_false_iff]
  intro hblank
  have hnone : scan (c :: cs) = none := by
    rw [isBlank, Bool.or_eq_true, Bool.or_eq_true, Bool.or_eq_true] at hblank
    simp only [decide_eq_true_iff] at hblank
    obtain ((rfl | rfl) | rfl) | rfl := hblank <;> rfl
  rw [hnone] at h
  cases h

theorem Lexes.cons (ds : List Char) {cs : List Char} {t : Token} {ts : List Token} (h : Lexes cs ts)
    (hscan : scan (ds ++ cs) = some (t, cs)) (hne : ds ≠ []) : Lexes (ds ++ cs) (t :: ts) := by
  intro rounds acc hrounds
  obtain ⟨c, ds, rfl⟩ := List.exists_cons_of_ne_nil hne
  cases rounds with
  | zero => cases hrounds
  | succ rounds =>
    have hnext : cs.length ≤ rounds := by
      rw [List.length_append, List.length_cons] at hrounds
      omega
    rw [List.cons_append] at hscan ⊢
    rw [scanAll]
    simp only [isBlank_of_scan hscan, hscan, h rounds (t :: acc) hnext]
    simp

def Follows (cs : List Char) : Prop :=
  ∀ c ∈ cs.head?, c = ',' ∨ c = ']' ∨ c = '\x7d'

theorem follows_nil : Follows [] := by
  rintro c ⟨⟩

/-- What may follow a value ends a number too. -/
theorem Follows.ends {cs : List Char} (h : Follows cs) : Ends cs := by
  intro c hc
  obtain rfl | rfl | rfl := h c hc <;> decide

theorem Follows.append {rest : List Char} (h : Follows rest) (css : List (List Char)) :
    Follows (css.flatMap (',' :: ·) ++ rest) := by
  cases css with
  | nil => exact h
  | cons cs css =>
    rintro c ⟨⟩
    exact .inl rfl

/-- Whether these characters stand for these tokens before whatever may come after a value. -/
def Spells (cs : List Char) (ts : List Token) : Prop :=
  ∀ rest us, Follows rest → Lexes rest us → Lexes (cs ++ rest) (ts ++ us)

theorem spells_token {cs : List Char} {t : Token}
    (hscan : ∀ rest, Follows rest → scan (cs ++ rest) = some (t, rest)) (hne : cs ≠ []) :
    Spells cs [t] :=
  fun rest _ hfollows hrest => hrest.cons cs (hscan rest hfollows) hne

/-- Texts that spell their tokens do so still with commas between them. -/
theorem spells_separated {css : List (List Char)} {tss : List (List Token)}
    (h : List.Forall₂ Spells css tss) : Spells ([','].intercalate css) (separated tss) := by
  cases h with
  | nil => exact fun rest us _ hrest => hrest
  | @cons cs ts css tss hfirst hothers =>
    -- behind the first value every value has a comma in front, which may follow a value
    have hrow : Spells (css.flatMap (',' :: ·)) (tss.flatMap (Token.comma :: ·)) := by
      clear hfirst
      induction hothers with
      | nil => exact fun rest us _ hrest => hrest
      | cons hcs _ ih =>
        intro rest us hfollows hrest
        rw [List.flatMap_cons, List.flatMap_cons, List.append_assoc, List.append_assoc]
        have hnext := hcs _ _ (hfollows.append _) (ih rest us hfollows hrest)
        exact hnext.cons [','] rfl (by simp)
    rw [separated, intercalate_cons, intercalate_cons]
    intro rest us hfollows hrest
    rw [List.append_assoc, List.append_assoc]
    exact hfirst _ _ (hfollows.append _) (hrow rest us hfollows hrest)

/-- A container: what it holds between its opening and its closing character. -/
theorem spells_container (first last : Char) {opening closing : Token}
    (hfirst : ∀ rest, scan (first :: rest) = some (opening, rest))
    (hlast : ∀ rest, scan (last :: rest) = some (closing, rest)) (hends : Follows [last])
    {css : List (List Char)} {tss : List (List Token)} (h : List.Forall₂ Spells css tss) :
    Spells (first :: ([','].intercalate css ++ [last]))
      (opening :: (separated tss ++ [closing])) := by
  intro rest us _ hrest
  have hclosed : Lexes (last :: rest) (closing :: us) :=
    hrest.cons [last] (hlast rest) (by simp)
  have hheld := spells_separated h (last :: rest) (closing :: us) hends hclosed
  have hopened := hheld.cons [first] (hfirst _) (by simp)
  simpa using hopened

theorem printNumber_ne_nil {n : Numeral} (hn : Settled n) : (printNumber n).toList ≠ [] := by
  have hwhole := (literal_wellFormed hn).1.whole_ne_nil
  rw [printNumber, String.toList_ofList, Literal.chars]
  exact List.append_ne_nil_of_right_ne_nil _ (List.append_ne_nil_of_left_ne_nil hwhole _)

theorem quote_ne_nil (s : String) : (quote s).toList ≠ [] := by
  rw [quote, String.toList_append, String.toList_append, List.append_assoc]
  exact List.cons_ne_nil _ _

/-- The printed text of a value spells exactly the tokens of the value. -/
theorem spells_print {j : Json} (h : Printable j) : Spells j.print.toList j.tokens := by
  induction h with
  | null => exact spells_token (fun rest _ => rfl) (by decide)
  | bool b =>
    rw [print, tokens]
    cases b <;> exact spells_token (fun rest _ => rfl) (by decide)
  | number n hn =>
    rw [print, tokens]
    exact spells_token (fun rest hrest => scan_printNumber hn hrest.ends) (printNumber_ne_nil hn)
  | string s =>
    rw [print, tokens]
    exact spells_token (fun rest _ => scan_quote s rest) (quote_ne_nil s)
  | array items _ ih =>
    have hitems : List.Forall₂ Spells ((items.map print).map String.toList) (items.map tokens) := by
      rw [List.map_map, List.forall₂_map_left_iff, List.forall₂_map_right_iff, List.forall₂_same]
      exact ih
    have hspells := spells_container '[' ']' (fun _ => rfl) (fun _ => rfl)
      (by simp [Follows]) hitems
    rw [print, tokens, printItems_eq, tokensOfItems_eq]
    simpa [String.toList_append, String.toList_intercalate] using hspells
  | object fields _ ih =>
    have hfields : List.Forall₂ Spells
        ((fields.map fun f => quote f.1 ++ ":" ++ f.2.print).map String.toList)
        (fields.map fun f => .text (some f.1) :: .colon :: f.2.tokens) := by
      rw [List.map_map, List.forall₂_map_left_iff, List.forall₂_map_right_iff, List.forall₂_same]
      intro f hf rest us hfollows hrest
      -- a field is built from behind: its value, the colon, its name
      have hcolon := (ih f hf rest us hfollows hrest).cons [':'] rfl (by simp)
      have hname := hcolon.cons _ (scan_quote f.1 _) (quote_ne_nil f.1)
      simpa [String.toList_append] using hname
    have hspells := spells_container '\x7b' '\x7d' (fun _ => rfl)
      (fun _ => rfl) (by simp [Follows]) hfields
    rw [print, tokens, printFields_eq, tokensOfFields_eq]
    simpa [String.toList_append, String.toList_intercalate] using hspells

/-! ## 3. Parsing -/

/-- Whether the parser makes this value out of these tokens, wherever a value may stand. -/
def Makes (ts : List Token) (j : Json) : Prop :=
  ∀ opened due, due = .value ∨ due = .itemOrEnd →
    ts.foldlM Parser.step { opened, due } = Parser.put j opened

theorem foldlM_items {items : List Json} (h : ∀ j ∈ items, Makes j.tokens j) (opened : List Open)
    (acc : List Json) :
    ((items.map tokens).flatMap (Token.comma :: ·)).foldlM Parser.step
        { opened := .array acc :: opened, due := .commaOrEnd } =
      some { opened := .array (items.reverse ++ acc) :: opened, due := .commaOrEnd } := by
  induction items generalizing acc with
  | nil => rfl
  | cons j js ih =>
    rw [List.map_cons, List.flatMap_cons, List.foldlM_append, List.foldlM_cons]
    have hmake := h j List.mem_cons_self (.array acc :: opened) .value (.inl rfl)
    show (j.tokens.foldlM Parser.step _).bind _ = _
    rw [hmake]
    have hrest := ih (fun j hj => h j (List.mem_cons_of_mem _ hj)) (j :: acc)
    rw [List.reverse_cons, List.append_assoc]
    exact hrest

/-- Behind the items either the array ends at once or another item would need a comma. -/
theorem foldlM_separated_items {items : List Json} (h : ∀ j ∈ items, Makes j.tokens j)
    (opened : List Open) : ∃ due, (due = .itemOrEnd ∨ due = .commaOrEnd) ∧
      (separated (items.map tokens)).foldlM Parser.step
          { opened := .array [] :: opened, due := .itemOrEnd } =
        some { opened := .array items.reverse :: opened, due } := by
  cases items with
  | nil => exact ⟨.itemOrEnd, .inl rfl, rfl⟩
  | cons j js =>
    have hfirst := h j List.mem_cons_self (.array [] :: opened) .itemOrEnd (.inr rfl)
    have hothers := foldlM_items (fun j hj => h j (List.mem_cons_of_mem _ hj)) opened [j]
    refine ⟨.commaOrEnd, .inr rfl, ?_⟩
    rw [List.map_cons, separated, intercalate_cons, List.foldlM_append, hfirst, List.reverse_cons]
    exact hothers

/-- A field name, the colon behind it and the field's value. -/
theorem foldlM_field {ts : List Token} {j : Json} (h : Makes ts j) (name : String)
    (opened : List Open) (acc : List (Option String × Json)) {due : Due}
    (hdue : due = .name ∨ due = .nameOrEnd) :
    (Token.text (some name) :: .colon :: ts).foldlM Parser.step
        { opened := .object acc :: opened, due } =
      some { opened := .object ((some name, j) :: acc) :: opened, due := .commaOrEnd } := by
  have hmake := h (.field (some name) acc :: opened) .value (.inl rfl)
  obtain rfl | rfl := hdue <;> exact hmake

/-- A run over further fields takes them all into the object that is open. -/
theorem foldlM_fields {fields : List (String × Json)} (h : ∀ f ∈ fields, Makes f.2.tokens f.2)
    (opened : List Open) (acc : List (Option String × Json)) :
    ((fields.map fun f => .text (some f.1) :: .colon :: f.2.tokens).flatMap
        (Token.comma :: ·)).foldlM Parser.step
        { opened := .object acc :: opened, due := .commaOrEnd } =
      some { opened := .object ((fields.map (Prod.map some id)).reverse ++ acc) :: opened
             due := .commaOrEnd } := by
  induction fields generalizing acc with
  | nil => rfl
  | cons f fs ih =>
    rw [List.map_cons, List.flatMap_cons, List.foldlM_append, List.foldlM_cons]
    have hfield := foldlM_field (h f List.mem_cons_self) f.1 opened acc (.inl rfl)
    show (List.foldlM Parser.step _ _).bind _ = _
    rw [hfield]
    have hrest := ih (fun f hf => h f (List.mem_cons_of_mem _ hf)) ((some f.1, f.2) :: acc)
    rw [List.map_cons, List.reverse_cons, List.append_assoc]
    exact hrest

theorem foldlM_separated_fields {fields : List (String × Json)}
    (h : ∀ f ∈ fields, Makes f.2.tokens f.2) (opened : List Open) :
    ∃ due, (due = .nameOrEnd ∨ due = .commaOrEnd) ∧
      (separated (fields.map fun f => .text (some f.1) :: .colon :: f.2.tokens)).foldlM Parser.step
          { opened := .object [] :: opened, due := .nameOrEnd } =
        some { opened := .object (fields.map (Prod.map some id)).reverse :: opened, due } := by
  cases fields with
  | nil => exact ⟨.nameOrEnd, .inl rfl, rfl⟩
  | cons f fs =>
    have hfirst := foldlM_field (h f List.mem_cons_self) f.1 opened [] (.inr rfl)
    have hothers := foldlM_fields (fun g hg => h g (List.mem_cons_of_mem _ hg)) opened
      [(some f.1, f.2)]
    refine ⟨.commaOrEnd, .inr rfl, ?_⟩
    rw [List.map_cons, separated, intercalate_cons, List.foldlM_append, hfirst, List.map_cons,
      List.reverse_cons]
    exact hothers

theorem close_some (fields : List (String × Json)) :
    Parser.close (fields.map (Prod.map some id)).reverse = .object fields := by
  have hnames : (fields.map (Prod.map some id)).mapM
      (fun f => f.1.map (fun name => (name, f.2))) = some fields := by
    induction fields with
    | nil => rfl
    | cons f fs ih => simp [ih]
  rw [Parser.close, List.reverse_reverse, hnames]

/-- The parser, given the tokens of a value, makes that value. -/
theorem makes_tokens {j : Json} (h : Printable j) : Makes j.tokens j := by
  induction h with
  | null | bool | number | string =>
    rintro opened due (rfl | rfl) <;> exact Option.bind_fun_some _
  | array items _ ih =>
    intro opened due hdue
    have hbegin : Parser.step { opened, due } .openArray =
        some { opened := .array [] :: opened, due := .itemOrEnd } := by
      obtain rfl | rfl := hdue <;> rfl
    obtain ⟨due, hend, hitems⟩ := foldlM_separated_items ih opened
    have hclose : Parser.step { opened := .array items.reverse :: opened, due } .closeArray =
        Parser.put (.array items.reverse.reverse) opened := by
      obtain rfl | rfl := hend <;> rfl
    simp only [tokens, tokensOfItems_eq, List.foldlM_cons, List.foldlM_append, List.foldlM_nil,
      hbegin, Option.bind_eq_bind, Option.bind_some, hitems, hclose, List.reverse_reverse]
    exact Option.bind_fun_some _
  | object fields _ ih =>
    intro opened due hdue
    have hbegin : Parser.step { opened, due } .openObject =
        some { opened := .object [] :: opened, due := .nameOrEnd } := by
      obtain rfl | rfl := hdue <;> rfl
    obtain ⟨due, hend, hfields⟩ := foldlM_separated_fields ih opened
    have hclose : Parser.step
          { opened := .object (fields.map (Prod.map some id)).reverse :: opened, due }
          .closeObject =
        Parser.put (Parser.close (fields.map (Prod.map some id)).reverse) opened := by
      obtain rfl | rfl := hend <;> rfl
    simp only [tokens, tokensOfFields_eq, List.foldlM_cons, List.foldlM_append, List.foldlM_nil,
      hbegin, Option.bind_eq_bind, Option.bind_some, hfields, hclose, close_some]
    exact Option.bind_fun_some _

/-- Printing a value and parsing the text gives the value back. -/
theorem parse?_print {j : Json} (h : Printable j) : parse? j.print = some j := by
  have hlexes := spells_print h [] [] follows_nil lexes_nil
  rw [List.append_nil, List.append_nil] at hlexes
  have htokens : Token.ofText? j.print = some j.tokens := hlexes _ _ le_rfl
  have hmakes := makes_tokens h [] .value (.inl rfl)
  rw [parse?, htokens, Option.bind_some, Parser.run]
  show (j.tokens.foldlM Parser.step { opened := [], due := .value }).bind _ = _
  rw [hmakes]
  rfl

end Tiling.Json
