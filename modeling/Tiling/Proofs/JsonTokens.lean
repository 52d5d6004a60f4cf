import Tiling.Json.Printer
import Tiling.Json.Token
import Tiling.Proofs.Digits
import Mathlib.Data.List.Basic
import Mathlib.Data.List.TakeDrop
import Mathlib.Tactic.IntervalCases

/-!
# Scanning what is printed

A printed string is scanned as one token, and so is a printed number before whatever cannot go on
with it. Each character of a string is written as one piece that names the character, and the digits
of a number are those that the number is read from.
-/

namespace Tiling

namespace Json

open Token

/-! ## 1. Strings -/

def piece (c : Char) : Piece :=
  -- A control character whose escape has no letter is scanned as a code unit.
  if (escapeLetter? c).isNone ∧ c < ' ' then .unit c.toNat else .char c

theorem assemble_piece (acc : List Char) (c : Char) (ps : List Piece) :
    Piece.assemble acc (piece c :: ps) = Piece.assemble (c :: acc) ps := by
  rw [piece]
  split
  · next hc =>
    have hlt : c.toNat < 32 := hc.2
    have hhigh : Piece.isHighSurrogate c.toNat = false := by
      simp [Piece.isHighSurrogate]
      omega
    have hlow : Piece.isLowSurrogate c.toNat = false := by
      simp [Piece.isLowSurrogate]
      omega
    have hofNat : Char.ofNat c.toNat = c := Char.ofNat_toNat c
    cases ps with
    | nil => simp [Piece.assemble, hhigh, hlow, hofNat]
    | cons p ps => cases p <;> simp [Piece.assemble, hhigh, hlow, hofNat]
  · rfl

/-- The pieces of a string, one for each of its characters, assemble to the string. -/
theorem text?_pieces (s : String) : Piece.text? (s.toList.map piece) = some s := by
  have hassemble : ∀ (cs acc : List Char),
      Piece.assemble acc (cs.map piece) = some (cs.reverse ++ acc) := by
    intro cs
    induction cs with
    | nil => intro acc; rfl
    | cons c cs ih =>
      intro acc
      rw [List.map_cons, assemble_piece, ih, List.reverse_cons, List.append_assoc]
      rfl
  rw [Piece.text?, hassemble]
  simp

/-- A control character is read back from the two hexadecimal digits it is written with. -/
theorem hexPair_unit : ∀ n < 32,
    ['0', '0', Nat.digitChar (n / 16), Nat.digitChar (n % 16)].all (Digits.isDigit 16) = true ∧
      Digits.toNat 16 ['0', '0', Nat.digitChar (n / 16), Nat.digitChar (n % 16)] = n := by
  decide

/-- An escaped character scans to its one piece, whatever follows. -/
theorem scanText_escape (acc : List Piece) (c : Char) (cs : List Char) :
    scanText acc ((escape c).toList ++ cs) = scanText (piece c :: acc) cs := by
  rw [escape, piece]
  cases hletter : escapeLetter? c with
  | some letter =>
    simp only [Option.isNone_some, Bool.false_eq_true, false_and, if_false, String.toList_ofList]
    unfold escapeLetter? at hletter
    split at hletter <;> cases hletter <;> rfl
  | none =>
    have hquote : c ≠ '"' := by
      rintro rfl
      exact absurd hletter (by decide)
    have hback : c ≠ '\\' := by
      rintro rfl
      exact absurd hletter (by decide)
    simp only [Option.isNone_none, true_and]
    split
    · next hc =>
      obtain ⟨hdigits, hvalue⟩ := hexPair_unit c.toNat hc
      rw [hexPair, String.toList_append, String.toList_ofList, String.toList_ofList]
      show scanText acc ('\\' :: 'u' :: '0' :: '0' :: _ :: _ :: cs) = _
      rw [scanText, if_pos hdigits, hvalue]
    · next hc =>
      rw [Char.toString, String.toList_singleton, List.singleton_append]
      simp [scanText, hback, hc]

/-- A quoted string scans to its text. -/
theorem scan_quote (s : String) (cs : List Char) :
    scan ((quote s).toList ++ cs) = some (.text (some s), cs) := by
  have htext : ∀ (ds : List Char) (acc : List Piece),
      scanText acc (ds.flatMap (fun c => (escape c).toList) ++ '"' :: cs) =
        some (acc.reverse ++ ds.map piece, cs) := by
    intro ds
    induction ds with
    | nil =>
      intro acc
      simp [scanText]
    | cons d ds ih =>
      intro acc
      rw [List.flatMap_cons, List.append_assoc, scanText_escape, ih]
      simp
  have hquote : (quote s).toList ++ cs =
      '"' :: (s.toList.flatMap (fun c => (escape c).toList) ++ '"' :: cs) := by
    simp [quote, String.toList_join, List.flatMap_map]
  rw [hquote, scan, htext]
  show some (Token.text (Piece.text? (s.toList.map piece)), cs) = _
  rw [text?_pieces]

/-! ## 2. Numbers -/

def Ends (cs : List Char) : Prop :=
  ∀ c ∈ cs.head?, Digits.isDigit 10 c = false ∧ c ≠ '.' ∧ c ≠ 'e' ∧ c ≠ 'E'

/-- Digits are scanned as far as they go. -/
theorem scanDigits_append {ds cs : List Char} (hne : ds ≠ []) (hds : ∀ c ∈ ds, Digits.isDigit 10 c)
    (hcs : ∀ c ∈ cs.head?, Digits.isDigit 10 c = false) :
    scanDigits (ds ++ cs) = some (ds, cs) := by
  have hspan : (ds ++ cs).span (Digits.isDigit 10) = (ds, cs) := by
    rw [List.span_eq_takeWhile_dropWhile, List.takeWhile_append_of_pos hds,
      List.dropWhile_append_of_pos hds]
    cases cs with
    | nil => simp
    | cons c cs =>
      have hc := hcs c rfl
      simp [hc]
  rw [scanDigits, hspan]
  cases ds with
  | nil => exact absurd rfl hne
  | cons d ds => rfl

theorem scan_digit {d : Char} (hd : d.isDigit) (cs : List Char) :
    scan (d :: cs) = (scanNumber false (d :: cs)).map (Prod.map Token.number id) := by
  obtain ⟨k, hk, rfl⟩ := Digits.exists_digitChar hd
  interval_cases k <;> rfl

theorem scanSigned_digit {d : Char} (hd : d.isDigit) (cs : List Char) :
    scanSigned (d :: cs) =
      (scanDigits (d :: cs)).map (Prod.map (fun ds => (Digits.toNat 10 ds : Int)) id) := by
  obtain ⟨k, hk, rfl⟩ := Digits.exists_digitChar hd
  interval_cases k <;> rfl

theorem scanSigned_signed (e : Int) {cs : List Char} (h : Ends cs) :
    scanSigned (Decimal.signChars (e < 0) ++ (Nat.toDigits 10 e.natAbs ++ cs)) = some (e, cs) := by
  have hscan := scanDigits_append Nat.toDigits_ne_nil (Digits.isDigit_toDigits (n := e.natAbs))
    fun c hc => (h c hc).1
  have hvalue := Digits.toNat_toDigits e.natAbs
  rw [Decimal.signChars]
  by_cases he : e < 0
  · rw [if_pos (decide_eq_true he)]
    show (scanDigits (Nat.toDigits 10 e.natAbs ++ cs)).map
      (Prod.map (fun ds => -(Digits.toNat 10 ds : Int)) id) = _
    rw [hscan, Option.map_some, Prod.map_apply, hvalue]
    congr 2
    omega
  · rw [if_neg (by simpa using he), List.nil_append]
    obtain ⟨d, ds, hdigits, hd⟩ := Digits.exists_digit e.natAbs
    rw [hdigits] at hscan hvalue ⊢
    rw [List.cons_append] at hscan ⊢
    rw [scanSigned_digit hd, hscan, Option.map_some, Prod.map_apply, hvalue]
    congr 2
    omega

namespace Literal

/-- Whether a literal is well written: only a single digit before the point may be a zero in
front. -/
structure WellFormed (l : Literal) : Prop where
  whole_ne_nil : l.whole ≠ []
  whole_digits : ∀ c ∈ l.whole, Digits.isDigit 10 c
  whole_head : l.whole.head? = some '0' → l.whole.length = 1
  fraction_digits : ∀ c ∈ l.fraction, Digits.isDigit 10 c

def numeral (negative : Bool) (l : Literal) : Numeral :=
  let kept := withoutLastZeros l.fraction
  ⟨{ negative
     digits := Digits.toNat 10 (l.whole ++ kept)
     exponent := l.exponent.getD 0 - kept.length },
    l.fraction.isEmpty && l.exponent.isNone⟩

end Literal

theorem scanExponent_chars (e : Option Int) {cs : List Char} (h : Ends cs) :
    scanExponent (Literal.exponentChars e ++ cs) = some (e, cs) := by
  cases e with
  | some e =>
    rw [Literal.exponentChars, List.cons_append, List.append_assoc, scanExponent,
      scanSigned_signed e h]
    rfl
  | none =>
    cases cs with
    | nil => rfl
    | cons c cs =>
      have hc := (h c rfl).2.2
      simp [Literal.exponentChars, scanExponent, hc.1, hc.2]

/-- A well-formed literal scans to the numeral it stands for. -/
theorem scanNumber_chars {l : Literal} (hl : l.WellFormed) (negative : Bool) {cs : List Char}
    (h : Ends cs) : scanNumber negative (l.chars ++ cs) = some (l.numeral negative, cs) := by
  have hexponent := scanExponent_chars l.exponent h
  -- what comes behind digits is no digit, and a point only before the fraction
  have hbehind : ∀ c ∈ (Literal.exponentChars l.exponent ++ cs).head?,
      Digits.isDigit 10 c = false ∧ c ≠ '.' := by
    cases l.exponent with
    | none => exact fun c hc => ⟨(h c hc).1, (h c hc).2.1⟩
    | some e =>
      rintro c ⟨⟩
      decide
  have hfraction : scanFraction (Decimal.fractionChars l.fraction ++
      (Literal.exponentChars l.exponent ++ cs)) =
        some (l.fraction, Literal.exponentChars l.exponent ++ cs) := by
    rw [Decimal.fractionChars]
    split
    · next hempty =>
      rw [List.isEmpty_iff.mp hempty, List.nil_append, scanFraction]
      rintro cs hcs
      exact (hbehind '.' (by rw [hcs]; rfl)).2 rfl
    · next hne =>
      exact scanDigits_append (by simpa using hne) hl.fraction_digits fun c hc => (hbehind c hc).1
  have hpoint : ∀ c ∈ (Decimal.fractionChars l.fraction ++
      (Literal.exponentChars l.exponent ++ cs)).head?, Digits.isDigit 10 c = false := by
    rw [Decimal.fractionChars]
    split
    · exact fun c hc => (hbehind c hc).1
    · rintro c ⟨⟩
      decide
  have hwhole := scanDigits_append hl.whole_ne_nil hl.whole_digits hpoint
  have hfront : (l.whole.head? = some '0' && l.whole.length ≠ 1) = false := by
    rw [Bool.and_eq_false_iff, decide_eq_false_iff_not, decide_eq_false_iff_not, not_not]
    exact (em _).symm.imp_right hl.whole_head
  rw [Literal.chars, List.append_assoc, List.append_assoc, scanNumber]
  simp only [hwhole, Option.bind_eq_bind, Option.bind_some, hfront, hfraction, hexponent]
  rfl

/-- Whether nothing of a number is lost in print. An integer literal has no place for an exponent.
Of other numbers the zeros before the point are digits where there is no exponent, and no zero ends
a fraction but the one after a whole number. -/
structure Settled (n : Numeral) : Prop where
  exponent_eq : n.integral → n.decimal.exponent = 0
  fraction : ¬n.integral →
    Numeral.isPositional n.decimal ∧ n.decimal.exponent = 0 ∨
      ¬10 ∣ n.decimal.digits ∧ (Numeral.isPositional n.decimal → n.decimal.exponent < 0)

theorem settled_ofNat (n : Nat) : Settled (.ofNat n) :=
  ⟨fun _ => rfl, fun h => absurd rfl h⟩

/-- The zeros that end a fraction are dropped, if there are any. -/
theorem withoutLastZeros_eq_self {ds : List Char} (h : ds.getLast? ≠ some '0') :
    withoutLastZeros ds = ds := by
  rw [withoutLastZeros]
  rw [← List.head?_reverse] at h
  cases hds : ds.reverse with
  | nil => simpa using hds.symm
  | cons d rest =>
    rw [hds, List.head?_cons, ne_eq, Option.some.injEq] at h
    rw [List.dropWhile_cons_of_neg (by simpa using h), ← hds, List.reverse_reverse]

/-- Only a multiple of ten ends in a zero. -/
theorem getLast?_toDigits {n : Nat} (h : ¬10 ∣ n) :
    (Nat.toDigits 10 n).getLast? ≠ some '0' := by
  intro hlast
  refine h (Nat.dvd_of_mod_eq_zero (Nat.digitChar_eq_zero.mp ?_))
  rcases Nat.lt_or_ge n 10 with hlt | hge
  · rw [Nat.toDigits_of_lt_base hlt] at hlast
    rw [Nat.mod_eq_of_lt hlt]
    simpa using hlast
  · rw [Nat.toDigits_of_base_le (by norm_num) hge] at hlast
    simpa using hlast

theorem toNat_append_zeros (k : Nat) (ds : List Char) :
    Digits.toNat 10 (List.replicate k '0' ++ ds) = Digits.toNat 10 ds := by
  induction k with
  | zero => rfl
  | succ k ih => exact ih

/-- A zero at the front is the whole number. -/
theorem length_head_toDigits {n : Nat} (h : (Nat.toDigits 10 n).head? = some '0') :
    (Nat.toDigits 10 n).length = 1 := by
  rw [Digits.eq_zero_of_head?_toDigits h]
  rfl

theorem wellFormed_whole (n : Nat) {fraction : List Char} (e : Option Int)
    (hfraction : ∀ c ∈ fraction, Digits.isDigit 10 c) :
    Literal.WellFormed ⟨Nat.toDigits 10 n, fraction, e⟩ :=
  ⟨Nat.toDigits_ne_nil, Digits.isDigit_toDigits, length_head_toDigits, hfraction⟩

/-- Digits with a point among them. -/
theorem literal_split {ds : List Char} {point : Nat} (hds : ∀ c ∈ ds, Digits.isDigit 10 c)
    (hlast : ds.getLast? ≠ some '0') (hpos : 0 < point) (hpoint : point < ds.length)
    (hhead : ds.head? = some '0' → point = 1) (negative : Bool) :
    Literal.WellFormed ⟨ds.take point, ds.drop point, none⟩ ∧ ds.drop point ≠ [] ∧
      Literal.numeral negative ⟨ds.take point, ds.drop point, none⟩ =
        ⟨⟨negative, Digits.toNat 10 ds, -(ds.length - point : Nat)⟩, false⟩ := by
  have hsplit : ds.take point ++ ds.drop point = ds := List.take_append_drop _ _
  have hwhole : (ds.take point).length = point := List.length_take_of_le hpoint.le
  have hwhole_ne : ds.take point ≠ [] := by
    rw [← List.length_pos_iff]
    omega
  have hfraction_ne : ds.drop point ≠ [] := by
    rw [← List.length_pos_iff, List.length_drop]
    omega
  have hkept : withoutLastZeros (ds.drop point) = ds.drop point := by
    refine withoutLastZeros_eq_self ?_
    rwa [← hsplit, List.getLast?_append_of_ne_nil _ hfraction_ne] at hlast
  refine ⟨⟨hwhole_ne, fun c hc => hds c (List.mem_of_mem_take hc), fun hzero => ?_,
    fun c hc => hds c (List.mem_of_mem_drop hc)⟩, hfraction_ne, ?_⟩
  · rw [List.head?_take, if_neg hpos.ne'] at hzero
    exact hwhole.trans (hhead hzero)
  · simp [Literal.numeral, hkept, hsplit, hfraction_ne]

/-- A fraction has as many digits as the exponent says, below enough zeros for a digit before the
point. -/
theorem literal_atPoint {d : Decimal} (hexponent : d.exponent < 0) (hlast : ¬10 ∣ d.digits) :
    Literal.WellFormed ⟨d.atPoint.1, d.atPoint.2, none⟩ ∧ d.atPoint.2 ≠ [] ∧
      Literal.numeral d.negative ⟨d.atPoint.1, d.atPoint.2, none⟩ = ⟨d, false⟩ := by
  obtain ⟨negative, n, e⟩ := d
  simp only at hexponent hlast
  obtain ⟨places, hplaces⟩ := Int.eq_ofNat_of_zero_le (a := -e) (by omega)
  rw [Decimal.atPoint]
  simp only [if_neg (not_le.mpr hexponent), show e.natAbs = places by omega, List.splitAt_eq]
  generalize hzeros : places + 1 - (Nat.toDigits 10 n).length = zeros
  have hpositive := Nat.length_toDigits_pos (b := 10) (n := n)
  have hlength : (List.replicate zeros '0' ++ Nat.toDigits 10 n).length =
      zeros + (Nat.toDigits 10 n).length := by simp
  have hdigits : ∀ c ∈ List.replicate zeros '0' ++ Nat.toDigits 10 n, Digits.isDigit 10 c := by
    refine List.forall_mem_append.mpr ⟨fun c hc => ?_, Digits.isDigit_toDigits⟩
    rw [List.eq_of_mem_replicate hc]
    decide
  have hend : (List.replicate zeros '0' ++ Nat.toDigits 10 n).getLast? ≠ some '0' := by
    rw [List.getLast?_append_of_ne_nil _ Nat.toDigits_ne_nil]
    exact getLast?_toDigits hlast
  -- a zero stands in front only where zeros were put there
  have hhead : (List.replicate zeros '0' ++ Nat.toDigits 10 n).head? = some '0' →
      (List.replicate zeros '0' ++ Nat.toDigits 10 n).length - places = 1 := by
    intro hzero
    rcases Nat.eq_zero_or_pos zeros with rfl | hpos
    · exact absurd (Digits.eq_zero_of_head?_toDigits hzero ▸ dvd_zero 10) hlast
    · omega
  obtain ⟨hformed, hne, hnumeral⟩ :=
    literal_split hdigits hend (by omega) (by omega) hhead negative
  refine ⟨hformed, hne, hnumeral.trans ?_⟩
  rw [toNat_append_zeros, Digits.toNat_toDigits]
  congr 2
  omega

/-- The literal that is printed is well written and reads as the number. -/
theorem literal_wellFormed {n : Numeral} (hn : Settled n) :
    (literal n).WellFormed ∧ (literal n).numeral n.decimal.negative = n := by
  obtain ⟨⟨negative, digits, exponent⟩, integral⟩ := n
  have hexponent := hn.exponent_eq
  have hfraction := hn.fraction
  simp only at hexponent hfraction ⊢
  rw [literal]
  cases integral with
  | true =>
    obtain rfl := hexponent rfl
    refine ⟨wellFormed_whole _ _ (List.forall_mem_nil _), ?_⟩
    simp [Literal.numeral, withoutLastZeros, Digits.toNat_toDigits]
  | false =>
    simp only [Bool.false_eq_true, if_false, not_false_eq_true, forall_const] at hfraction ⊢
    rcases hfraction with ⟨hpositional, rfl⟩ | ⟨hlast, hnegative⟩
    · have hpoint : Decimal.atPoint ⟨negative, digits, 0⟩ = (Nat.toDigits 10 digits, []) := by
        simp [Decimal.atPoint]
      rw [if_pos hpositional, hpoint]
      have hzero : ∀ c ∈ ['0'], Digits.isDigit 10 c := List.forall_mem_singleton.mpr (by decide)
      refine ⟨wellFormed_whole _ _ hzero, ?_⟩
      simp [Literal.numeral, withoutLastZeros, Digits.toNat_toDigits]
    · split
      · next hpositional =>
        obtain ⟨hformed, hne, hnumeral⟩ := literal_atPoint
          (d := ⟨negative, digits, exponent⟩) (hnegative hpositional) hlast
        simp only [List.isEmpty_iff, hne, if_false]
        exact ⟨hformed, hnumeral⟩
      · obtain ⟨d, ds, hds, hd⟩ := Digits.exists_digit digits
        have hisDigit := Digits.isDigit_toDigits (n := digits)
        have hvalue := Digits.toNat_toDigits digits
        have hend := getLast?_toDigits hlast
        rw [Decimal.magnitude]
        simp only [hds, List.take_succ_cons, List.take_zero, List.drop_succ_cons, List.drop_zero,
          List.length_cons] at hisDigit hvalue hend ⊢
        rw [List.forall_mem_cons] at hisDigit
        have hkept : withoutLastZeros ds = ds := by
          refine withoutLastZeros_eq_self fun hzero => hend ?_
          cases ds with
          | nil => cases hzero
          | cons e ds => rwa [List.getLast?_cons_cons]
        refine ⟨⟨by simp, by simpa using hisDigit.1, fun _ => rfl, hisDigit.2⟩, ?_⟩
        simp [Literal.numeral, hkept, hvalue]
        omega

/-- A printed number scans to the number. -/
theorem scan_printNumber {n : Numeral} (hn : Settled n) {cs : List Char} (h : Ends cs) :
    scan ((printNumber n).toList ++ cs) = some (.number n, cs) := by
  obtain ⟨hformed, hnumeral⟩ := literal_wellFormed hn
  have hnumber := scanNumber_chars hformed n.decimal.negative h
  rw [hnumeral] at hnumber
  rw [printNumber, String.toList_ofList]
  cases hnegative : n.decimal.negative with
  | true =>
    rw [hnegative] at hnumber
    show (scanNumber true ((literal n).chars ++ cs)).map (Prod.map Token.number id) = _
    rw [hnumber]
    rfl
  | false =>
    rw [hnegative] at hnumber
    obtain ⟨d, ds, hwhole⟩ := List.exists_cons_of_ne_nil hformed.whole_ne_nil
    have hd := Digits.isDigit_iff.mp (hformed.whole_digits d (hwhole ▸ List.mem_cons_self))
    show scan ((literal n).chars ++ cs) = _
    rw [Literal.chars, hwhole, List.cons_append, List.cons_append] at hnumber ⊢
    rw [scan_digit hd, hnumber]
    rfl

end Json

end Tiling
