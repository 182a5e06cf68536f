import Mathlib.Data.List.TakeWhile
import Lox.Number.Reading
import Lox.Proofs.Number.Rounding

/-!
# Printed numbers

The text of a finite number denotes a fraction that rounds to it, in each of the three
ways in which numbers are written: whole, with a point, and with an exponent. So no two
finite numbers are written alike.
-/

namespace Lox.Number

/-! ### Digits -/

theorem naturalOf_eq (digits : List Char) : naturalOf digits = Nat.ofDigitChars 10 digits 0 :=
  Nat.ofDigitChars_eq_foldl.symm

@[simp] theorem naturalOf_digitsOf (n : Nat) : naturalOf (digitsOf n) = n := by
  rw [naturalOf_eq]
  exact Nat.ofDigitChars_ten_toDigits

/-- A zero more at the end is ten times the number. -/
theorem naturalOf_append_zero (digits : List Char) :
    naturalOf (digits ++ ['0']) = naturalOf digits * 10 := by
  simp [naturalOf, digitValue, Nat.mul_comm]

/-- Zeros at the beginning do not count. -/
theorem naturalOf_replicate_append (zeros : Nat) (digits : List Char) :
    naturalOf (List.replicate zeros '0' ++ digits) = naturalOf digits := by
  simp only [naturalOf_eq, Nat.ofDigitChars_append, Nat.ofDigitChars_replicate_zero, Nat.mul_zero]

theorem isDigit_of_mem_digitsOf {n : Nat} {c : Char} (h : c ∈ digitsOf n) : c.isDigit :=
  Nat.isDigit_of_mem_toDigits (by decide) (by decide) h

theorem digitsOf_ne_nil (n : Nat) : digitsOf n ≠ [] := Nat.toDigits_ne_nil

/-- A number is written with digits only. -/
theorem not_mem_digitsOf {c : Char} (hc : c.isDigit = false) (n : Nat) : c ∉ digitsOf n := by
  intro h
  rw [isDigit_of_mem_digitsOf h] at hc
  contradiction

/-! ### Fractions -/

section

variable {c : Char} {xs : List Char}

/-- All characters of a text differ from one that is not in it. -/
theorem forall_ne (h : c ∉ xs) : ∀ d ∈ xs, decide (d ≠ c) = true := by
  intro d hd
  have hne : d ≠ c := fun heq => h (heq ▸ hd)
  simpa using hne

/-- What is before a mark is taken up to it. -/
theorem takeWhile_ne (h : c ∉ xs) (ys : List Char) : (xs ++ c :: ys).takeWhile (· ≠ c) = xs := by
  rw [List.takeWhile_append_of_pos (forall_ne h), List.takeWhile_cons_of_neg (by simp),
    List.append_nil]

/-- What is from the mark on is left. -/
theorem dropWhile_ne (h : c ∉ xs) (ys : List Char) :
    (xs ++ c :: ys).dropWhile (· ≠ c) = c :: ys := by
  rw [List.dropWhile_append_of_pos (forall_ne h), List.dropWhile_cons_of_neg (by simp)]

/-- Without the mark everything is taken. -/
theorem takeWhile_ne_self (h : c ∉ xs) : xs.takeWhile (· ≠ c) = xs :=
  List.takeWhile_eq_self_iff.mpr (forall_ne h)

/-- Without the mark nothing is left. -/
theorem dropWhile_ne_self (h : c ∉ xs) : xs.dropWhile (· ≠ c) = [] :=
  List.dropWhile_eq_nil_iff.mpr (forall_ne h)

end

/-- A text without a point is a whole number. -/
theorem fractionOf_whole {whole : List Char} (h : '.' ∉ whole) :
    fractionOf whole = (naturalOf whole, 1) := by
  simp only [fractionOf, takeWhile_ne_self h, dropWhile_ne_self h, List.drop_nil, List.append_nil,
    List.length_nil, Nat.pow_eq, Nat.pow_zero]

/-- A text with a point is its digits over a power of ten. -/
theorem fractionOf_decimal {whole : List Char} (h : '.' ∉ whole) (decimals : List Char) :
    fractionOf (whole ++ '.' :: decimals) =
      (naturalOf (whole ++ decimals), 10 ^ decimals.length) := by
  simp only [fractionOf, takeWhile_ne h, dropWhile_ne h, List.drop_succ_cons, List.drop_zero,
    Nat.pow_eq]

/-- The power of ten that a text denotes, as a factor above or below. -/
def powerOf : List Char → Nat × Nat
  | '-' :: digits => (1, 10 ^ naturalOf digits)
  | digits => (10 ^ naturalOf digits, 1)

/-- The fraction that a printed number without its sign denotes: that of its mantissa, times the
power of ten after the mark, if there is one. -/
def denoted (text : List Char) : Nat × Nat :=
  let mantissa := fractionOf (text.takeWhile (· ≠ 'E'))
  let power := powerOf ((text.dropWhile (· ≠ 'E')).drop 1)
  (mantissa.1 * power.1, mantissa.2 * power.2)

/-- An exponent without a sign is a power of ten. -/
theorem powerOf_digits {digits : List Char} (h : '-' ∉ digits) :
    powerOf digits = (10 ^ naturalOf digits, 1) := by
  unfold powerOf
  split
  · exact absurd List.mem_cons_self h
  · rfl

/-- A text without an exponent denotes its fraction. -/
theorem denoted_plain {text : List Char} (h : 'E' ∉ text) : denoted text = fractionOf text := by
  have hone : powerOf [] = (1, 1) := powerOf_digits List.not_mem_nil
  simp only [denoted, takeWhile_ne_self h, dropWhile_ne_self h, List.drop_nil, hone, Nat.mul_one]

/-- A text with an exponent denotes its fraction times the power. -/
theorem denoted_exponent {mantissa : List Char} (h : 'E' ∉ mantissa) (exponent : List Char) :
    denoted (mantissa ++ 'E' :: exponent) =
      ((fractionOf mantissa).1 * (powerOf exponent).1,
        (fractionOf mantissa).2 * (powerOf exponent).2) := by
  simp only [denoted, takeWhile_ne h, dropWhile_ne h, List.drop_succ_cons, List.drop_zero]

/-- The power of ten of a whole exponent. -/
theorem powerOf_signed (exponent : Int) :
    powerOf (signOf (exponent < 0) ++ digitsOf exponent.natAbs) =
      (10 ^ exponent.toNat, 10 ^ (-exponent).toNat) := by
  by_cases h : exponent < 0
  · have hpositive : exponent.toNat = 0 := by omega
    have hnegative : exponent.natAbs = (-exponent).toNat := by omega
    simp [signOf, h, powerOf, hpositive, hnegative]
  · have hpositive : exponent.natAbs = exponent.toNat := by omega
    have hnegative : (-exponent).toNat = 0 := by omega
    have hsign : '-' ∉ digitsOf exponent.toNat := not_mem_digitsOf rfl _
    simp [signOf, h, powerOf_digits hsign, hpositive, hnegative]

/-! ### Layouts -/

/-- Digits, at least one. -/
structure AreDigits (text : List Char) : Prop where
  ne_nil : text ≠ []
  isDigit : ∀ c ∈ text, c.isDigit

theorem areDigits_zero : AreDigits ['0'] :=
  ⟨List.cons_ne_nil _ _, List.forall_mem_singleton.mpr rfl⟩

namespace AreDigits

variable {text : List Char}

/-- Digits are no other characters. -/
theorem not_mem (h : AreDigits text) {c : Char} (hc : c.isDigit = false) : c ∉ text := by
  intro hmem
  rw [h.isDigit c hmem] at hc
  contradiction

theorem not_mem_point {decimals : List Char} (h : AreDigits text) (hd : AreDigits decimals)
    {c : Char} (hc : c.isDigit = false) (hne : c ≠ '.') : c ∉ text ++ '.' :: decimals := by
  rw [List.mem_append, not_or]
  exact ⟨h.not_mem hc, List.not_mem_cons_of_ne_of_not_mem hne (hd.not_mem hc)⟩

end AreDigits

theorem areDigits_digitsOf (n : Nat) : AreDigits (digitsOf n) :=
  ⟨digitsOf_ne_nil n, fun _ => isDigit_of_mem_digitsOf⟩

/-- A decimal with digits after the point is written with the point among its digits, after zeros if
there are too few of them. -/
theorem Decimal.exists_positional {d : Decimal} (h : d.exponent < 0) :
    ∃ whole decimals, d.positional = whole ++ '.' :: decimals ∧ AreDigits whole ∧
      AreDigits decimals ∧ naturalOf (whole ++ decimals) = d.digits ∧
      decimals.length = (-d.exponent).toNat := by
  have hdigits := areDigits_digitsOf d.digits
  have hvalue := naturalOf_digitsOf d.digits
  have hlength := List.length_pos_iff.mpr hdigits.ne_nil
  simp only [positional]
  generalize digitsOf d.digits = digits at *
  by_cases hpoint : (digits.length : Int) + d.exponent ≤ 0
  · rw [if_pos hpoint]
    refine ⟨['0'], _, rfl, areDigits_zero, ⟨by simp [hdigits.ne_nil], ?_⟩, ?_, ?_⟩
    · intro c hc
      rcases List.mem_append.mp hc with hc | hc
      · rw [List.eq_of_mem_replicate hc]
        rfl
      · exact hdigits.isDigit c hc
    · rw [← hvalue, List.singleton_append, ← List.cons_append, ← List.replicate_succ,
        naturalOf_replicate_append]
    · rw [List.length_append, List.length_replicate]
      omega
  · rw [if_neg hpoint]
    refine ⟨_, _, rfl, ⟨?_, ?_⟩, ⟨?_, ?_⟩, ?_, ?_⟩
    · exact List.ne_nil_of_length_pos (by rw [List.length_take]; omega)
    · exact fun c hc => hdigits.isDigit c (List.mem_of_mem_take hc)
    · exact List.ne_nil_of_length_pos (by rw [List.length_drop]; omega)
    · exact fun c hc => hdigits.isDigit c (List.mem_of_mem_drop hc)
    · rw [List.take_append_drop, hvalue]
    · rw [List.length_drop]
      omega

/-- With an exponent, a decimal is written with one digit before the point and at least one after
it. -/
theorem Decimal.exists_scientific (d : Decimal) :
    ∃ (first : Char) (decimals : List Char) (zeros : Nat) (exponent : Int),
      d.scientific .printed = [first] ++ '.' :: decimals ++
        'E' :: (signOf (exponent < 0) ++ digitsOf exponent.natAbs) ∧
      first.isDigit ∧ AreDigits decimals ∧
      naturalOf (first :: decimals) = d.digits * 10 ^ zeros ∧
      exponent = decimals.length - zeros + d.exponent := by
  have hdigits := areDigits_digitsOf d.digits
  have hvalue := naturalOf_digitsOf d.digits
  have hmark : Layout.printed.mark.toList = ['E'] := rfl
  simp only [scientific, hmark]
  generalize digitsOf d.digits = digits at *
  match digits, hdigits, hvalue with
  | [], hdigits, _ => exact absurd rfl hdigits.ne_nil
  | [only], hdigits, hvalue =>
    refine ⟨only, ['0'], 1, _, rfl, hdigits.isDigit only (by simp), areDigits_zero, ?_, ?_⟩
    · rw [← hvalue, Nat.pow_one]
      exact naturalOf_append_zero [only]
    · simp
  | first :: second :: rest, hdigits, hvalue =>
    obtain ⟨hfirst, hrest⟩ := List.forall_mem_cons.mp hdigits.isDigit
    have hexponent : ((first :: second :: rest).length : Int) - 1 + d.exponent =
        (second :: rest).length - (0 : Nat) + d.exponent := by
      simp only [List.length_cons]
      omega
    refine ⟨first, second :: rest, 0, _, ?_, hfirst, ⟨by simp, hrest⟩, ?_, hexponent⟩
    · simp only [List.cons_append, List.nil_append, List.append_assoc]
    · rw [hvalue, Nat.pow_zero, Nat.mul_one]

/-- A text that denotes what a decimal is. -/
structure Denotes (text : List Char) (d : Decimal) : Prop where
  positive : 0 < (denoted text).2
  eq : (denoted text).1 * d.denominator = d.numerator * (denoted text).2

/-- A decimal with digits after the point is written with a point. -/
theorem denotes_positional {d : Decimal} (h : d.exponent < 0) : Denotes d.positional d := by
  obtain ⟨whole, decimals, htext, hwhole, hdecimals, hvalue, hlength⟩ := d.exists_positional h
  have hmark := hwhole.not_mem_point hdecimals (show ('E').isDigit = false from rfl) (by decide)
  have hpositive : d.exponent.toNat = 0 := by omega
  have hdenoted : denoted d.positional = (d.digits, 10 ^ (-d.exponent).toNat) := by
    rw [htext, denoted_plain hmark, fractionOf_decimal (hwhole.not_mem rfl), hvalue, hlength]
  constructor
  · rw [hdenoted]
    exact Nat.pow_pos (by decide)
  · rw [hdenoted, Decimal.numerator, Decimal.denominator, hpositive, Nat.pow_zero, Nat.mul_one]

/-- Any decimal is written with an exponent. -/
theorem denotes_scientific (d : Decimal) : Denotes (d.scientific .printed) d := by
  obtain ⟨first, decimals, zeros, exponent, htext, hfirst, hdecimals, hvalue, hexponent⟩ :=
    d.exists_scientific
  have hwhole : AreDigits [first] := ⟨by simp, by simpa using hfirst⟩
  have hmark := hwhole.not_mem_point hdecimals (show ('E').isDigit = false from rfl) (by decide)
  have hdenoted : denoted (d.scientific .printed) =
      (d.digits * 10 ^ zeros * 10 ^ exponent.toNat,
        10 ^ decimals.length * 10 ^ (-exponent).toNat) := by
    rw [htext, denoted_exponent hmark, fractionOf_decimal (hwhole.not_mem rfl), powerOf_signed,
      List.singleton_append, hvalue]
  have hpowers : zeros + exponent.toNat + (-d.exponent).toNat =
      d.exponent.toNat + decimals.length + (-exponent).toNat := by omega
  constructor
  · rw [hdenoted]
    exact Nat.mul_pos (Nat.pow_pos (by decide)) (Nat.pow_pos (by decide))
  · rw [hdenoted, Decimal.numerator, Decimal.denominator]
    calc d.digits * 10 ^ zeros * 10 ^ exponent.toNat * 10 ^ (-d.exponent).toNat
        = d.digits * 10 ^ (zeros + exponent.toNat + (-d.exponent).toNat) := by ring
      _ = d.digits * 10 ^ (d.exponent.toNat + decimals.length + (-exponent).toNat) := by
        rw [hpowers]
      _ = d.digits * 10 ^ d.exponent.toNat * (10 ^ decimals.length * 10 ^ (-exponent).toNat) := by
        ring

/-- The text of a magnitude denotes a fraction that rounds to it. -/
theorem nearestBits_denoted {significand shift : Nat} (h : IsDouble significand shift)
    (magnitude : Float) :
    let text := Layout.printed.magnitude magnitude significand shift
    nearestBits (denoted text).1 (denoted text).2 = bitsOf significand shift := by
  have reads {text : List Char} (ht : Denotes text (shortest significand shift)) :
      nearestBits (denoted text).1 (denoted text).2 = bitsOf significand shift := by
    rw [← nearestBits_shortest h]
    exact nearestBits_congr ht.positive (Decimal.denominator_pos _) ht.eq
  intro text
  simp only [text, Layout.magnitude]
  split
  · exact reads (denotes_scientific _)
  · split
    · next whole hwhole =>
      have hdigits := areDigits_digitsOf whole
      have hsuffix : Layout.printed.wholeNumber.toList = [] := rfl
      rw [hsuffix, List.append_nil, denoted_plain (hdigits.not_mem rfl),
        fractionOf_whole (hdigits.not_mem rfl), naturalOf_digitsOf]
      exact nearestBits_wholeValue h hwhole
    · next hfraction => exact reads (denotes_positional (exponent_shortest_neg hfraction))

/-- What a printed number without its sign looks like: it starts with a digit, and besides digits
there are only a point, a mark and a sign of the exponent in it. -/
structure IsNumeral (text : List Char) : Prop where
  head : ∃ c ∈ text.head?, c.isDigit
  mem : ∀ c ∈ text, c.isDigit ∨ c ∈ ['.', 'E', '-']

namespace IsNumeral

variable {text more : List Char}

/-- Digits are a numeral. -/
theorem of_digits (h : AreDigits text) : IsNumeral text := by
  obtain ⟨c, rest, rfl⟩ := List.exists_cons_of_ne_nil h.ne_nil
  exact ⟨⟨c, rfl, h.isDigit c List.mem_cons_self⟩, fun d hd => .inl (h.isDigit d hd)⟩

/-- A text after which more digits or marks follow. -/
theorem append (h : IsNumeral text) (hmore : ∀ c ∈ more, c.isDigit ∨ c ∈ ['.', 'E', '-']) :
    IsNumeral (text ++ more) := by
  obtain ⟨c, hc, hdigit⟩ := h.head
  refine ⟨⟨c, ?_, hdigit⟩, List.forall_mem_append.mpr ⟨h.mem, hmore⟩⟩
  rw [List.head?_append, Option.mem_def.mp hc]
  rfl

/-- A numeral goes on after a mark. -/
theorem append_mark (h : IsNumeral text) {mark : Char} (hmark : mark ∈ ['.', 'E', '-'])
    (hmore : ∀ c ∈ more, c.isDigit ∨ c ∈ ['.', 'E', '-']) : IsNumeral (text ++ mark :: more) :=
  h.append (List.forall_mem_cons.mpr ⟨.inr hmark, hmore⟩)

end IsNumeral

/-- The only sign that is written is a minus. -/
theorem eq_of_mem_signOf {c : Char} {negative : Bool} (h : c ∈ signOf negative) : c = '-' := by
  cases negative with
  | true => exact List.mem_singleton.mp h
  | false => exact absurd h List.not_mem_nil

/-- Whether a number has a sign can be told from its text. -/
theorem IsNumeral.sign_injective {text text' : List Char} (h : IsNumeral text)
    (h' : IsNumeral text') {negative negative' : Bool}
    (heq : signOf negative ++ text = signOf negative' ++ text') :
    negative = negative' ∧ text = text' := by
  have unsigned {text text' : List Char} (h : IsNumeral text) : text ≠ '-' :: text' := by
    rintro rfl
    obtain ⟨c, ⟨⟩, hc⟩ := h.head
    contradiction
  cases negative <;> cases negative'
  · exact ⟨rfl, heq⟩
  · exact absurd heq (unsigned h)
  · exact absurd heq.symm (unsigned h')
  · exact ⟨rfl, (List.cons.inj heq).2⟩

/-- The magnitude of a number is written as a numeral. -/
theorem isNumeral_magnitude (magnitude : Float) (significand shift : Nat) :
    IsNumeral (Layout.printed.magnitude magnitude significand shift) := by
  have mem {digits : List Char} (h : AreDigits digits) :
      ∀ c ∈ digits, c.isDigit ∨ c ∈ ['.', 'E', '-'] := fun c hc => .inl (h.isDigit c hc)
  rw [Layout.magnitude]
  split
  · obtain ⟨first, decimals, _, exponent, htext, hfirst, hdecimals, _⟩ :=
      (shortest significand shift).exists_scientific
    have hwhole : AreDigits [first] := ⟨by simp, by simpa using hfirst⟩
    rw [htext]
    refine ((IsNumeral.of_digits hwhole).append_mark (by decide) (mem hdecimals)).append_mark
      (by decide) (List.forall_mem_append.mpr ⟨?_, mem (areDigits_digitsOf _)⟩)
    intro c hc
    rw [eq_of_mem_signOf hc]
    exact .inr (by decide)
  · split
    · next whole _ =>
      have hsuffix : Layout.printed.wholeNumber.toList = [] := rfl
      rw [hsuffix, List.append_nil]
      exact .of_digits (areDigits_digitsOf whole)
    · next hfraction =>
      obtain ⟨whole, decimals, htext, hwhole, hdecimals, _⟩ :=
        (shortest significand shift).exists_positional (exponent_shortest_neg hfraction)
      rw [htext]
      exact (IsNumeral.of_digits hwhole).append_mark (by decide) (mem hdecimals)

def Parts.isFinite : Parts → Bool
  | .finite .. => true
  | .nan | .infinite _ => false

/-- A number that is neither infinite nor no number. -/
def IsFinite (x : Float) : Prop := (Parts.ofFloat x).isFinite

instance : DecidablePred IsFinite := fun x =>
  inferInstanceAs (Decidable ((Parts.ofFloat x).isFinite = true))

/-- A finite number has a sign, a significand and an exponent. -/
theorem IsFinite.exists_parts {x : Float} (h : IsFinite x) :
    ∃ negative significand shift, Parts.ofFloat x = .finite negative significand shift := by
  unfold IsFinite at h
  cases hparts : Parts.ofFloat x with
  | finite negative significand shift => exact ⟨negative, significand, shift, rfl⟩
  | nan =>
    rw [hparts] at h
    contradiction
  | infinite negative =>
    rw [hparts] at h
    contradiction

/-- The text of a finite number: its sign, and a numeral that denotes it. -/
theorem IsFinite.exists_write {x : Float} (h : IsFinite x) :
    ∃ negative text, Layout.printed.write x = String.ofList (signOf negative ++ text) ∧
      IsNumeral text ∧ x.toBits.toNat =
        (if negative then 2 ^ 63 else 0) + nearestBits (denoted text).1 (denoted text).2 := by
  obtain ⟨negative, significand, shift, hparts⟩ := h.exists_parts
  obtain ⟨hdouble, hbits⟩ := Parts.bits_eq x.toBits.toNat_lt hparts
  refine ⟨negative, Layout.printed.magnitude x.abs significand shift, ?_,
    isNumeral_magnitude x.abs significand shift, ?_⟩
  · rw [Layout.write, hparts]
  · rw [hbits, nearestBits_denoted hdouble]

/-- Numbers are the same if their bits are. -/
theorem eq_of_toBits {x y : Float} (h : x.toBits = y.toBits) : x = y := by
  obtain ⟨⟨bits, _⟩⟩ := x
  obtain ⟨⟨bits', _⟩⟩ := y
  obtain rfl : bits = bits' := h
  rfl

/-- No two finite numbers are written alike. -/
theorem write_injective {x y : Float} (hx : IsFinite x) (hy : IsFinite y)
    (h : Layout.printed.write x = Layout.printed.write y) : x = y := by
  obtain ⟨negative, text, htext, hnumeral, hbits⟩ := hx.exists_write
  obtain ⟨negative', text', htext', hnumeral', hbits'⟩ := hy.exists_write
  rw [htext, htext', String.ofList_inj] at h
  obtain ⟨rfl, rfl⟩ := hnumeral.sign_injective hnumeral' h
  apply eq_of_toBits
  apply UInt64.toNat_inj.mp
  rw [hbits, hbits']

end Lox.Number
