import Lox.Machine.Evaluation
import Lox.Proofs.Grammar.Writing
import Lox.Proofs.Number.Nearest
import Lox.Proofs.Source.Numerals

/-!
# Printed numbers read back

What a program prints for a finite number is, with a semicolon after it, a program that has that
number as its value, to the last bit and with its sign, unless the number is written with an
exponent. With an exponent it is no longer a numeral of the language, but the decimal it denotes
still rounds to the number.
-/

namespace Lox

/-! ### Numerals as programs -/

/-- A text that is one expression, with nothing wrong in it, and that has a certain value on every
machine and leaves the machine as it is. -/
def ReadsAs (source : String) (value : Value) : Prop :=
  ∃ e, Grammar.parseSource source = ⟨[.expression e], []⟩ ∧
    ∀ fuel m, 2 ≤ fuel → evaluate fuel e m = .ok value m

section

open Grammar Source

variable {text after : List Char}

/-- A text without lexical errors is an expression if its tokens are those of one and a
semicolon. -/
theorem parseSource_expression {source : String} {ts : List Token} {l : Level} {e : Expr}
    {semicolon eof : Token} (hscan : scan source = ⟨ts ++ [semicolon] ++ [eof], []⟩)
    (hts : ∀ t ∈ ts ++ [semicolon], t.kind ∉ [.eof, .funWord])
    (hsemicolon : semicolon.kind = .semicolon) (heof : eof.kind = .eof)
    (h : DerivesExpr l ts e []) : parseSource source = ⟨[.expression e], []⟩ := by
  have hstatement : DerivesStmt .top false (ts ++ [semicolon]) (.expression e) [] :=
    .expression (h.loosen (Nat.zero_le _)) hsemicolon
  have hdecl : DerivesDecl .top (ts ++ [semicolon]) (.expression e) [] := by
    apply DerivesDecl.statement hstatement
    intro t ht hk
    exact hts t (List.mem_of_mem_head? ht) (by simp [hk])
  have hdecls : DerivesDecls .top (ts ++ [semicolon] ++ []) [.expression e] [] :=
    .cons hdecl .nil
  have hwords : ∀ t ∈ ts ++ [semicolon], t.kind ≠ .eof := by
    intro t ht hk
    exact hts t ht (by simp [hk])
  rw [List.append_nil] at hdecls
  rw [parseSource, parseScan, hscan, parse_complete hwords heof hdecls]
  rfl

/-- A numeral is derived as the literal that it is read as. -/
theorem derives_numeral (text : List Char) :
    DerivesExpr .primary [numeralToken text] (.literal (.number (Number.read text))) [] :=
  .literal (.number rfl)

/-- A numeral is a program that has the number as its value. -/
theorem reads_numeral (h : Spelling after .number text) :
    ReadsAs (String.ofList text ++ ";") (.number (Number.read text)) := by
  refine ⟨_, parseSource_expression (scan_numeral h) ?_ rfl rfl (derives_numeral text), ?_⟩
  · simp [numeralToken, Token.plain]
  · intro fuel m hfuel
    obtain ⟨fuel, rfl⟩ := Nat.exists_eq_add_of_le' hfuel
    rfl

/-- With a minus before it the value has the other sign. -/
theorem reads_negative (h : Spelling after .number text) :
    ReadsAs (String.ofList ('-' :: text) ++ ";") (.number (-Number.read text)) := by
  have hoperand : DerivesExpr .unary [numeralToken text] _ [] :=
    (derives_numeral text).loosen (by decide)
  have hnegative : DerivesExpr .unary [.plain .minus "-" 1, numeralToken text]
      (.unary (.plain .minus "-" 1) (.literal (.number (Number.read text)))) [] :=
    .unary (by decide) hoperand
  refine ⟨_, parseSource_expression (scan_negative h) ?_ rfl rfl hnegative, ?_⟩
  · simp [numeralToken, Token.plain]
  · intro fuel m hfuel
    obtain ⟨fuel, rfl⟩ := Nat.exists_eq_add_of_le' hfuel
    rfl

end

/-! ### Printed numbers as programs -/

namespace Number

/-- The numbers that are printed without an exponent: the zeros, and those of a magnitude from
`1e-7` up and below `1e21`. -/
def IsPositional (x : Float) : Prop := x = 0 ∨ x = -0 ∨ (1e-7 ≤ x.abs ∧ x.abs < 1e21)

instance : DecidablePred IsPositional := fun x =>
  inferInstanceAs (Decidable (x = 0 ∨ x = -0 ∨ (1e-7 ≤ x.abs ∧ x.abs < 1e21)))

section

variable {x : Float} {negative : Bool} {significand shift : Nat}

/-- A number is positional unless its magnitude is out of the printed range. -/
theorem isPositional_iff (hx : Parts.ofFloat x = .finite negative significand shift) :
    IsPositional x ↔
      ¬ (significand ≠ 0 ∧ (x.abs < Layout.printed.least ∨ Layout.printed.bound ≤ x.abs)) := by
  have habs := isFinite_of_ofFloat (ofFloat_abs hx)
  have hleast : IsFinite Layout.printed.least := by decide
  have hbound : IsFinite Layout.printed.bound := by decide
  have hzero : (x = 0 ∨ x = -0) ↔ significand = 0 := eq_zero_iff hx
  rw [IsPositional, ← or_assoc, hzero, not_and_or, not_not, not_or, float_not_lt hleast habs,
    ← float_not_lt hbound habs, not_not]
  rfl

/-- Without an exponent a number is printed as a numeral. -/
theorem spelling_magnitude {magnitude : Float} (after : List Char)
    (h : ¬ (significand ≠ 0 ∧
      (magnitude < Layout.printed.least ∨ Layout.printed.bound ≤ magnitude))) :
    Source.Spelling after .number (Layout.printed.magnitude magnitude significand shift) := by
  rw [Layout.magnitude, if_neg h]
  split
  · next whole _ =>
    have hsuffix : Layout.printed.wholeNumber.toList = [] := rfl
    have hdigits := areDigits_digitsOf whole
    rw [hsuffix, List.append_nil]
    exact .whole ⟨hdigits.ne_nil, hdigits.isDigit⟩
  · next hfraction =>
    obtain ⟨whole, decimals, htext, hwhole, hdecimals, -⟩ :=
      (shortest significand shift).exists_positional (exponent_shortest_neg hfraction)
    rw [htext]
    exact .decimal ⟨hwhole.ne_nil, hwhole.isDigit⟩ ⟨hdecimals.ne_nil, hdecimals.isDigit⟩

/-- A printed numeral is read as the magnitude it was printed for. -/
theorem ofFloat_read {after : List Char} {magnitude : Float} (h : IsDouble significand shift)
    (hspelling : Source.Spelling after .number
      (Layout.printed.magnitude magnitude significand shift)) :
    Parts.ofFloat (read (Layout.printed.magnitude magnitude significand shift)) =
      .finite false significand shift := by
  have hmark : 'E' ∉ Layout.printed.magnitude magnitude significand shift := by
    intro hmem
    rcases hspelling.mem_numeral _ hmem with hd | hd <;> contradiction
  rw [read, nearest, ← denoted_plain hmark, nearestBits_denoted h, ofFloat_ofBits h]

/-- A numeral with the sign of a number is a program that has the number as its value, if the
numeral is read as its magnitude. -/
theorem reads_signed {text after : List Char} (h : Source.Spelling after .number text)
    (hread : Parts.ofFloat (read text) = .finite false significand shift)
    (hx : Parts.ofFloat x = .finite negative significand shift) :
    ReadsAs (String.ofList (signOf negative ++ text) ++ ";") (.number x) := by
  cases negative with
  | false =>
    rw [eq_of_ofFloat hx hread]
    exact reads_numeral h
  | true =>
    rw [eq_of_ofFloat hx (ofFloat_neg hread)]
    exact reads_negative h

end

/-- Printed numbers read back. A zero, or a number of a magnitude from `1e-7` up and below `1e21`,
is printed as a program that has just this number as its value. Any other finite number is printed
with an exponent, and the decimal that is printed rounds to it. So no two finite numbers that
differ in a bit are printed alike. -/
theorem printed_reads_back {x : Float} (hx : IsFinite x) :
    (IsPositional x → ReadsAs (Layout.printed.write x ++ ";") (.number x)) ∧
    (¬ IsPositional x → ∃ f : ExponentForm,
      Layout.printed.write x = String.ofList f.text ∧ RoundsTo f.value x) ∧
    ∀ y, IsFinite y → y.toBits ≠ x.toBits →
      Layout.printed.write y ≠ Layout.printed.write x := by
  obtain ⟨negative, significand, shift, hparts⟩ := hx.exists_parts
  have hdouble := isDouble_of_ofFloat hparts
  have hwrite : Layout.printed.write x = String.ofList
      (signOf negative ++ Layout.printed.magnitude x.abs significand shift) := by
    rw [Layout.write, hparts]
  refine ⟨fun hrange => ?_, fun hrange => ?_, fun y hy hbits heq => ?_⟩
  · have hspelling : Source.Spelling [] .number
        (Layout.printed.magnitude x.abs significand shift) :=
      spelling_magnitude [] ((isPositional_iff hparts).mp hrange)
    rw [hwrite]
    exact reads_signed hspelling (ofFloat_read hdouble hspelling) hparts
  · rw [isPositional_iff hparts, not_not] at hrange
    obtain ⟨f, htext, hvalue⟩ :=
      (shortest significand shift).exists_exponentForm negative
    refine ⟨f, ?_, ?_⟩
    · rw [hwrite, Layout.magnitude, if_pos hrange, htext]
    · rw [hvalue]
      exact (has_shortest significand shift).roundsTo (Decimal.denominator_pos _) hparts
  · exact hbits (congrArg Float.toBits (write_injective hy hx heq))

theorem printed_reads_back_tenth :
    ReadsAs "-0.1;" (.number (-0.1)) ∧
      (∃ f : ExponentForm, Layout.printed.write 1.5e-8 = String.ofList f.text ∧
        RoundsTo f.value 1.5e-8) ∧
      Layout.printed.write 0 ≠ Layout.printed.write (-0) := by
  have htext : Layout.printed.write (-0.1) ++ ";" = "-0.1;" := by decide +kernel
  refine ⟨?_, (printed_reads_back (by decide)).2.1 (by decide), ?_⟩
  · rw [← htext]
    exact (printed_reads_back (by decide)).1 (by decide)
  · exact (printed_reads_back (by decide)).2.2 0 (by decide) (by decide)

end Number

end Lox
