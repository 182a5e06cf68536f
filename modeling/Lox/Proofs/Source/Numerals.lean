import Lox.Proofs.Source.Joining
import Lox.Proofs.Source.Lexicon

/-!
# Numerals in a source text

A numeral is cut off whole wherever neither a digit nor a point follows it. So a numeral
with a semicolon after it, and with or without a minus before it, is scanned as just that,
and denotes the number it is read as.
-/

namespace Lox.Source

section

variable {c : Char} {text rest : List Char}

/-- A run of characters ends before one that does not belong to it. -/
theorem takeWhile_append_of_head {p : Char → Bool} (htext : ∀ d ∈ text, p d)
    (hrest : ∀ d ∈ rest.head?, p d = false) : (text ++ rest).takeWhile p = text := by
  rw [List.takeWhile_append_of_pos htext]
  cases rest with
  | nil => exact List.append_nil text
  | cons d rest => rw [List.takeWhile_cons_of_neg (by simp [hrest d rfl]), List.append_nil]

/-- A number without a point ends with its digits, if no point follows. -/
theorem numberLength_whole (htext : ∀ d ∈ text, isDigit d)
    (hrest : ∀ d ∈ rest.head?, isDigit d = false ∧ d ≠ '.') :
    numberLength (text ++ rest) = text.length := by
  have hrun := takeWhile_append_of_head htext fun d hd => (hrest d hd).1
  simp only [numberLength, hrun, List.drop_left]
  split
  · exact absurd rfl (hrest '.' rfl).2
  · rfl

/-- A number with a point ends with the digits after the point. -/
theorem numberLength_decimal {decimals : List Char} (htext : ∀ d ∈ text, isDigit d)
    (hdecimals : IsDigits decimals) (hrest : ∀ d ∈ rest.head?, isDigit d = false) :
    numberLength (text ++ '.' :: (decimals ++ rest)) = text.length + 1 + decimals.length := by
  have hpoint : ∀ d ∈ ('.' :: (decimals ++ rest)).head?, isDigit d = false := by
    rintro d ⟨⟩
    rfl
  have hrun := takeWhile_append_of_head htext hpoint
  have hafter := takeWhile_append_of_head hdecimals.2 hrest
  have hpositive := List.length_pos_iff.mpr hdecimals.1
  simp only [numberLength, hrun, List.drop_left, hafter]
  split <;> omega

namespace Spelling

variable {after : List Char}

/-- There are only digits in a numeral, and at most a point. -/
theorem mem_numeral (h : Spelling after .number text) : ∀ d ∈ text, isDigit d ∨ d = '.' := by
  cases h with
  | whole hwhole => exact fun d hd => .inl (hwhole.2 d hd)
  | decimal hwhole hdecimals =>
    exact List.forall_mem_append.mpr ⟨fun d hd => .inl (hwhole.2 d hd),
      List.forall_mem_cons.mpr ⟨.inr rfl, fun d hd => .inl (hdecimals.2 d hd)⟩⟩

/-- A numeral starts with a digit and is cut off whole, if neither a digit nor a point follows. -/
theorem lexemeAt_numeral (h : Spelling after .number (c :: text)) {rest : List Char}
    (hrest : ∀ d ∈ rest.head?, isDigit d = false ∧ d ≠ '.') :
    isDigit c ∧ lexemeAt c (text ++ rest) = (.number, text.length) := by
  generalize hspelled : c :: text = spelled at h
  cases h with
  | whole hwhole =>
    subst hspelled
    obtain ⟨hc, hdigits⟩ := List.forall_mem_cons.mp hwhole.2
    rw [lexemeAt_digit hc, numberLength_whole hdigits hrest]
    exact ⟨hc, rfl⟩
  | @decimal whole decimals hwhole hdecimals =>
    obtain ⟨d, digits, rfl⟩ := List.exists_cons_of_ne_nil hwhole.1
    rw [List.cons_append, List.cons.injEq] at hspelled
    obtain ⟨rfl, rfl⟩ := hspelled
    obtain ⟨hc, hdigits⟩ := List.forall_mem_cons.mp hwhole.2
    rw [lexemeAt_digit hc, List.append_assoc, List.cons_append,
      numberLength_decimal hdigits hdecimals fun d hd => (hrest d hd).1, List.length_append,
      List.length_cons, Nat.add_assoc, Nat.add_comm 1]
    exact ⟨hc, rfl⟩

end Spelling

/-- A digit is no blank. -/
theorem isBlank_of_isDigit (h : isDigit c) : isBlank c = false := by
  rw [Bool.eq_false_iff]
  intro hblank
  simp only [isBlank, Bool.or_eq_true, beq_iff_eq] at hblank
  rcases hblank with ((rfl | rfl) | rfl) | rfl <;> contradiction

/-- What is no blank is no line break. -/
theorem ne_lineBreak (h : isBlank c = false) : c ≠ '\n' := by
  rintro rfl
  contradiction

/-- No gap starts with a character that is neither blank nor a slash. -/
theorem skipGap_cons (hblank : isBlank c = false) (hslash : c ≠ '/') (line : Nat) :
    skipGap false line (c :: rest) = ⟨line, c :: rest⟩ := by
  rw [skipGap, if_neg (ne_lineBreak hblank), if_neg (by simp [hblank]), if_neg fun h => hslash h.1]

namespace Cuts

variable {line next last : Nat} {xs : List Lexeme}

/-- The lexemes of a text that starts with a gap and one after it are that one and those of the text
after it. -/
theorem lexeme {form : Form} {start : Nat} {source : List Char}
    (hgap : skipGap false start source = ⟨line, c :: (text ++ rest)⟩)
    (hform : lexemeAt c (text ++ rest) = (form, text.length))
    (hnext : line + (c :: text).count '\n' = next) (h : Cuts next rest xs last) :
    Cuts start source (⟨form, c :: text, next⟩ :: xs) last := by
  have hcut : cut line c (text ++ rest) = (⟨form, c :: text, next⟩, ⟨next, rest⟩) := by
    simp only [cut, hform, List.take_left, List.drop_left, hnext]
  have hrest : Cuts (cut line c (text ++ rest)).2.line (cut line c (text ++ rest)).2.rest xs
      last := by
    rw [hcut]
    exact h
  have hcuts := Cuts.more hgap hrest
  rwa [hcut] at hcuts

/-- The lexemes of a text that starts with one are that one and those of the text after it. -/
theorem cons {form : Form} (hblank : isBlank c = false) (hslash : c ≠ '/')
    (hform : lexemeAt c (text ++ rest) = (form, text.length))
    (hnext : line + (c :: text).count '\n' = next) (h : Cuts next rest xs last) :
    Cuts line (c :: (text ++ rest)) (⟨form, c :: text, next⟩ :: xs) last :=
  lexeme (skipGap_cons hblank hslash line) hform hnext h

/-- An operator of one character is cut off, if no longer one starts with it. -/
theorem operator {kind : TokenKind} (hkind : singleOperator? c = some kind)
    (hdouble : ∀ d, doubleOperator? c d = none) (hblank : isBlank c = false) (hslash : c ≠ '/')
    (h : Cuts line rest xs last) : Cuts line (c :: rest) (⟨.plain kind, [c], line⟩ :: xs) last := by
  obtain ⟨hdigit, hquote, hword, -⟩ := head_operator (singleOperator?_eq_some_iff.mp hkind)
  have hnone : rest.head?.bind (doubleOperator? c) = none := by
    rw [Option.bind_eq_none_iff]
    intro d _
    exact hdouble d
  have hform : lexemeAt c ([] ++ rest) = (.plain kind, ([] : List Char).length) := by
    rw [lexemeAt_other hdigit hquote hword, List.nil_append, operatorAt, hnone, hkind]
    rfl
  have hlines : line + [c].count '\n' = line := by
    rw [List.count_cons_of_ne (ne_lineBreak hblank), List.count_nil, Nat.add_zero]
  exact cons hblank hslash hform hlines h

/-- A numeral is cut off whole before a semicolon. -/
theorem numeral {after : List Char} (h : Spelling after .number text) (line : Nat) :
    Cuts line (text ++ [';']) [⟨.number, text, line⟩, ⟨.plain .semicolon, [';'], line⟩]
      line := by
  obtain ⟨c, digits, rfl⟩ := h.exists_cons
  have hlines : (c :: digits).count '\n' = 0 := by
    rw [List.count_eq_zero]
    intro hmem
    rcases h.mem_numeral _ hmem with hd | hd <;> contradiction
  have hend : ∀ d ∈ [';'].head?, isDigit d = false ∧ d ≠ '.' := by
    rintro d ⟨⟩
    decide
  obtain ⟨hdigit, hform⟩ := h.lexemeAt_numeral hend
  have hslash : c ≠ '/' := by
    rintro rfl
    exact absurd hdigit (by decide)
  have hsemicolon : Cuts line [';'] [⟨.plain .semicolon, [';'], line⟩] line :=
    operator rfl (fun _ => rfl) rfl (by decide) (.done rfl)
  exact cons (isBlank_of_isDigit hdigit) hslash hform (by rw [hlines]; rfl) hsemicolon

end Cuts

/-- The token of a numeral on the first line. -/
def numeralToken (text : List Char) : Token :=
  ⟨.number, String.ofList text, some (.number (Number.read text)), 1⟩

/-- A numeral with a semicolon after it has the tokens of both, and nothing is wrong with it. -/
theorem scan_numeral {after : List Char} (h : Spelling after .number text) :
    scan (String.ofList text ++ ";") =
      ⟨[numeralToken text, .plain .semicolon ";" 1, .plain .eof "" 1], []⟩ := by
  have hcuts := Cuts.numeral h 1
  have htext : text ++ [';'] = (String.ofList text ++ ";").toList := by simp
  rw [htext] at hcuts
  rw [scan_eq hcuts]
  rfl

/-- A minus before a numeral has its own token. -/
theorem scan_negative {after : List Char} (h : Spelling after .number text) :
    scan (String.ofList ('-' :: text) ++ ";") =
      ⟨[.plain .minus "-" 1, numeralToken text, .plain .semicolon ";" 1, .plain .eof "" 1],
        []⟩ := by
  have hcuts : Cuts 1 ('-' :: (text ++ [';']))
      [⟨.plain .minus, ['-'], 1⟩, ⟨.number, text, 1⟩, ⟨.plain .semicolon, [';'], 1⟩] 1 :=
    .operator rfl (fun _ => rfl) rfl (by decide) (.numeral h 1)
  have htext : '-' :: (text ++ [';']) = (String.ofList ('-' :: text) ++ ";").toList := by simp
  rw [htext] at hcuts
  rw [scan_eq hcuts]
  rfl

end

end Lox.Source
