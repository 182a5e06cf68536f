import Lox.Proofs.Number.Correct
import Lox.Proofs.Source.Words

/-!
# The numbers of a source text

The literal of a number is the rational number that its lexeme denotes, correctly rounded: it is
what any correct reading of the lexeme gives.
-/

namespace Lox.Source

open Number (CorrectlyRounded decimalValue numeral)

/-- The digits of a numeral, before and after its point. -/
theorem Spelling.exists_digits {rest text : List Char} (h : Spelling rest .number text) :
    ∃ whole decimals, IsDigits whole ∧ (decimals ≠ [] → IsDigits decimals) ∧
      text = numeral whole decimals := by
  cases h with
  | whole hwhole => exact ⟨text, [], hwhole, fun hne => absurd rfl hne, rfl⟩
  | @decimal whole decimals hwhole hdecimals =>
    exact ⟨whole, decimals, hwhole, fun _ => hdecimals, by rw [numeral, if_neg hdecimals.1]⟩

/-- A number is a numeral, and its literal is read from it. -/
theorem IsScanned.number {t : Token} (h : IsScanned t) (hk : t.kind = .number) :
    ∃ rest text, Spelling rest .number text ∧ t.lexeme = String.ofList text ∧
      t.literal = some (.number (Number.read text)) := by
  obtain ⟨rest, ⟨gap, form, text⟩, hspelling, hgives⟩ := h
  cases hgives with
  | @plain kind line hform =>
    obtain rfl : kind = .number := hk
    obtain rfl : form = .plain .number := hform
    have unreserved : ∀ w ∈ reservedWords, w.2 ≠ .number := by decide
    have unoperated : ∀ o ∈ operators, o.2 ≠ .number := by decide
    cases hspelling with
    | reserved _ hmem => exact absurd rfl (unreserved _ hmem)
    | operator hmem => exact absurd rfl (unoperated _ hmem)
  | number hform => exact ⟨rest, text, hform ▸ hspelling, rfl, rfl⟩
  | string => contradiction

/-- A number of a source text is a numeral, and its literal is what the numeral denotes, correctly
rounded: the nearest double, ties to even. No other literal would be right, so it is what `parse`
gives if that rounds correctly and takes in every numeral, and nothing needs to stand in for it. -/
theorem number_literal_rounded {source : String} {t : Token} (ht : t ∈ (scan source).tokens)
    (hk : t.kind = .number) :
    ∃ whole decimals x, IsDigits whole ∧ (decimals ≠ [] → IsDigits decimals) ∧
      t.lexeme = String.ofList (numeral whole decimals) ∧ t.literal = some (.number x) ∧
      CorrectlyRounded (decimalValue whole decimals) x ∧
      (∀ y, CorrectlyRounded (decimalValue whole decimals) y → y = x) ∧
      ∀ parse : String → Option Float,
        (∀ whole decimals, IsDigits whole → (decimals ≠ [] → IsDigits decimals) →
          ∃ y, parse (String.ofList (numeral whole decimals)) = some y ∧
            CorrectlyRounded (decimalValue whole decimals) y) →
        (parse t.lexeme).getD 0 = x := by
  have hword : t ∈ words source := by
    rw [tokens_eq, List.mem_append, List.mem_singleton] at ht
    rcases ht with ht | rfl
    · exact ht
    · contradiction
  obtain ⟨rest, text, hspelling, hlexeme, hliteral⟩ := (isScanned_of_mem_words hword).number hk
  obtain ⟨whole, decimals, hwhole, hdecimals, rfl⟩ := hspelling.exists_digits
  have hpoint : '.' ∉ whole := fun hmem => absurd (hwhole.2 _ hmem) (by decide)
  have hread := Number.correctlyRounded_read hpoint decimals
  refine ⟨whole, decimals, _, hwhole, hdecimals, hlexeme, hliteral, hread,
    fun y hy => hy.unique hread, fun parse correct => ?_⟩
  obtain ⟨y, hy, hround⟩ := correct whole decimals hwhole hdecimals
  rw [hlexeme, hy, Option.getD_some]
  exact hround.unique hread

/-- A numeral in the middle between two doubles is given as the even one. -/
theorem number_literal_rounded_tie :
    ∃ t ∈ (scan "9007199254740993.000;").tokens, t.kind = .number ∧
      t.lexeme = "9007199254740993.000" ∧ t.literal.map Literal.text = some "9007199254740992.0" ∧
      ∃ whole decimals x, t.lexeme = String.ofList (numeral whole decimals) ∧
        t.literal = some (.number x) ∧ CorrectlyRounded (decimalValue whole decimals) x := by
  have hkind : ((scan "9007199254740993.000;").tokens.get ⟨0, by decide +kernel⟩).kind =
      .number := by decide +kernel
  obtain ⟨whole, decimals, x, -, -, hlexeme, hliteral, hround, -, -⟩ :=
    number_literal_rounded (List.get_mem _ _) hkind
  exact ⟨_, List.get_mem _ _, hkind, by decide +kernel, by decide +kernel, whole, decimals, x,
    hlexeme, hliteral, hround⟩

end Lox.Source
