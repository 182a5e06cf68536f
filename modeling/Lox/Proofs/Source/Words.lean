import Lox.Proofs.Source.Tiling

/-!
# The words of a source text

What a token of a source text is follows from its kind: names are words that are not
reserved, and every other token but a literal has a text of its own. So the text of an
operator or a reserved word tells its kind.
-/

namespace Lox.Source

/-- A token of a lexeme of the lexicon. -/
def IsScanned (t : Token) : Prop :=
  ∃ (rest : List Char) (tile : Tile), Spelling rest tile.form tile.text ∧ tile.Gives t

/-- The words of a source are scanned tokens. -/
theorem isScanned_of_mem_words {source : String} {t : Token} (h : t ∈ words source) :
    IsScanned t := by
  obtain ⟨xs, last, hcuts⟩ := Cuts.exists_cuts 1 source.toList
  rw [words_eq hcuts] at h
  obtain ⟨x, hx, ht⟩ := List.mem_filterMap.mp h
  obtain ⟨rest, hlexeme⟩ : ∃ rest, IsLexeme rest x.form x.text :=
    hcuts.forall_mem (P := fun x => ∃ rest, IsLexeme rest x.form x.text)
      (fun _ c rest => ⟨_, isLexeme_lexemeAt c rest⟩) x hx
  have hfills : x.Fills ⟨[], x.form, x.text⟩ := ⟨rfl, rfl⟩
  rcases hfills.stands hlexeme with ⟨_, ⟨t', ht', hgives⟩, _⟩ | ⟨_, hnone, _⟩
  · cases ht.symm.trans ht'
    generalize x.form = form, x.text = text at *
    cases hlexeme with
    | longest hspelling => exact ⟨rest, _, hspelling, hgives⟩
    | unexpected => cases hgives <;> contradiction
  · cases ht.symm.trans hnone

/-- The texts and kinds of all tokens but names and literals. -/
def fixedWords : List (String × TokenKind) :=
  reservedWords ++ operators.map fun o => (String.ofList o.1, o.2)

/-- A fixed word is of one kind. -/
theorem kind_of_fixedWords : ∀ w ∈ fixedWords, ∀ v ∈ fixedWords, w.1 = v.1 → w.2 = v.2 := by
  decide +kernel

namespace IsScanned

variable {t t' : Token}

/-- A name is a word that is not reserved. -/
theorem name (h : IsScanned t) (hk : t.kind = .identifier) :
    t.literal = none ∧ ∃ text, t.lexeme = String.ofList text ∧ IsWord text ∧
      ∀ kind, (t.lexeme, kind) ∉ reservedWords := by
  obtain ⟨rest, ⟨gap, form, text⟩, hspelling, hgives⟩ := h
  cases hgives with
  | @plain kind line hform =>
    obtain rfl : kind = .identifier := hk
    obtain rfl : form = .plain .identifier := hform
    have unreserved : ∀ w ∈ reservedWords, w.2 ≠ .identifier := by decide
    have unoperated : ∀ o ∈ operators, o.2 ≠ .identifier := by decide
    cases hspelling with
    | reserved _ hmem => exact absurd rfl (unreserved _ hmem)
    | name hword hnot => exact ⟨rfl, text, rfl, hword, hnot⟩
    | operator hmem => exact absurd rfl (unoperated _ hmem)
  | number => contradiction
  | string => contradiction

/-- A token that is neither a name nor a literal is one of few. -/
theorem fixed (h : IsScanned t) (hk : t.kind ∉ [.identifier, .number, .string]) :
    t.literal = none ∧ (t.lexeme, t.kind) ∈ fixedWords := by
  obtain ⟨rest, ⟨gap, form, text⟩, hspelling, hgives⟩ := h
  cases hgives with
  | @plain kind line hform =>
    obtain rfl : form = .plain kind := hform
    refine ⟨rfl, List.mem_append.mpr ?_⟩
    cases hspelling with
    | reserved _ hmem => exact .inl hmem
    | name => exact absurd (by simp) hk
    | operator hmem => exact .inr (List.mem_map.mpr ⟨_, hmem, rfl⟩)
  | number => exact absurd (by simp) hk
  | string => exact absurd (by simp) hk

/-- There is no quote in the text of a string. -/
theorem not_mem_quote (h : IsScanned t) {text : String} (ht : t.literal = some (.string text)) :
    '"' ∉ text.toList := by
  obtain ⟨rest, ⟨gap, form, spelled⟩, hspelling, hgives⟩ := h
  cases hgives with
  | @string body line hform hbody =>
    obtain rfl : form = .string := hform
    obtain rfl : spelled = '"' :: (body ++ ['"']) := hbody
    obtain rfl : String.ofList body = text := by simpa using ht
    rw [String.toList_ofList]
    generalize hspelled : '"' :: (body ++ ['"']) = spelled at hspelling
    cases hspelling with
    | string hquote =>
      rw [List.cons.injEq, List.append_cancel_right_eq] at hspelled
      exact hspelled.2 ▸ hquote
  | plain => contradiction
  | number => simp at ht

end IsScanned

end Lox.Source
