import Lox.Proofs.Source.Tiling

/-!
# The lines of tokens and errors

A token or an error is on the line on which its lexeme ends: one more than there are line breaks in
the text up to that end, those in gaps and in the lexeme itself counted. A search for the end among
the offsets of the line breaks, counted in bytes, gives the same line.
-/

namespace Lox.Source

/-- Tiles, each with the text up to its end. What is before the first one is given. -/
def placed (before : List Char) : List Tile → List (Tile × List Char)
  | [] => []
  | tile :: tiles =>
    let upTo := before ++ (tile.gap ++ tile.text)
    (tile, upTo) :: placed upTo tiles

/-- The line that ends where a text ends, if the text starts on the first line. -/
def endLine (upTo : List Char) : Nat := 1 + upTo.count '\n'

/-- A text ends as many lines further down as it has line breaks. -/
theorem endLine_append (before text : List Char) :
    endLine (before ++ text) = endLine before + text.count '\n' := by
  rw [endLine, endLine, List.count_append, Nat.add_assoc]

/-- The end of a tile is within the text, and the rest of the text is what follows its lexeme. -/
theorem Tiles.mem_placed {tiles : List Tile} {last text : List Char} (h : Tiles tiles last text)
    (before : List Char) :
    ∀ p ∈ placed before tiles, ∃ rest, p.2 ++ rest = before ++ text ∧
      IsLexeme rest p.1.form p.1.text ∧ p.1.text <:+ p.2 := by
  induction h generalizing before with
  | done => exact fun p hp => nomatch hp
  | @next rest tiles last tile _ hlexeme _ ih =>
    rw [placed]
    refine List.forall_mem_cons.mpr ⟨⟨rest, by simp only [List.append_assoc], hlexeme, ?_⟩, ?_⟩
    · exact ⟨before ++ tile.gap, by simp only [List.append_assoc]⟩
    · intro p hp
      obtain ⟨rest', hsplit, hrest⟩ := ih _ p hp
      exact ⟨rest', by simpa only [List.append_assoc] using hsplit, hrest⟩

/-- The scanner lays tiles, and a lexeme is on the line on which its tile ends. -/
theorem Cuts.placed {line lastLine : Nat} {text : List Char} {xs : List Lexeme}
    (h : Cuts line text xs lastLine) :
    ∃ tiles last, Tiles tiles last text ∧ ∀ before, line = endLine before →
      List.Forall₂ (fun x p => x.Fills p.1 ∧ x.line = endLine p.2) xs (placed before tiles) := by
  induction h with
  | done hgap =>
    obtain ⟨gap, rfl, hlast⟩ := exists_gap hgap
    rw [List.append_nil] at *
    exact ⟨[], gap, .done hlast, fun _ _ => .nil⟩
  | @more line text next c rest xs lastLine hgap _ ih =>
    have hcount := skipGap_count false line text
    obtain ⟨gap, rfl, hfirst, hlexeme⟩ := exists_cut_tile hgap
    obtain ⟨tiles, last, htiles, hplaced⟩ := ih
    refine ⟨⟨gap, (cut next c rest).1.form, (cut next c rest).1.text⟩ :: tiles, last,
      .next hfirst hlexeme htiles, fun before hbefore => ?_⟩
    have hends : (cut next c rest).1.line =
        endLine (before ++ (gap ++ (cut next c rest).1.text)) := by
      have hcut : (cut next c rest).1.line + (cut next c rest).2.rest.count '\n' = _ :=
        cut_count next c rest
      rw [hgap] at hcount
      rw [endLine_append, ← hbefore]
      simp only [List.count_append] at hcount ⊢
      omega
    exact .cons ⟨⟨rfl, rfl⟩, hends⟩ (hplaced _ hends)

/-- Lexemes are cut in the order of their lines. -/
theorem Cuts.pairwise_line {line last : Nat} {text : List Char} {xs : List Lexeme}
    (h : Cuts line text xs last) : xs.Pairwise (·.line ≤ ·.line) := by
  induction h with
  | done => exact .nil
  | more _ h ih => exact .cons (fun x hx => (h.line_mem x hx).1) ih

/-! ### Line breaks by their offsets -/

/-- The number of bytes of a text. -/
def byteLength : List Char → Nat
  | [] => 0
  | c :: text => c.utf8Size + byteLength text

/-- The offsets of the line breaks of a text, in bytes, that of its start given. -/
def breakOffsets : Nat → List Char → List Nat
  | _, [] => []
  | offset, c :: text =>
    if c = '\n' then offset :: breakOffsets (offset + c.utf8Size) text
    else breakOffsets (offset + c.utf8Size) text

/-- The line on which something ends, by the offset of its end: the search finds how many of the
offsets of line breaks are less. -/
def lineAt (offsets : List Nat) (stop : Nat) : Nat := (offsets.takeWhile (· < stop)).length + 1

/-- The line breaks of two texts are those of the first, and those of the second behind it. -/
theorem breakOffsets_append (offset : Nat) (before after : List Char) :
    breakOffsets offset (before ++ after) =
      breakOffsets offset before ++ breakOffsets (offset + byteLength before) after := by
  induction before generalizing offset with
  | nil => simp [breakOffsets, byteLength]
  | cons c before ih =>
    rw [List.cons_append, breakOffsets, breakOffsets, ih, byteLength, Nat.add_assoc]
    split <;> rfl

/-- There are as many offsets as line breaks. -/
theorem length_breakOffsets (offset : Nat) (text : List Char) :
    (breakOffsets offset text).length = text.count '\n' := by
  induction text generalizing offset with
  | nil => rfl
  | cons c text ih =>
    rw [breakOffsets]
    by_cases hbreak : c = '\n'
    · rw [if_pos hbreak, List.length_cons, ih, hbreak, List.count_cons_self]
    · rw [if_neg hbreak, ih, List.count_cons_of_ne hbreak]

/-- Every offset is that of a character of the text. -/
theorem mem_breakOffsets {offset : Nat} {text : List Char} :
    ∀ o ∈ breakOffsets offset text, offset ≤ o ∧ o < offset + byteLength text := by
  induction text generalizing offset with
  | nil => exact fun o ho => nomatch ho
  | cons c text ih =>
    have hsize := c.utf8Size_pos
    have later : ∀ o ∈ breakOffsets (offset + c.utf8Size) text,
        offset ≤ o ∧ o < offset + byteLength (c :: text) := by
      intro o ho
      obtain ⟨hle, hlt⟩ := ih o ho
      rw [byteLength, ← Nat.add_assoc]
      exact ⟨Nat.le_trans (Nat.le_add_right ..) hle, hlt⟩
    rw [breakOffsets]
    split
    · refine List.forall_mem_cons.mpr ⟨⟨Nat.le_refl _, ?_⟩, later⟩
      rw [byteLength]
      omega
    · exact later

/-- The offsets ascend. -/
theorem pairwise_breakOffsets (offset : Nat) (text : List Char) :
    (breakOffsets offset text).Pairwise (· < ·) := by
  induction text generalizing offset with
  | nil => exact .nil
  | cons c text ih =>
    have hsize := c.utf8Size_pos
    rw [breakOffsets]
    split
    · exact .cons (fun o ho => by have := (mem_breakOffsets o ho).1; omega) (ih _)
    · exact ih _

/-- The search for the end of a part of the text gives the line on which the part ends. -/
theorem lineAt_eq (before after : List Char) :
    lineAt (breakOffsets 0 (before ++ after)) (byteLength before) = endLine before := by
  have earlier : ∀ o ∈ breakOffsets 0 before, decide (o < byteLength before) = true := by
    intro o ho
    simpa using (mem_breakOffsets o ho).2
  have later : (breakOffsets (0 + byteLength before) after).takeWhile
      (· < byteLength before) = [] := by
    rw [Nat.zero_add, List.takeWhile_eq_nil_iff]
    intro hlength
    have hle := (mem_breakOffsets _ (List.getElem_mem hlength)).1
    simpa using hle
  rw [lineAt, breakOffsets_append, List.takeWhile_append_of_pos earlier, later, List.append_nil,
    length_breakOffsets, endLine, Nat.add_comm]

/-! ### Tokens and errors -/

/-- The lines of tokens never decrease, up to the one at the end. -/
theorem pairwise_line_tokens (source : String) :
    (scan source).tokens.Pairwise (·.line ≤ ·.line) := by
  obtain ⟨xs, lastLine, hcuts⟩ := Cuts.exists_cuts 1 source.toList
  rw [tokens_eq, List.pairwise_append]
  refine ⟨?_, List.pairwise_singleton _ _, fun t ht stop hstop => ?_⟩
  · rw [words_eq hcuts]
    refine hcuts.pairwise_line.filterMap _ fun x y hxy t ht u hu => ?_
    rw [line_token? ht, line_token? hu]
    exact hxy
  · obtain rfl := List.mem_singleton.mp hstop
    exact (line_mem_tokens (tokens_eq source ▸ List.mem_append_left _ ht)).2

/-- Lexical errors come in the order of their lines. -/
theorem pairwise_line_errors (source : String) :
    (scan source).errors.Pairwise (·.line ≤ ·.line) := by
  obtain ⟨xs, lastLine, hcuts⟩ := Cuts.exists_cuts 1 source.toList
  rw [scan_eq hcuts]
  refine hcuts.pairwise_line.filterMap _ fun x y hxy e he f hf => ?_
  rw [line_error? he, line_error? hf]
  exact hxy

/-- Every token and every error is on the line on which its lexeme ends, which for a string that is
not closed is the last one; and the end of the input is on the last line. The lines never decrease.
The search among the offsets of the line breaks finds the same lines. -/
theorem scan_lines (source : String) :
    ∃ tiles last tokens, Tiles tiles last source.toList ∧
      (scan source).tokens = tokens ++ [.plain .eof "" (1 + source.toList.count '\n')] ∧
      List.Forall₂ (fun p t => p.1.Gives t ∧ t.line = 1 + p.2.count '\n')
        ((placed [] tiles).filter (·.1.isToken)) tokens ∧
      List.Forall₂ (fun p e => p.1.Spoils e ∧ e.line = 1 + p.2.count '\n')
        ((placed [] tiles).filter (!·.1.isToken)) (scan source).errors ∧
      (∀ p ∈ placed [] tiles, p.2 <+: source.toList ∧ p.1.text <:+ p.2 ∧
        (p.1.form = .openString → p.2 = source.toList) ∧
        lineAt (breakOffsets 0 source.toList) (byteLength p.2) = 1 + p.2.count '\n') ∧
      (breakOffsets 0 source.toList).Pairwise (· < ·) ∧
      (breakOffsets 0 source.toList).length + 1 = 1 + source.toList.count '\n' ∧
      (scan source).tokens.Pairwise (·.line ≤ ·.line) ∧
      (scan source).errors.Pairwise (·.line ≤ ·.line) := by
  obtain ⟨xs, lastLine, hcuts⟩ := Cuts.exists_cuts 1 source.toList
  obtain ⟨tiles, last, htiles, hplaced⟩ := hcuts.placed
  have mem := htiles.mem_placed []
  have hlexemes : ∀ p ∈ placed [] tiles, ∃ rest, IsLexeme rest p.1.form p.1.text := fun p hp => by
    obtain ⟨rest, -, hlexeme, -⟩ := mem p hp
    exact ⟨rest, hlexeme⟩
  obtain ⟨hgives, hspoils⟩ := forall₂_stands_line (p := Prod.fst)
    (P := fun p line => line = endLine p.2) (hplaced [] rfl) hlexemes
  refine ⟨tiles, last, xs.filterMap Lexeme.token?, htiles, ?_, hgives, ?_, fun p hp => ?_,
    pairwise_breakOffsets _ _, ?_, pairwise_line_tokens source, pairwise_line_errors source⟩
  · rw [scan_eq hcuts, hcuts.last_eq]
  · rw [scan_eq hcuts]
    exact hspoils
  · obtain ⟨rest, hsplit, hlexeme, htext⟩ := mem p hp
    rw [List.nil_append] at hsplit
    refine ⟨⟨rest, hsplit⟩, htext, fun hopen => ?_, hsplit ▸ lineAt_eq p.2 rest⟩
    rw [← hsplit, hlexeme.rest_eq_nil hopen, List.append_nil]
  · rw [length_breakOffsets, Nat.add_comm]

end Lox.Source
