import Lox.Proofs.Source.Numerals
import Lox.Proofs.Source.Words
import Lox.Proofs.Tree.Likeness

/-!
# Lexemes written with gaps between them

Lexemes can be written one after another in any way, as long as a blank stands between
two of them: whatever blanks and comments there are besides, the scanner finds these
lexemes and nothing else. So the lexemes of a text, written with single spaces between
them, are scanned into its tokens again, on other lines.
-/

namespace Lox.Source

/-- Blanks and comments, each comment with the line break at its end. -/
inductive Closed : List Char → Prop where
  | nil : Closed []
  | blank : isBlank c → Closed gap → Closed (c :: gap)
  | comment : '\n' ∉ body → Closed gap → Closed ('/' :: '/' :: (body ++ '\n' :: gap))

/-- Whether a text is empty or starts with a blank. -/
def StartsBlank (text : List Char) : Prop := ∀ c ∈ text.head?, isBlank c

theorem startsBlank_nil : StartsBlank [] := fun _ hc => nomatch hc

/-- A text starts blank if its first character is. -/
theorem startsBlank_cons {c : Char} (h : isBlank c) (text : List Char) : StartsBlank (c :: text) :=
  fun _ hd => Option.some.inj hd ▸ h

/-- Whether a lexeme is a token whatever follows it: a number, a string that is closed, a word or
an operator. -/
def Tile.IsWhole (tile : Tile) : Prop := ∀ rest, Spelling rest tile.form tile.text

/-- What follows a lexeme: further ones, each after a gap that starts with a blank, and blanks and
comments after the last one, of which the last comment may go on to the end of the text. -/
inductive Continues : List Tile → List Char → Prop where
  | done : StartsBlank last → Trivia last → Continues [] last
  | next : tile.gap ≠ [] → StartsBlank tile.gap → Closed tile.gap → tile.IsWhole →
      Continues tiles rest → Continues (tile :: tiles) (tile.gap ++ (tile.text ++ rest))

/-- A text of lexemes with gaps between them. What stands before the first one need not start with a
blank. -/
inductive Spaced : List Tile → List Char → Prop where
  | none : Closed gap → StartsBlank last → Trivia last → Spaced [] (gap ++ last)
  | some : Closed tile.gap → tile.IsWhole → Continues tiles rest →
      Spaced (tile :: tiles) (tile.gap ++ (tile.text ++ rest))

section

variable {c : Char} {text rest : List Char} {form : Form}

/-! ### Where a lexeme ends -/

/-- A blank goes on neither a number, a word nor an operator. -/
theorem ends_of_isBlank (h : isBlank c) :
    (isDigit c = false ∧ c ≠ '.') ∧ isWordPart c = false ∧ ∀ d, doubleOperator? d c = none := by
  have double (d : Char) (hc : c ≠ '=' ∧ c ≠ '*') : doubleOperator? d c = none := by
    unfold doubleOperator?
    split <;> simp_all
  simp only [isBlank, Bool.or_eq_true, beq_iff_eq] at h
  rcases h with ((rfl | rfl) | rfl) | rfl <;>
    exact ⟨by decide, by decide +kernel, fun d => double d (by decide)⟩

/-- What a gap may start with is the first character of no number, no string and no word. -/
theorem starts_gap (h : isBlank c ∨ c = '/') :
    isDigit c = false ∧ c ≠ '"' ∧ isWordStart c = false := by
  simp only [isBlank, Bool.or_eq_true, beq_iff_eq] at h
  rcases h with (((rfl | rfl) | rfl) | rfl) | rfl <;>
    exact ⟨by decide, by decide, by decide +kernel⟩

namespace Spelling

/-- The first character of a lexeme tells a number, a string and a word from an operator. -/
theorem first (h : Spelling rest form (c :: text)) :
    (isDigit c ∨ c = '"' ∨ isWordStart c) ∨ ∃ kind, (c :: text, kind) ∈ operators := by
  generalize hspelled : c :: text = spelled at h
  cases h with
  | whole hwhole =>
    subst hspelled
    exact .inl (.inl (hwhole.2 c List.mem_cons_self))
  | decimal hwhole =>
    obtain ⟨d, digits, rfl⟩ := List.exists_cons_of_ne_nil hwhole.1
    obtain ⟨rfl, -⟩ := List.cons.inj hspelled
    exact .inl (.inl (hwhole.2 c List.mem_cons_self))
  | string | openString =>
    obtain ⟨rfl, -⟩ := List.cons.inj hspelled
    exact .inl (.inr (.inl rfl))
  | reserved hword | name hword =>
    subst hspelled
    exact .inl (.inr (.inr hword.1))
  | operator ho =>
    subst hspelled
    exact .inr ⟨_, ho⟩

/-- No lexeme starts a gap: none starts with a blank, and none but one operator with a slash. -/
theorem not_gap (h : Spelling rest form (c :: text)) :
    isBlank c = false ∧ (c = '/' → text = []) := by
  have all : ∀ o ∈ operators,
      o.1.head?.all (!isBlank ·) ∧ (o.1.head? = some '/' → o.1 = ['/']) := by
    decide
  constructor
  · rw [Bool.eq_false_iff]
    intro hblank
    obtain ⟨hdigit, hquote, hword⟩ := starts_gap (.inl hblank)
    rcases h.first with hfirst | ⟨kind, ho⟩
    · simp [hdigit, hquote, hword] at hfirst
    · simpa [hblank] using (all _ ho).1
  · intro hslash
    obtain ⟨hdigit, hquote, hword⟩ := starts_gap (.inr hslash)
    rcases h.first with hfirst | ⟨kind, ho⟩
    · simp [hdigit, hquote, hword] at hfirst
    · subst hslash
      exact (List.cons.inj ((all _ ho).2 rfl)).2

/-- Before a blank and at the end of a text an operator is cut off whole. -/
theorem operatorAt_eq {kind : TokenKind} (ho : (c :: text, kind) ∈ operators)
    (hrest : StartsBlank rest) : operatorAt c (text ++ rest) = (.plain kind, text.length) := by
  match text, ho with
  | [], ho =>
    have hnone : rest.head?.bind (doubleOperator? c) = none := by
      rw [Option.bind_eq_none_iff]
      exact fun d hd => (ends_of_isBlank (hrest d hd)).2.2 c
    rw [List.nil_append, operatorAt, hnone, singleOperator?_eq_some_iff.mpr ho]
    rfl
  | [d], ho =>
    have hdouble : ([d] ++ rest).head?.bind (doubleOperator? c) = some kind :=
      doubleOperator?_eq_some_iff.mpr ho
    rw [operatorAt, hdouble]
    rfl
  | _ :: _ :: _, ho =>
    have hlength := (head_operator ho).2.2.2
    simp at hlength

/-- Before a blank and at the end of a text every lexeme is. -/
theorem lexemeAt_eq (h : Spelling rest form (c :: text)) (hform : form ≠ .openString)
    (hrest : StartsBlank rest) : lexemeAt c (text ++ rest) = (form, text.length) := by
  have numeral (h : Spelling rest .number (c :: text)) :
      lexemeAt c (text ++ rest) = (.number, text.length) :=
    (h.lexemeAt_numeral fun d hd => (ends_of_isBlank (hrest d hd)).1).2
  have word (h : IsWord (c :: text)) : lexemeAt c (text ++ rest) =
      (.plain ((TokenKind.ofWord? (String.ofList (c :: text))).getD .identifier), text.length) := by
    have hrun : (text ++ rest).takeWhile isWordPart = text :=
      takeWhile_append_of_head h.2 fun d hd => (ends_of_isBlank (hrest d hd)).2.1
    rw [lexemeAt_wordStart h.1, wordAt, hrun]
  generalize hspelled : c :: text = spelled at h
  cases h with
  | whole hwhole => exact numeral (hspelled ▸ .whole hwhole)
  | decimal hwhole hdecimals => exact numeral (hspelled ▸ .decimal hwhole hdecimals)
  | string hbody =>
    obtain ⟨rfl, rfl⟩ := List.cons.inj hspelled
    rw [lexemeAt_quote, List.append_assoc, List.singleton_append, stringAt_closed hbody,
      List.length_append, List.length_singleton]
  | openString => exact absurd rfl hform
  | reserved hword hmem =>
    subst hspelled
    rw [word hword, ofWord?_eq_some_iff.mpr hmem, Option.getD_some]
  | name hword hnot =>
    subst hspelled
    have hnone : TokenKind.ofWord? (String.ofList (c :: text)) = none := by
      rw [Option.eq_none_iff_forall_ne_some]
      exact fun kind hkind => hnot kind (ofWord?_eq_some_iff.mp hkind)
    rw [word hword, hnone, Option.getD_none]
  | operator ho =>
    subst hspelled
    obtain ⟨hdigit, hquote, hword, -⟩ := head_operator ho
    rw [lexemeAt_other hdigit hquote hword, operatorAt_eq ho hrest]

end Spelling

/-! ### Gaps -/

/-- Blanks and comments are skipped, up to what follows the last line break. -/
theorem skipGap_closed {gap : List Char} (h : Closed gap) (line : Nat) (rest : List Char) :
    ∃ next, skipGap false line (gap ++ rest) = skipGap false next rest := by
  induction h generalizing line with
  | nil => exact ⟨line, rfl⟩
  | @blank c gap hc _ ih =>
    rw [List.cons_append, skipGap]
    by_cases hbreak : c = '\n'
    · rw [if_pos hbreak]
      exact ih (line + 1)
    · rw [if_neg hbreak, if_pos (by simp [hc])]
      exact ih line
  | @comment body gap hbody _ ih =>
    have flat : '/' :: '/' :: (body ++ '\n' :: gap) ++ rest =
        '/' :: '/' :: (body ++ '\n' :: (gap ++ rest)) := by simp
    have enter : skipGap false line ('/' :: '/' :: (body ++ '\n' :: (gap ++ rest))) =
        skipGap true line (body ++ '\n' :: (gap ++ rest)) := rfl
    rw [flat, enter, skipGap_comment hbody]
    exact ih (line + 1)

namespace Tile

variable {tile : Tile}

/-- A whole tile is no string that was left open. -/
theorem IsWhole.form_ne (h : tile.IsWhole) : tile.form ≠ .openString := by
  obtain ⟨gap, form, text⟩ := tile
  rintro rfl
  cases h ['a'] with
  | openString _ hrest => contradiction

/-- A lexeme after a gap is cut off whole before a blank and at the end of a text. -/
theorem IsWhole.cuts (h : tile.IsWhole) (hgap : Closed tile.gap) (hrest : StartsBlank rest)
    (line : Nat) :
    ∃ x next, x.Fills tile ∧ ∀ xs last, Cuts next rest xs last →
      Cuts line (tile.gap ++ (tile.text ++ rest)) (x :: xs) last := by
  obtain ⟨start, hskip⟩ := skipGap_closed hgap line (tile.text ++ rest)
  obtain ⟨c, text, htext⟩ := (h rest).exists_cons
  have spelled : Spelling rest tile.form (c :: text) := htext ▸ h rest
  obtain ⟨hblank, hslash⟩ := spelled.not_gap
  have comment : ¬ (c = '/' ∧ (text ++ rest).head? = some '/') := by
    rintro ⟨hc, hnext⟩
    rw [hslash hc, List.nil_append] at hnext
    exact absurd (hrest _ hnext) (by decide)
  have found : skipGap false start (c :: (text ++ rest)) = ⟨start, c :: (text ++ rest)⟩ := by
    rw [skipGap, if_neg (ne_lineBreak hblank), if_neg (by simp [hblank]), if_neg comment]
  rw [htext, List.cons_append] at hskip ⊢
  refine ⟨⟨tile.form, c :: text, start + (c :: text).count '\n'⟩,
    start + (c :: text).count '\n', ⟨rfl, htext.symm⟩, fun xs last hcuts => ?_⟩
  exact .lexeme (hskip.trans found) (spelled.lexemeAt_eq h.form_ne hrest) rfl hcuts

/-- On its own such a lexeme is what the scanner finds. -/
theorem IsWhole.isLexeme (h : tile.IsWhole) : IsLexeme [] tile.form tile.text := by
  obtain ⟨c, text, htext⟩ := (h []).exists_cons
  have spelled : Spelling [] tile.form (c :: text) := htext ▸ h []
  have hcut := spelled.lexemeAt_eq h.form_ne startsBlank_nil
  have found := isLexeme_lexemeAt c text
  rw [List.append_nil] at hcut
  rwa [hcut, List.drop_length, List.take_length, ← htext] at found

/-- A whole tile is a token. -/
theorem IsWhole.isToken (h : tile.IsWhole) : tile.isToken = true := by
  obtain ⟨gap, form, text⟩ := tile
  cases h ['a'] with
  | openString _ hrest => contradiction
  | _ => rfl

/-- Tokens for the same lexeme differ in nothing but their lines. -/
theorem Gives.sameText {t t' : Token} (h : tile.Gives t) (h' : tile.Gives t') : t.SameText t' := by
  cases h with
  | plain hform =>
    cases h' with
    | plain hform' =>
      obtain rfl := Form.plain.inj (hform.symm.trans hform')
      rfl
    | number hform' | string hform' => exact nomatch hform.symm.trans hform'
  | number hform =>
    cases h' with
    | number => rfl
    | plain hform' | string hform' => exact nomatch hform.symm.trans hform'
  | string hform hbody =>
    cases h' with
    | string _ hbody' =>
      obtain rfl := List.append_cancel_right (List.cons.inj (hbody.symm.trans hbody')).2
      rfl
    | plain hform' | number hform' => exact nomatch hform.symm.trans hform'

end Tile

/-! ### Whole texts -/

namespace Continues

variable {tiles : List Tile}

/-- What goes on after a tile starts blank. -/
theorem startsBlank (h : Continues tiles text) : StartsBlank text := by
  cases h with
  | done hblank => exact hblank
  | @next tile tiles rest hne hblank =>
    obtain ⟨d, gap, hgap⟩ := List.exists_cons_of_ne_nil hne
    rw [hgap] at hblank ⊢
    exact startsBlank_cons (hblank d rfl) _

/-- The lexemes of what follows a lexeme, from whichever line on. -/
theorem cuts (h : Continues tiles text) (line : Nat) :
    ∃ xs last, Cuts line text xs last ∧ List.Forall₂ Lexeme.Fills xs tiles := by
  induction h generalizing line with
  | @done last _ hlast =>
    obtain ⟨comment, line', hskip⟩ := skipGap_trivia hlast line []
    rw [List.append_nil] at hskip
    exact ⟨[], line', .done hskip, .nil⟩
  | next _ _ hclosed hwhole hrest ih =>
    obtain ⟨x, next, hfills, hmore⟩ := hwhole.cuts hclosed hrest.startsBlank line
    obtain ⟨xs, last, hcuts, hall⟩ := ih next
    exact ⟨x :: xs, last, hmore xs last hcuts, .cons hfills hall⟩

end Continues

/-- The lexemes of a text are those that it has been written with. -/
theorem Spaced.cuts {tiles : List Tile} (h : Spaced tiles text) (line : Nat) :
    ∃ xs last, Cuts line text xs last ∧ List.Forall₂ Lexeme.Fills xs tiles := by
  cases h with
  | @none gap last hclosed _ hlast =>
    obtain ⟨start, hskip⟩ := skipGap_closed hclosed line last
    obtain ⟨comment, line', hlast⟩ := skipGap_trivia hlast start []
    rw [List.append_nil] at hlast
    exact ⟨[], line', .done (hskip.trans hlast), .nil⟩
  | some hclosed hwhole hrest =>
    obtain ⟨x, next, hfills, hmore⟩ := hwhole.cuts hclosed hrest.startsBlank line
    obtain ⟨xs, last, hcuts, hall⟩ := hrest.cuts next
    exact ⟨x :: xs, last, hmore xs last hcuts, .cons hfills hall⟩

/-- Tiles that go on are whole. -/
theorem Continues.isWhole {tiles : List Tile} (h : Continues tiles text) :
    ∀ tile ∈ tiles, tile.IsWhole := by
  induction h with
  | done => exact fun _ ht => nomatch ht
  | next _ _ _ hwhole _ ih => exact List.forall_mem_cons.mpr ⟨hwhole, ih⟩

theorem Spaced.isWhole {tiles : List Tile} (h : Spaced tiles text) :
    ∀ tile ∈ tiles, tile.IsWhole := by
  cases h with
  | none => exact fun _ ht => nomatch ht
  | some _ hwhole hrest => exact List.forall_mem_cons.mpr ⟨hwhole, hrest.isWhole⟩

/-- The tokens of a text are those of the lexemes that it has been written with. -/
theorem Spaced.words {tiles : List Tile} {source : String} (h : Spaced tiles source.toList) :
    (scan source).errors = [] ∧ List.Forall₂ Tile.Gives tiles (words source) := by
  obtain ⟨xs, last, hcuts, hfills⟩ := h.cuts 1
  obtain ⟨hgives, hspoils⟩ :=
    forall₂_stands hfills fun tile ht => ⟨[], (h.isWhole tile ht).isLexeme⟩
  have tokens : ∀ tile ∈ tiles, tile.isToken = true := fun tile ht => (h.isWhole tile ht).isToken
  have noErrors : tiles.filter (!·.isToken) = [] :=
    List.filter_eq_nil_iff.mpr fun tile ht => by simp [tokens tile ht]
  rw [List.filter_eq_self.mpr tokens] at hgives
  rw [noErrors] at hspoils
  rw [words_eq hcuts, scan_eq hcuts]
  exact ⟨List.forall₂_nil_left_iff.mp hspoils, hgives⟩

/-! ### Single spaces -/

/-- The lexemes of tokens with single spaces between them. -/
def spacedOut (tokens : List Token) : String := " ".intercalate (tokens.map Token.lexeme)

/-- Whether a text is scanned without an error into the tokens of another, up to their lines. -/
def ScansLike (source again : String) : Prop :=
  (scan again).errors = [] ∧
    List.Forall₂ Token.SameText (scan source).tokens (scan again).tokens

/-- Tokens are written out with one space before each but the first. -/
theorem toList_spacedOut_cons (t : Token) (ts : List Token) :
    (spacedOut (t :: ts)).toList =
      t.lexeme.toList ++ ts.flatMap fun u => ' ' :: u.lexeme.toList := by
  have hspace : " ".toList = [' '] := rfl
  induction ts generalizing t with
  | nil => simp [spacedOut]
  | cons u us ih =>
    have hne : (u :: us).map Token.lexeme ≠ [] := List.cons_ne_nil _ _
    have hfirst : spacedOut (t :: u :: us) = t.lexeme ++ " " ++ spacedOut (u :: us) :=
      String.intercalate_cons_of_ne_nil hne
    rw [hfirst, String.toList_append, String.toList_append, ih, hspace, List.flatMap_cons,
      List.append_assoc]
    rfl

/-- The token at the end of a text adds at most a space. -/
theorem toList_spacedOut_concat (ts : List Token) (source : String) :
    ∃ last, StartsBlank last ∧ Trivia last ∧
      (spacedOut (ts ++ [endOf source])).toList = (spacedOut ts).toList ++ last := by
  cases ts with
  | nil => exact ⟨[], startsBlank_nil, .nil, rfl⟩
  | cons t ts =>
    refine ⟨[' '], startsBlank_cons rfl [], .blank rfl .nil, ?_⟩
    rw [List.cons_append, toList_spacedOut_cons, toList_spacedOut_cons, List.flatMap_append,
      List.append_assoc]
    rfl

/-- Each token of a text stands for a lexeme that is one whatever follows it. -/
theorem exists_tile {source : String} {t : Token} (ht : t ∈ words source) (gap : List Char) :
    ∃ tile : Tile, tile.gap = gap ∧ tile.IsWhole ∧ tile.Gives t ∧
      t.lexeme.toList = tile.text := by
  obtain ⟨rest, ⟨_, form, spelled⟩, hspelling, hgives⟩ := isScanned_of_mem_words ht
  cases hgives with
  | plain hform =>
    obtain rfl : form = _ := hform
    refine ⟨⟨gap, _, spelled⟩, rfl, fun rest' => ?_, .plain rfl, String.toList_ofList⟩
    cases hspelling with
    | reserved hword hmem => exact .reserved hword hmem
    | name hword hnot => exact .name hword hnot
    | operator ho => exact .operator ho
  | number hform =>
    obtain rfl : form = _ := hform
    refine ⟨⟨gap, _, spelled⟩, rfl, fun rest' => ?_, .number rfl, String.toList_ofList⟩
    cases hspelling with
    | whole hwhole => exact .whole hwhole
    | decimal hwhole hdecimals => exact .decimal hwhole hdecimals
  | string hform hbody =>
    obtain rfl : form = _ := hform
    refine ⟨⟨gap, _, spelled⟩, rfl, fun rest' => ?_, .string rfl hbody, String.toList_ofList⟩
    cases hspelling with
    | string hquote => exact .string hquote

/-- Tokens of a text, each after a space, go on what stands before them. -/
theorem exists_continues {source : String} {ts : List Token} (hts : ∀ t ∈ ts, t ∈ words source)
    (hblank : StartsBlank rest) (hrest : Trivia rest) :
    ∃ tiles, Continues tiles ((ts.flatMap fun t => ' ' :: t.lexeme.toList) ++ rest) ∧
      List.Forall₂ Tile.Gives tiles ts := by
  induction ts with
  | nil => exact ⟨[], .done hblank hrest, .nil⟩
  | cons t ts ih =>
    obtain ⟨ht, hts⟩ := List.forall_mem_cons.mp hts
    obtain ⟨tiles, hcontinues, hgives⟩ := ih hts
    obtain ⟨tile, hgap, hwhole, hgive, hlexeme⟩ := exists_tile ht [' ']
    have hstarts : StartsBlank tile.gap := hgap ▸ startsBlank_cons rfl []
    have hclosed : Closed tile.gap := hgap ▸ .blank rfl .nil
    have hne : tile.gap ≠ [] := hgap ▸ List.cons_ne_nil _ _
    refine ⟨tile :: tiles, ?_, .cons hgive hgives⟩
    have hnext := Continues.next hne hstarts hclosed hwhole hcontinues
    rw [hgap, ← hlexeme, ← List.append_assoc, ← List.append_assoc] at hnext
    exact hnext

/-- So tokens of a text with single spaces between them are spaced lexemes. -/
theorem exists_spaced {source : String} {ts : List Token} (hts : ∀ t ∈ ts, t ∈ words source)
    (hblank : StartsBlank rest) (hrest : Trivia rest) :
    ∃ tiles, Spaced tiles ((spacedOut ts).toList ++ rest) ∧ List.Forall₂ Tile.Gives tiles ts := by
  cases ts with
  | nil => exact ⟨[], .none .nil hblank hrest, .nil⟩
  | cons t ts =>
    obtain ⟨ht, hts⟩ := List.forall_mem_cons.mp hts
    obtain ⟨tile, hgap, hwhole, hgive, hlexeme⟩ := exists_tile ht []
    obtain ⟨tiles, hcontinues, hgives⟩ := exists_continues hts hblank hrest
    refine ⟨tile :: tiles, ?_, .cons hgive hgives⟩
    have hsome := Spaced.some (hgap ▸ .nil) hwhole hcontinues
    rwa [hgap, List.nil_append, ← hlexeme, ← List.append_assoc, ← toList_spacedOut_cons] at hsome

/-- Tokens of the same lexemes differ in nothing but their lines. -/
theorem forall₂_sameText {tiles : List Tile} {ts us : List Token}
    (hts : List.Forall₂ Tile.Gives tiles ts) (hus : List.Forall₂ Tile.Gives tiles us) :
    List.Forall₂ Token.SameText ts us := by
  induction hts generalizing us with
  | nil =>
    cases hus
    exact .nil
  | cons ht _ ih =>
    cases hus with
    | cons hu hus => exact .cons (ht.sameText hu) (ih hus)

/-- The tokens of a text, with single spaces between their lexemes and blanks after them, are
scanned again. -/
theorem scansLike_of_toList {source again : String} (hblank : StartsBlank rest)
    (hrest : Trivia rest) (hagain : again.toList = (spacedOut (words source)).toList ++ rest) :
    ScansLike source again := by
  obtain ⟨tiles, hspaced, hgives⟩ := exists_spaced (fun _ ht => ht) hblank hrest
  obtain ⟨clean, hagain⟩ := (hagain ▸ hspaced).words
  refine ⟨clean, ?_⟩
  rw [tokens_eq, tokens_eq]
  exact List.rel_append (forall₂_sameText hgives hagain) (.cons rfl .nil)

/-- Lexemes are scanned as they have been written, whatever blanks and comments stand around them,
as long as a blank follows each that another one follows: no error is found, and the tokens are
those of the lexemes, in order, and the end of the input. So the lexemes of the tokens of a text,
with single spaces between them, are scanned into the same tokens on other lines, whether or not
the empty one at the end is among them. -/
theorem scan_spaced :
    (∀ tiles source, Spaced tiles source.toList → (scan source).errors = [] ∧
      ∃ tokens line, (scan source).tokens = tokens ++ [.plain .eof "" line] ∧
        List.Forall₂ Tile.Gives tiles tokens) ∧
    ∀ source, ScansLike source (spacedOut (scan source).tokens.dropLast) ∧
      ScansLike source (spacedOut (scan source).tokens) := by
  refine ⟨fun tiles source h => ?_, fun source => ⟨?_, ?_⟩⟩
  · obtain ⟨clean, hgives⟩ := h.words
    exact ⟨clean, _, _, tokens_eq source, hgives⟩
  · exact scansLike_of_toList startsBlank_nil .nil (List.append_nil _).symm
  · obtain ⟨last, hblank, hlast, htext⟩ := toList_spacedOut_concat (words source) source
    exact scansLike_of_toList hblank hlast (tokens_eq source ▸ htext)

/-- A comment right before a number, a slash and a string of slashes next to comments, operators
that would be others without the space between them, and a word that starts like a reserved one. -/
theorem scan_spaced_slashes :
    let tiles : List Tile :=
      [⟨['/', '/', '1', '\n'], .number, ['1', '.', '5']⟩,
        ⟨['\t', '/', '/', '\n'], .plain .slash, ['/']⟩,
        ⟨['\r', '/', '/', '/', '\n'], .string, ['"', '/', '/', '"']⟩,
        ⟨[' '], .plain .equal, ['=']⟩, ⟨[' '], .plain .equalEqual, ['=', '=']⟩,
        ⟨['\n'], .plain .identifier, ['f', 'o', 'r', 'k']⟩]
    let source := "//1\n1.5\t//\n/\r///\n\"//\" = ==\nfork //"
    Spaced tiles source.toList ∧ (scan source).errors = [] ∧
      ∃ tokens line, (scan source).tokens = tokens ++ [.plain .eof "" line] ∧
        List.Forall₂ Tile.Gives tiles tokens := by
  intro tiles source
  have one : IsDigits ['1'] := ⟨List.cons_ne_nil _ _, List.forall_mem_singleton.mpr rfl⟩
  have five : IsDigits ['5'] := ⟨List.cons_ne_nil _ _, List.forall_mem_singleton.mpr rfl⟩
  have fork : IsWord ['f', 'o', 'r', 'k'] :=
    ⟨by decide +kernel, List.all_eq_true.mp (by decide +kernel)⟩
  have unreserved : ∀ kind, (String.ofList ['f', 'o', 'r', 'k'], kind) ∉ reservedWords := by
    intro kind
    cases kind <;> decide
  have comment (body : List Char) (h : '\n' ∉ body) : Closed ('/' :: '/' :: (body ++ ['\n'])) :=
    .comment h .nil
  have last : Continues [] [' ', '/', '/'] :=
    .done (startsBlank_cons rfl _) (.blank rfl (@Trivia.comment [] [] (by decide) nofun .nil))
  have word : Continues (tiles.drop 5) _ :=
    .next (by decide) (startsBlank_cons rfl _) (.blank rfl .nil)
      (fun _ => .name fork unreserved) last
  have doubled : Continues (tiles.drop 4) _ :=
    .next (by decide) (startsBlank_cons rfl _) (.blank rfl .nil)
      (fun _ => .operator (by decide)) word
  have single : Continues (tiles.drop 3) _ :=
    .next (by decide) (startsBlank_cons rfl _) (.blank rfl .nil) (fun _ => .operator (by decide))
      doubled
  have string : Continues (tiles.drop 2) _ :=
    .next (by decide) (startsBlank_cons rfl _) (.blank rfl (comment ['/'] (by decide)))
      (fun _ => @Spelling.string _ ['/', '/'] (by decide)) single
  have slash : Continues (tiles.drop 1) _ :=
    .next (by decide) (startsBlank_cons rfl _) (.blank rfl (comment [] (by decide)))
      (fun _ => .operator (by decide)) string
  have laid : Spaced tiles (tiles.flatMap (fun tile => tile.gap ++ tile.text) ++ [' ', '/', '/']) :=
    .some (comment ['1'] (by decide)) (fun _ => .decimal one five) slash
  have written : source.toList =
      tiles.flatMap (fun tile => tile.gap ++ tile.text) ++ [' ', '/', '/'] := by decide +kernel
  have spaced : Spaced tiles source.toList := written ▸ laid
  exact ⟨spaced, scan_spaced.1 tiles source spaced⟩

end

end Lox.Source
