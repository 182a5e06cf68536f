import Mathlib.Data.List.Forall2
import Lox.Proofs.Source.Joining
import Lox.Proofs.Source.Lexicon

/-!
# Source texts as tiles

A source text is a gap, a lexeme, a gap, a lexeme and so on, up to a last gap: nothing is
lost between them and nothing is in two of them. Each gap is as long as it can be, and so
is each lexeme. Tokens and lexical errors are what the lexemes stand for, in order.
-/

namespace Lox.Source

/-- Blanks and comments. A comment runs up to the end of its line, or of the text. -/
inductive Trivia : List Char → Prop where
  | nil : Trivia []
  | blank : isBlank c → Trivia gap → Trivia (c :: gap)
  | comment : '\n' ∉ body → (∀ c ∈ gap.head?, c = '\n') → Trivia gap →
      Trivia ('/' :: '/' :: (body ++ gap))

/-- A gap that `rest` follows: no longer run of blanks and comments is at its place. -/
structure IsGap (rest gap : List Char) : Prop where
  trivia : Trivia gap
  longest : ∀ gap' rest', gap' ++ rest' = gap ++ rest → Trivia gap' → gap'.length ≤ gap.length

/-- A lexeme and the gap before it. -/
structure Tile where
  gap : List Char
  form : Form
  text : List Char

/-- Tiles and a last gap, one after another, that make up a text. -/
inductive Tiles : List Tile → List Char → List Char → Prop where
  | done : IsGap [] last → Tiles [] last last
  | next : IsGap (tile.text ++ rest) tile.gap → IsLexeme rest tile.form tile.text →
      Tiles tiles last rest → Tiles (tile :: tiles) last (tile.gap ++ (tile.text ++ rest))

namespace IsLexeme

variable {form : Form} {text rest : List Char}

/-- A lexeme has a text. -/
theorem text_ne_nil (h : IsLexeme rest form text) : text ≠ [] := by
  cases h with
  | longest hspelling =>
    obtain ⟨c, y, rfl⟩ := hspelling.exists_cons
    exact List.cons_ne_nil c y
  | unexpected => exact List.cons_ne_nil _ _

/-- Nothing follows a string that is not closed. -/
theorem rest_eq_nil (h : IsLexeme rest form text) (hform : form = .openString) : rest = [] := by
  subst hform
  cases h with
  | longest hspelling =>
    cases hspelling with
    | openString _ hrest => exact hrest

/-- A string that is closed stands between two quotes. -/
theorem exists_body (h : IsLexeme rest form text) (hform : form = .string) :
    ∃ body, text = '"' :: (body ++ ['"']) := by
  subst hform
  cases h with
  | longest hspelling =>
    cases hspelling with
    | @string body _ => exact ⟨body, rfl⟩

end IsLexeme

namespace Tiles

variable {tiles : List Tile} {last text : List Char}

/-- The text is the gaps and lexemes one after another. -/
theorem text_eq (h : Tiles tiles last text) :
    text = tiles.flatMap (fun tile => tile.gap ++ tile.text) ++ last := by
  induction h with
  | done => rfl
  | next _ _ _ ih => simp only [List.flatMap_cons, List.append_assoc, ih]

/-- Each tile is a lexeme before what follows it. -/
theorem isLexeme_mem (h : Tiles tiles last text) :
    ∀ tile ∈ tiles, ∃ rest, IsLexeme rest tile.form tile.text := by
  induction h with
  | done => exact fun tile ht => nomatch ht
  | next _ hlexeme _ ih => exact List.forall_mem_cons.mpr ⟨⟨_, hlexeme⟩, ih⟩

/-- A string that is not closed is the last lexeme. -/
theorem form_ne_openString (h : Tiles tiles last text) :
    ∀ tile ∈ tiles.dropLast, tile.form ≠ .openString := by
  induction h with
  | done => exact fun tile ht => nomatch ht
  | @next tile rest tiles last _ hlexeme hrest ih =>
    cases hrest with
    | done => exact fun tile ht => nomatch ht
    | next _ hnext hmore =>
      rw [List.dropLast_cons_of_ne_nil (List.cons_ne_nil _ _)]
      refine List.forall_mem_cons.mpr ⟨fun hopen => ?_, ih⟩
      have hend := hlexeme.rest_eq_nil hopen
      rw [List.append_eq_nil_iff, List.append_eq_nil_iff] at hend
      exact hnext.text_ne_nil hend.2.1

end Tiles

/-- A token for a lexeme that is one. Its line is not looked at here. -/
inductive Tile.Gives (tile : Tile) : Token → Prop where
  | plain : tile.form = .plain kind → Gives tile ⟨kind, String.ofList tile.text, none, line⟩
  | number : tile.form = .number →
      Gives tile ⟨.number, String.ofList tile.text, some (.number (Number.read tile.text)), line⟩
  | string : tile.form = .string → tile.text = '"' :: (body ++ ['"']) →
      Gives tile
        ⟨.string, String.ofList tile.text, some (.string (String.ofList body)), line⟩

/-- An error for a lexeme that is no token. -/
inductive Tile.Spoils (tile : Tile) : SyntaxError → Prop where
  | unexpected : tile.form = .unexpected c →
      Spoils tile (.lexical line ("Unexpected character: " ++ c.toString))
  | openString : tile.form = .openString → Spoils tile (.lexical line "Unterminated string.")

/-- Whether a lexeme is a token. -/
def Tile.isToken (tile : Tile) : Bool :=
  match tile.form with
  | .plain _ | .number | .string => true
  | .openString | .unexpected _ => false

section

variable {text : List Char} {line : Nat}

/-- The two slashes of a comment that is open at the start of a text. -/
def opening (comment : Bool) : List Char := if comment then ['/', '/'] else []

/-- A comment goes on up to the end of its line. -/
theorem Trivia.in_comment {c : Char} {gap : List Char} (hc : c ≠ '\n')
    (h : Trivia ('/' :: '/' :: gap)) : Trivia ('/' :: '/' :: c :: gap) := by
  generalize htext : '/' :: '/' :: gap = text at h
  cases h with
  | nil => contradiction
  | @blank d gap' hd _ =>
    rw [List.cons.injEq] at htext
    rw [← htext.1] at hd
    contradiction
  | @comment body gap' hbody hend hgap =>
    rw [List.cons.injEq, List.cons.injEq] at htext
    obtain ⟨-, -, rfl⟩ := htext
    have hbody' : '\n' ∉ c :: body := by
      rw [List.mem_cons, not_or]
      exact ⟨fun h => hc h.symm, hbody⟩
    exact .comment hbody' hend hgap

/-- After the line of a comment the gap goes on. -/
theorem Trivia.after_comment {gap : List Char} (h : Trivia gap) :
    Trivia ('/' :: '/' :: '\n' :: gap) :=
  .comment (List.not_mem_nil) (fun _ hc => (Option.mem_some.mp hc).symm)
    (.blank (by decide) h)

/-- What is skipped is trivia. -/
theorem exists_trivia (comment : Bool) (line : Nat) (text : List Char) :
    ∃ gap, text = gap ++ (skipGap comment line text).rest ∧ Trivia (opening comment ++ gap) := by
  induction hn : text.length using Nat.strongRecOn generalizing comment line text with
  | ind n shorter =>
    cases text with
    | nil =>
      refine ⟨[], rfl, ?_⟩
      cases comment with
      | false => exact .nil
      | true => exact .comment List.not_mem_nil (fun _ hc => nomatch hc) .nil
    | cons c text =>
      rw [List.length_cons] at hn
      rw [skipGap]
      by_cases hbreak : c = '\n'
      · obtain ⟨gap, htext, hgap⟩ := shorter text.length (by omega) false (line + 1) text rfl
        refine ⟨c :: gap, ?_, ?_⟩
        · rw [if_pos hbreak, List.cons_append, ← htext]
        · subst hbreak
          cases comment with
          | false => exact .blank (by decide) hgap
          | true => exact hgap.after_comment
      rw [if_neg hbreak]
      by_cases hblank : (comment || isBlank c) = true
      · obtain ⟨gap, htext, hgap⟩ := shorter text.length (by omega) comment line text rfl
        refine ⟨c :: gap, ?_, ?_⟩
        · rw [if_pos hblank, List.cons_append, ← htext]
        · cases comment with
          | false => exact .blank hblank hgap
          | true => exact hgap.in_comment hbreak
      rw [if_neg hblank]
      have hcode : comment = false := by
        rw [Bool.or_eq_true, not_or] at hblank
        exact Bool.eq_false_iff.mpr hblank.1
      subst hcode
      by_cases hslash : c = '/' ∧ text.head? = some '/'
      · rw [if_pos hslash]
        obtain ⟨rfl, hhead⟩ := hslash
        obtain ⟨text, rfl⟩ := List.head?_eq_some_iff.mp hhead
        rw [List.length_cons] at hn
        obtain ⟨gap, htext, hgap⟩ := shorter text.length (by omega) true line text rfl
        exact ⟨'/' :: '/' :: gap, congrArg ('/' :: '/' :: ·) htext, hgap⟩
      · rw [if_neg hslash]
        exact ⟨[], rfl, .nil⟩

/-- In a comment everything up to the end of the line is skipped. -/
theorem skipGap_comment {body : List Char} (h : '\n' ∉ body) (line : Nat) (rest : List Char) :
    skipGap true line (body ++ rest) = skipGap true line rest := by
  induction body with
  | nil => rfl
  | cons c body ih =>
    rw [List.mem_cons, not_or] at h
    rw [List.cons_append, skipGap, if_neg fun hc => h.1 hc.symm, if_pos (Bool.true_or _), ih h.2]

/-- All trivia are skipped, whatever follows. -/
theorem skipGap_trivia {gap : List Char} (h : Trivia gap) (line : Nat) (rest : List Char) :
    ∃ comment line', skipGap false line (gap ++ rest) = skipGap comment line' rest := by
  induction h generalizing line with
  | nil => exact ⟨false, line, rfl⟩
  | @blank c gap hc _ ih =>
    rw [List.cons_append, skipGap]
    by_cases hbreak : c = '\n'
    · rw [if_pos hbreak]
      exact ih (line + 1)
    · rw [if_neg hbreak, if_pos (by simp [hc])]
      exact ih line
  | @comment body gap hbody hend _ ih =>
    have enter : skipGap false line ('/' :: '/' :: (body ++ gap) ++ rest) =
        skipGap true line (gap ++ rest) := by
      rw [← skipGap_comment hbody line (gap ++ rest), ← List.append_assoc]
      rfl
    rw [enter]
    cases gap with
    | nil => exact ⟨true, line, rfl⟩
    | cons c gap =>
      -- The line break after a comment is skipped in either state.
      obtain rfl : c = '\n' := hend c rfl
      exact ih line

/-- What is skipped is as long as it can be. -/
theorem isGap_of_skipGap {gap : List Char} {place : Position}
    (h : skipGap false line text = place) (htext : text = gap ++ place.rest)
    (hgap : Trivia gap) : IsGap place.rest gap := by
  refine ⟨hgap, fun gap' rest' hsame hgap' => ?_⟩
  obtain ⟨comment, line', hskip⟩ := skipGap_trivia hgap' line rest'
  have hshorter := length_rest_skipGap_le comment line' rest'
  rw [← hskip, hsame, ← htext, h] at hshorter
  have hlength := congrArg List.length hsame
  rw [List.length_append, List.length_append] at hlength
  omega

/-- What is skipped is a gap before the next lexeme. -/
theorem exists_gap {place : Position} (h : skipGap false line text = place) :
    ∃ gap, text = gap ++ place.rest ∧ IsGap place.rest gap := by
  obtain ⟨gap, htext, hgap⟩ := exists_trivia false line text
  rw [h] at htext
  exact ⟨gap, htext, isGap_of_skipGap h htext hgap⟩

/-- The lexeme of a tile. -/
def Lexeme.Fills (x : Lexeme) (tile : Tile) : Prop := x.form = tile.form ∧ x.text = tile.text

/-- What is cut off after a gap is a tile, and the text that is left follows it. -/
theorem exists_cut_tile {next : Nat} {c : Char} {rest : List Char}
    (h : skipGap false line text = ⟨next, c :: rest⟩) :
    ∃ gap, text = gap ++ ((cut next c rest).1.text ++ (cut next c rest).2.rest) ∧
      IsGap ((cut next c rest).1.text ++ (cut next c rest).2.rest) gap ∧
      IsLexeme (cut next c rest).2.rest (cut next c rest).1.form (cut next c rest).1.text := by
  have hsplit : (cut next c rest).1.text ++ (cut next c rest).2.rest = c :: rest := by
    simp only [cut, List.cons_append, List.take_append_drop]
  obtain ⟨gap, htext, hgap⟩ := exists_gap h
  exact ⟨gap, hsplit ▸ htext, hsplit ▸ hgap, isLexeme_lexemeAt c rest⟩

/-- The scanner lays tiles. -/
theorem Cuts.tiles {xs : List Lexeme} {lastLine : Nat} (h : Cuts line text xs lastLine) :
    ∃ tiles last, Tiles tiles last text ∧ List.Forall₂ Lexeme.Fills xs tiles := by
  induction h with
  | done hgap =>
    obtain ⟨gap, rfl, hlast⟩ := exists_gap hgap
    rw [List.append_nil] at *
    exact ⟨[], gap, .done hlast, .nil⟩
  | @more line text next c rest xs lastLine hgap _ ih =>
    obtain ⟨gap, rfl, hfirst, hlexeme⟩ := exists_cut_tile hgap
    obtain ⟨tiles, last, htiles, hfills⟩ := ih
    exact ⟨⟨gap, (cut next c rest).1.form, (cut next c rest).1.text⟩ :: tiles, last,
      .next hfirst hlexeme htiles, .cons ⟨rfl, rfl⟩ hfills⟩

/-- What a lexeme stands for goes by its tile: a token, or an error. -/
theorem Lexeme.Fills.stands {x : Lexeme} {tile : Tile} (h : x.Fills tile) {rest : List Char}
    (hlexeme : IsLexeme rest tile.form tile.text) :
    (tile.isToken = true ∧ (∃ t, x.token? = some t ∧ tile.Gives t) ∧ x.error? = none) ∨
      (tile.isToken = false ∧ x.token? = none ∧ ∃ e, x.error? = some e ∧ tile.Spoils e) := by
  obtain ⟨form, text, line⟩ := x
  obtain ⟨rfl, rfl⟩ := h
  unfold Tile.isToken
  cases hform : tile.form with
  | plain kind => exact .inl ⟨rfl, ⟨_, rfl, .plain hform⟩, rfl⟩
  | number => exact .inl ⟨rfl, ⟨_, rfl, .number hform⟩, rfl⟩
  | string =>
    obtain ⟨body, hbody⟩ := hlexeme.exists_body hform
    have hunquote : unquote tile.text = body := by
      rw [hbody, unquote, List.drop_one, List.tail_cons, List.dropLast_concat]
    exact .inl ⟨rfl, ⟨_, rfl, hunquote ▸ .string hform (hunquote ▸ hbody)⟩, rfl⟩
  | openString => exact .inr ⟨rfl, rfl, _, rfl, .openString hform⟩
  | unexpected c => exact .inr ⟨rfl, rfl, _, rfl, .unexpected hform⟩

theorem line_error? {x : Lexeme} {e : SyntaxError} (h : x.error? = some e) : e.line = x.line := by
  unfold Lexeme.error? at h
  split at h <;> first | contradiction | (cases h; rfl)

/-- Tokens and errors are those of the tiles, in order, and on the lines of their lexemes: what is
known of a lexeme's tile and its line is known of the line of what it stands for. -/
theorem forall₂_stands_line {p : α → Tile} {P : α → Nat → Prop} {xs : List Lexeme} {tiles : List α}
    (hfills : List.Forall₂ (fun x tile => x.Fills (p tile) ∧ P tile x.line) xs tiles)
    (hlexemes : ∀ tile ∈ tiles, ∃ rest, IsLexeme rest (p tile).form (p tile).text) :
    List.Forall₂ (fun tile t => (p tile).Gives t ∧ P tile t.line)
        (tiles.filter fun tile => (p tile).isToken) (xs.filterMap Lexeme.token?) ∧
      List.Forall₂ (fun tile e => (p tile).Spoils e ∧ P tile e.line)
        (tiles.filter fun tile => !(p tile).isToken) (xs.filterMap Lexeme.error?) := by
  induction hfills with
  | nil => exact ⟨.nil, .nil⟩
  | cons hfirst _ ih =>
    obtain ⟨⟨rest, hlexeme⟩, hmore⟩ := List.forall_mem_cons.mp hlexemes
    obtain ⟨hgives, hspoils⟩ := ih hmore
    rcases hfirst.1.stands hlexeme with ⟨hform, ⟨t, ht, hgive⟩, he⟩ | ⟨hform, ht, e, he, hspoil⟩
    · simp only [List.filter_cons, hform, Bool.not_true, Bool.false_eq_true, if_true, if_false,
        List.filterMap_cons_some ht, List.filterMap_cons_none he]
      exact ⟨.cons ⟨hgive, line_token? ht ▸ hfirst.2⟩ hgives, hspoils⟩
    · simp only [List.filter_cons, hform, Bool.not_false, Bool.false_eq_true, if_true, if_false,
        List.filterMap_cons_none ht, List.filterMap_cons_some he]
      exact ⟨hgives, .cons ⟨hspoil, line_error? he ▸ hfirst.2⟩ hspoils⟩

/-- Tokens and errors are those of the tiles, in order. -/
theorem forall₂_stands {xs : List Lexeme} {tiles : List Tile}
    (hfills : List.Forall₂ Lexeme.Fills xs tiles)
    (hlexemes : ∀ tile ∈ tiles, ∃ rest, IsLexeme rest tile.form tile.text) :
    List.Forall₂ Tile.Gives (tiles.filter Tile.isToken) (xs.filterMap Lexeme.token?) ∧
      List.Forall₂ Tile.Spoils (tiles.filter (!·.isToken)) (xs.filterMap Lexeme.error?) := by
  have stands := forall₂_stands_line (p := id) (P := fun _ _ => True)
    (hfills.imp fun _ _ h => ⟨h, trivial⟩) hlexemes
  simpa only [id, and_true] using stands

/-- No error is about a place in the text rather than about a lexeme. -/
theorem Lexeme.message_ne {x : Lexeme} {e : SyntaxError} (h : x.error? = some e)
    (offset : Nat) : e.message ≠ "Unexpected input at offset " ++ toString offset ++ "." := by
  intro hmessage
  have hchars := congrArg (fun s => s.toList[11]?) hmessage
  unfold Lexeme.error? at h
  split at h <;> cases h <;> simp [SyntaxError.lexical] at hchars

/-- A source text is gaps and lexemes one after another, each as long as it can be. Its tokens are
those of the lexemes that are tokens, in order, with the end of the input after them, and its errors
are those of the other lexemes: one for each unexpected character, and one for a string that is not
closed, which can only be the last lexeme. -/
theorem scan_tiles (source : String) :
    ∃ tiles last, Tiles tiles last source.toList ∧
      source.toList = tiles.flatMap (fun tile => tile.gap ++ tile.text) ++ last ∧
      (∃ tokens line, (scan source).tokens = tokens ++ [.plain .eof "" line] ∧
        List.Forall₂ Tile.Gives (tiles.filter Tile.isToken) tokens) ∧
      List.Forall₂ Tile.Spoils (tiles.filter (!·.isToken)) (scan source).errors ∧
      (∀ tile ∈ tiles.dropLast, tile.form ≠ .openString) ∧
      ∀ e ∈ (scan source).errors, ∀ offset : Nat,
        e.message ≠ "Unexpected input at offset " ++ toString offset ++ "." := by
  obtain ⟨xs, lastLine, hcuts⟩ := Cuts.exists_cuts 1 source.toList
  obtain ⟨tiles, last, htiles, hfills⟩ := hcuts.tiles
  obtain ⟨hgives, hspoils⟩ := forall₂_stands hfills htiles.isLexeme_mem
  have hscan := scan_eq hcuts
  refine ⟨tiles, last, htiles, htiles.text_eq, ⟨_, lastLine, by rw [hscan], hgives⟩, ?_,
    htiles.form_ne_openString, ?_⟩
  · rw [hscan]
    exact hspoils
  · intro e he
    rw [hscan] at he
    obtain ⟨x, -, hx⟩ := List.mem_filterMap.mp he
    exact Lexeme.message_ne hx

end

end Lox.Source
