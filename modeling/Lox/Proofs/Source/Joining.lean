import Lox.Proofs.Source.Cutting

/-!
# The tokens of joined texts

Texts without lexical errors, joined by line breaks, have the tokens of all of them, in
order, those of each moved down by the lines before it.
-/

namespace Lox

/-- The same token on a later line. -/
def Token.later (lines : Nat) (t : Token) : Token := { t with line := t.line + lines }

@[simp] theorem Token.later_zero (t : Token) : t.later 0 = t := rfl

@[simp] theorem Token.later_later (t : Token) (lines more : Nat) :
    (t.later lines).later more = t.later (lines + more) := by
  simp only [Token.later, Nat.add_assoc]

namespace Source

/-- How many line breaks a text has. -/
def lineBreaks (source : String) : Nat := source.toList.count '\n'

/-- The tokens of a text without the one that marks its end. -/
def words (source : String) : List Token := (scan source).tokens.dropLast

/-- The token that marks the end of a text. -/
def endOf (source : String) : Token := .plain .eof "" (lineBreaks source + 1)

/-- What scanning gives, in terms of the lexemes. -/
theorem scan_eq {source : String} {xs : List Lexeme} {last : Nat}
    (h : Cuts 1 source.toList xs last) :
    scan source =
      ⟨xs.filterMap Lexeme.token? ++ [.plain .eof "" last], xs.filterMap Lexeme.error?⟩ := by
  rw [scan, h.lexemesFrom_eq]
  simp only [Array.empty_append]

/-- The words of a source are the tokens of its lexemes. -/
theorem words_eq {source : String} {xs : List Lexeme} {last : Nat}
    (h : Cuts 1 source.toList xs last) : words source = xs.filterMap Lexeme.token? := by
  rw [words, scan_eq h, List.dropLast_concat]

theorem tokens_eq (source : String) : (scan source).tokens = words source ++ [endOf source] := by
  obtain ⟨xs, last, h⟩ := Cuts.exists_cuts 1 source.toList
  rw [scan_eq h, words_eq h, h.last_eq, Nat.add_comm]
  rfl

/-- What a lexeme stands for is on its line. -/
theorem line_token? {x : Lexeme} {t : Token} (h : x.token? = some t) : t.line = x.line := by
  unfold Lexeme.token? at h
  split at h <;> first | contradiction | (cases h; rfl)

/-- The tokens of a text are on its lines. -/
theorem line_mem_tokens {source : String} {t : Token} (ht : t ∈ (scan source).tokens) :
    1 ≤ t.line ∧ t.line ≤ lineBreaks source + 1 := by
  obtain ⟨xs, last, h⟩ := Cuts.exists_cuts 1 source.toList
  rw [tokens_eq, List.mem_append, List.mem_singleton] at ht
  rcases ht with ht | rfl
  · rw [words_eq h] at ht
    obtain ⟨x, hx, hxt⟩ := List.mem_filterMap.mp ht
    obtain ⟨hle, hge⟩ := h.line_mem x hx
    rw [h.last_eq, Nat.add_comm] at hge
    exact line_token? hxt ▸ ⟨hle, hge⟩
  · exact ⟨Nat.le_add_left .., Nat.le_refl _⟩

theorem ofWord?_ne_eof (word : String) : (TokenKind.ofWord? word).getD .identifier ≠ .eof := by
  unfold TokenKind.ofWord?
  split <;> decide

theorem doubleOperator?_ne_eof (c d : Char) : doubleOperator? c d ≠ some .eof := by
  unfold doubleOperator?
  split <;> decide

theorem singleOperator?_ne_eof (c : Char) : singleOperator? c ≠ some .eof := by
  unfold singleOperator?
  split <;> decide

/-- No lexeme is the end of the input. -/
theorem lexemeAt_ne_eof (c : Char) (rest : List Char) : (lexemeAt c rest).1 ≠ .plain .eof := by
  unfold lexemeAt
  split
  · intro h
    contradiction
  · split
    · simp only [stringAt]
      split <;> (intro h; contradiction)
    · split
      · exact fun h => ofWord?_ne_eof _ (Form.plain.inj h)
      · unfold operatorAt
        split
        · next kind hkind =>
          obtain ⟨d, _, hd⟩ := Option.bind_eq_some_iff.mp hkind
          exact fun h => doubleOperator?_ne_eof c d (Form.plain.inj h ▸ hd)
        · split
          · next kind hkind => exact fun h => singleOperator?_ne_eof c (Form.plain.inj h ▸ hkind)
          · intro h
            contradiction

/-- No token but the last one marks the end of the input. -/
theorem kind_mem_words {source : String} {t : Token} (ht : t ∈ words source) : t.kind ≠ .eof := by
  obtain ⟨xs, last, h⟩ := Cuts.exists_cuts 1 source.toList
  rw [words_eq h] at ht
  obtain ⟨x, hx, hxt⟩ := List.mem_filterMap.mp ht
  have hform := h.forall_mem (P := fun x => x.form ≠ .plain .eof)
    (fun _ c rest => lexemeAt_ne_eof c rest) x hx
  unfold Lexeme.token? at hxt
  split at hxt
  · next kind hkind =>
    cases hxt
    exact fun h => hform (hkind.trans (congrArg Form.plain h))
  · cases hxt
    intro h
    contradiction
  · cases hxt
    intro h
    contradiction
  · contradiction
  · contradiction

/-- A lexeme stands for the same token further down. -/
theorem token?_later (x : Lexeme) (lines : Nat) :
    (x.later lines).token? = x.token?.map (·.later lines) := by
  unfold Lexeme.token? Lexeme.later
  split <;> simp_all [Token.later, Token.plain]

/-- A lexeme is in order on another line if it is on its own. -/
theorem error?_later (x : Lexeme) (lines : Nat) :
    (x.later lines).error? = none ↔ x.error? = none := by
  unfold Lexeme.error? Lexeme.later
  split <;> simp_all

/-- A lexeme that stands for no error is no open string. -/
theorem form_ne_openString {x : Lexeme} (h : x.error? = none) : x.form ≠ .openString := by
  intro hopen
  rw [Lexeme.error?, hopen] at h
  contradiction

/-- Where scanning finds nothing wrong no lexeme stands for an error. -/
theorem error?_eq_none {source : String} {xs : List Lexeme} {last : Nat}
    (h : Cuts 1 source.toList xs last) (clean : (scan source).errors = []) :
    ∀ x ∈ xs, x.error? = none := by
  rw [scan_eq h] at clean
  exact List.filterMap_eq_nil_iff.mp clean

/-- Two texts without errors, joined by a line break, have the tokens of both and no errors. -/
theorem scan_join {a b : String} (ha : (scan a).errors = []) (hb : (scan b).errors = []) :
    words (a ++ "\n" ++ b) = words a ++ (words b).map (·.later (lineBreaks a + 1)) ∧
      (scan (a ++ "\n" ++ b)).errors = [] := by
  obtain ⟨xs, mid, hxs⟩ := Cuts.exists_cuts 1 a.toList
  obtain ⟨ys, last, hys⟩ := Cuts.exists_cuts 1 b.toList
  have fine := error?_eq_none hxs ha
  have fine' := error?_eq_none hys hb
  have closed : ∀ x ∈ xs, x.form ≠ .openString := fun x hx => form_ne_openString (fine x hx)
  have hmid : mid + 1 = 1 + (lineBreaks a + 1) := by
    rw [hxs.last_eq]
    rfl
  have hjoin := hxs.join closed (hmid ▸ hys.later (lineBreaks a + 1))
  have htext : (a ++ "\n" ++ b).toList = a.toList ++ '\n' :: b.toList := by simp
  rw [← htext] at hjoin
  constructor
  · rw [words_eq hjoin, words_eq hxs, words_eq hys, List.filterMap_append, List.filterMap_map,
      List.map_filterMap]
    simp only [Function.comp_def, token?_later]
  · rw [scan_eq hjoin]
    refine List.filterMap_eq_nil_iff.mpr fun x hx => ?_
    rcases List.mem_append.mp hx with hx | hx
    · exact fine x hx
    · obtain ⟨y, hy, rfl⟩ := List.mem_map.mp hx
      exact (error?_later y _).mpr (fine' y hy)

/-- How many lines texts take up, each with a line break after it. -/
def linesOf (texts : List String) : Nat := lineBreaks (String.join (texts.map (· ++ "\n")))

theorem linesOf_nil : linesOf [] = 0 := rfl

/-- The lines of texts add up. -/
theorem linesOf_append (texts more : List String) :
    linesOf (texts ++ more) = linesOf texts + linesOf more := by
  simp [linesOf, lineBreaks, String.toList_join, List.count_flatMap]

/-- A text takes one line more than it has line breaks. -/
theorem linesOf_singleton (text : String) : linesOf [text] = lineBreaks text + 1 := by
  simp [linesOf, lineBreaks]

theorem linesOf_cons (text : String) (texts : List String) :
    linesOf (text :: texts) = lineBreaks text + 1 + linesOf texts := by
  rw [← linesOf_singleton, ← linesOf_append, List.singleton_append]

/-- The empty text has no words and no errors. -/
theorem scan_empty : words "" = [] ∧ (scan "").errors = [] := by
  have h : Cuts 1 "".toList [] 1 := .done rfl
  exact ⟨words_eq h, by rw [scan_eq h]; rfl⟩

/-- Texts without errors, joined by line breaks, have no errors. -/
theorem errors_intercalate {texts : List String} (clean : ∀ text ∈ texts, (scan text).errors = []) :
    (scan ("\n".intercalate texts)).errors = [] := by
  induction texts with
  | nil => exact String.intercalate_nil ▸ scan_empty.2
  | cons text texts ih =>
    obtain ⟨htext, hrest⟩ := List.forall_mem_cons.mp clean
    by_cases hnil : texts = []
    · rw [hnil, String.intercalate_singleton]
      exact htext
    · rw [String.intercalate_cons_of_ne_nil hnil]
      exact (scan_join htext (ih hrest)).2

/-- The tokens of the first of several texts come first, and those of the others further down. -/
theorem words_intercalate_cons {text : String} {texts : List String}
    (clean : ∀ t ∈ text :: texts, (scan t).errors = []) :
    words ("\n".intercalate (text :: texts)) =
      words text ++ (words ("\n".intercalate texts)).map (·.later (lineBreaks text + 1)) := by
  obtain ⟨htext, hrest⟩ := List.forall_mem_cons.mp clean
  by_cases hnil : texts = []
  · rw [hnil, String.intercalate_singleton, String.intercalate_nil, scan_empty.1, List.map_nil,
      List.append_nil]
  · rw [String.intercalate_cons_of_ne_nil hnil]
    exact (scan_join htext (errors_intercalate hrest)).1

end Source

end Lox
