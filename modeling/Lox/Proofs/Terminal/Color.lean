import Lox.Diagnostic.Diagnostics
import Lox.Proofs.Number.Printing

/-!
# Color only adds escapes

A report in color is the plain report with escape sequences in it. A colored text shows a
plain one if deleting the sequences leaves the plain text, whatever follows; so what is put
together of texts shows what is put together of those that they show. The plain report has
each error's own text, on lines of its own.
-/

namespace Lox

namespace Terminal

/-! ### Escape sequences -/

/-- What follows an escape sequence that a text begins with: an escape character, a bracket, and
whatever there is up to the next `m`. -/
def afterEscape? : List Char → Option (List Char)
  | '\x1b' :: '[' :: rest =>
    match rest.dropWhile (· ≠ 'm') with
    | _ :: after => some after
    | [] => none
  | _ => none

/-- An escape sequence is not empty. -/
theorem length_afterEscape? {text after : List Char} (h : afterEscape? text = some after) :
    after.length < text.length := by
  unfold afterEscape? at h
  split at h
  · next rest =>
    have hle := (List.dropWhile_sublist (· ≠ 'm') (l := rest)).length_le
    split at h
    · next hdrop =>
      cases h
      simp only [hdrop, List.length_cons] at hle ⊢
      omega
    · contradiction
  · contradiction

/-- No sequence starts without the escape character. -/
theorem afterEscape?_of_ne {c : Char} (h : c ≠ '\x1b') (rest : List Char) :
    afterEscape? (c :: rest) = none := by
  unfold afterEscape?
  split
  · next heq => exact absurd (List.cons.inj heq).1 h
  · rfl

/-- A sequence ends at the first `m`. -/
theorem afterEscape?_sequence {inside : List Char} (h : 'm' ∉ inside) (rest : List Char) :
    afterEscape? ('\x1b' :: '[' :: (inside ++ 'm' :: rest)) = some rest := by
  have dropped : (inside ++ 'm' :: rest).dropWhile (· ≠ 'm') = 'm' :: rest := by
    rw [List.dropWhile_append_of_pos (Number.forall_ne h), List.dropWhile_cons_of_neg (by decide)]
  simp only [afterEscape?, dropped]

/-- A text without the escape sequences in it. -/
def stripEscapes : List Char → List Char
  | [] => []
  | c :: rest =>
    match _h : afterEscape? (c :: rest) with
    | some after => stripEscapes after
    | none => c :: stripEscapes rest
termination_by text => text.length
decreasing_by
  · exact length_afterEscape? _h
  · exact Nat.lt_succ_self _

theorem stripEscapes_nil : stripEscapes [] = [] := by rw [stripEscapes]

/-- A character that is no escape stays. -/
theorem stripEscapes_of_ne {c : Char} (h : c ≠ '\x1b') (rest : List Char) :
    stripEscapes (c :: rest) = c :: stripEscapes rest := by
  rw [stripEscapes]
  split
  · next hafter => exact nomatch (afterEscape?_of_ne h rest).symm.trans hafter
  · rfl

/-- A sequence is left out. -/
theorem stripEscapes_sequence {inside : List Char} (h : 'm' ∉ inside) (rest : List Char) :
    stripEscapes ('\x1b' :: '[' :: (inside ++ 'm' :: rest)) = stripEscapes rest := by
  rw [stripEscapes]
  split
  · next hafter => rw [Option.some.inj (hafter.symm.trans (afterEscape?_sequence h rest))]
  · next hafter => exact nomatch hafter.symm.trans (afterEscape?_sequence h rest)

/-! ### What is shown -/

/-- Whether a text has no escape character in it. -/
def EscapeFree (text : String) : Prop := '\x1b' ∉ text.toList

instance : DecidablePred EscapeFree :=
  fun text => inferInstanceAs (Decidable ('\x1b' ∉ text.toList))

/-- Whether a text shows another one, of which escape sequences are left out, whatever follows. -/
def ShowsAs (colored plain : String) : Prop :=
  ∀ rest, stripEscapes (colored.toList ++ rest) = plain.toList ++ stripEscapes rest

namespace ShowsAs

/-- Texts that show as others do so one after another. -/
theorem append {colored plain colored' plain' : String} (h : ShowsAs colored plain)
    (h' : ShowsAs colored' plain') : ShowsAs (colored ++ colored') (plain ++ plain') := by
  intro rest
  simp only [String.toList_append, List.append_assoc]
  rw [h, h']

/-- A text shows as what is left of it without its sequences. -/
theorem stripEscapes_eq {colored plain : String} (h : ShowsAs colored plain) :
    stripEscapes colored.toList = plain.toList := by
  have whole := h []
  rwa [stripEscapes_nil, List.append_nil, List.append_nil] at whole

/-- A text without escape characters shows itself. -/
theorem refl {text : String} (h : EscapeFree text) : ShowsAs text text := by
  unfold EscapeFree at h
  intro rest
  generalize text.toList = chars at h ⊢
  induction chars with
  | nil => rfl
  | cons c chars ih =>
    rw [List.mem_cons, not_or] at h
    rw [List.cons_append, stripEscapes_of_ne (Ne.symm h.1), ih h.2, List.cons_append]

/-- An escape sequence shows nothing. -/
theorem sequence (inside : List Char) (h : 'm' ∉ inside) {text : String}
    (htext : text.toList = '\x1b' :: '[' :: (inside ++ ['m'])) : ShowsAs text "" := by
  intro rest
  have split : text.toList ++ rest = '\x1b' :: '[' :: (inside ++ 'm' :: rest) := by
    rw [htext, List.cons_append, List.cons_append, List.append_assoc, List.singleton_append]
  rw [split, stripEscapes_sequence h, String.toList_empty, List.nil_append]

/-- A red text shows as the text. -/
theorem red {colored plain : String} (h : ShowsAs colored plain) : ShowsAs (red colored) plain := by
  have opened : ShowsAs "\x1b[31m" "" := sequence ['3', '1'] (by decide) rfl
  have closed : ShowsAs "\x1b[39m" "" := sequence ['3', '9'] (by decide) rfl
  simpa only [Lox.red, String.empty_append, String.append_empty]
    using (opened.append h).append closed

theorem bold {colored plain : String} (h : ShowsAs colored plain) :
    ShowsAs (bold colored) plain := by
  have opened : ShowsAs "\x1b[1m" "" := sequence ['1'] (by decide) rfl
  have closed : ShowsAs "\x1b[0m" "" := sequence ['0'] (by decide) rfl
  simpa only [Lox.bold, String.empty_append, String.append_empty]
    using (opened.append h).append closed

theorem join {α : Type} {colored plain : α → String} {items : List α}
    (h : ∀ a ∈ items, ShowsAs (colored a) (plain a)) :
    ShowsAs (String.join (items.map colored)) (String.join (items.map plain)) := by
  induction items with
  | nil => exact refl (show EscapeFree "" by decide)
  | cons a items ih =>
    obtain ⟨ha, hitems⟩ := List.forall_mem_cons.mp h
    simp only [List.map_cons, String.join_cons]
    exact ha.append (ih hitems)

/-- No number is written with an escape character. -/
theorem number (n : Nat) : ShowsAs (toString n) (toString n) := by
  refine refl ?_
  show '\x1b' ∉ (Nat.repr n).toList
  rw [Nat.toList_repr]
  exact Number.not_mem_digitsOf rfl n

end ShowsAs

/-- Whether there is no escape character in the messages of a report and in the lexemes in it. -/
structure IsEscapeFree (d : Diagnostics) : Prop where
  messages : ∀ e ∈ d.syntaxErrors, EscapeFree e.message
  lexemes : ∀ e ∈ d.syntaxErrors, ∀ lexeme, e.location = .atLexeme lexeme → EscapeFree lexeme
  runtime : ∀ e ∈ d.runtimeError, EscapeFree e.message

/-- A location shows as itself if its lexeme is free of escapes. -/
theorem shows_location {l : Location} (h : ∀ lexeme, l = .atLexeme lexeme → EscapeFree lexeme) :
    ShowsAs l.text l.text := by
  cases l with
  | source | atEnd => exact .refl (by decide)
  | atLexeme lexeme =>
    have opened : ShowsAs "at '" "at '" := .refl (by decide)
    exact (opened.append (.refl (h lexeme rfl))).append (.refl (by decide))

/-- Without color, a syntax error is written as its own text. -/
theorem render_syntaxError (e : SyntaxError) : e.render false = e.text := by
  have word : "] " ++ "Error" ++ " " = "] Error " := rfl
  simp only [SyntaxError.render, styled, SyntaxError.text, ← word, String.append_assoc,
    Bool.false_eq_true, if_false]

/-- A syntax error in color shows as it does without. -/
theorem shows_syntaxError {e : SyntaxError} (hmessage : EscapeFree e.message)
    (hlexeme : ∀ lexeme, e.location = .atLexeme lexeme → EscapeFree lexeme) :
    ShowsAs (e.render true) (e.render false) := by
  have word : ShowsAs (bold (red "Error")) "Error" := (ShowsAs.refl (by decide)).red.bold
  have line : ShowsAs ("[line " ++ toString e.line ++ "] ") ("[line " ++ toString e.line ++ "] ") :=
    ((ShowsAs.refl (by decide)).append (.number e.line)).append (.refl (by decide))
  have gap : ShowsAs " " " " := .refl (by decide)
  have located := ((line.append word).append gap).append (shows_location hlexeme)
  exact (located.append (.refl (by decide))).append (.refl hmessage)

theorem shows_runtimeError {e : RuntimeError} (hmessage : EscapeFree e.message) :
    ShowsAs (e.render true) (e.render false) := by
  have message : ShowsAs (red e.message) e.message := (ShowsAs.refl hmessage).red
  have front : ShowsAs "\n[line " "\n[line " := .refl (by decide)
  exact ((message.append front).append (.number e.line)).append (.refl (by decide))

/-- The plain report has the text of each syntax error on a line of its own, then the message of the
runtime error and its line. -/
theorem render_false (d : Diagnostics) :
    d.render false =
      String.join (d.syntaxErrors.map fun e => e.text ++ "\n") ++
        (d.runtimeError.elim "" fun e => e.message ++ "\n[line " ++ toString e.line ++ "]\n") := by
  have ends : "]" ++ "\n" = "]\n" := rfl
  cases he : d.runtimeError with
  | none =>
    simp only [Diagnostics.render, render_syntaxError, he, Option.map_none, Option.getD_none,
      Option.elim_none]
  | some e =>
    simp only [Diagnostics.render, render_syntaxError, he, Option.map_some, Option.getD_some,
      Option.elim_some, RuntimeError.render, styled, Bool.false_eq_true, if_false, ← ends,
      String.append_assoc]

/-- Deleting the escape sequences of a report in color leaves the plain report, if there is no
escape character in what is reported. The plain report is made of the texts of the errors. -/
theorem color_only_adds_escapes :
    (∀ d, IsEscapeFree d →
      stripEscapes (d.render true).toList = (d.render false).toList) ∧
    ∀ d : Diagnostics, d.render false =
      String.join (d.syntaxErrors.map fun e => e.text ++ "\n") ++
        (d.runtimeError.elim "" fun e => e.message ++ "\n[line " ++ toString e.line ++ "]\n") := by
  refine ⟨fun d h => ShowsAs.stripEscapes_eq ?_, render_false⟩
  have newline : ShowsAs "\n" "\n" := .refl (by decide)
  have syntaxErrors : ShowsAs (String.join (d.syntaxErrors.map fun e => e.render true ++ "\n"))
      (String.join (d.syntaxErrors.map fun e => e.render false ++ "\n")) :=
    .join fun e he => (shows_syntaxError (h.messages e he) (h.lexemes e he)).append newline
  refine syntaxErrors.append ?_
  cases he : d.runtimeError with
  | none => exact .refl (show EscapeFree "" by decide)
  | some e => exact (shows_runtimeError (h.runtime e he)).append newline

/-- Messages with brackets, line breaks and the letter that ends escape sequences. -/
theorem color_only_adds_escapes_brackets :
    let d : Diagnostics := ⟨[⟨1, .source, "[31m"⟩, ⟨12, .atLexeme "m", "\nm"⟩, ⟨3, .atEnd, ""⟩],
      some ⟨.native "m[0m\n", 7⟩⟩
    IsEscapeFree d ∧ (d.render true).toList ≠ (d.render false).toList ∧
      stripEscapes (d.render true).toList = (d.render false).toList := by
  intro d
  have free : IsEscapeFree d := by
    refine ⟨by decide, ?_, by decide⟩
    simp [d, EscapeFree]
  exact ⟨free, by decide +kernel, color_only_adds_escapes.1 d free⟩

end Terminal

end Lox
