import Lox.Proofs.Terminal.Report
import Lox.Terminal.Prompt

/-!
# The prompt and a session

The input is cut into lines, and the lines are run one after another on one machine, as
texts of a session. After each prompt stands what a line shows and writes; the report
gathers what was wrong with them. Only bytes that are no text stop the session early.
-/

namespace Lox

namespace Machine

/-- A text that has been run, what is reported of it and what it has written. -/
structure Ran where
  text : String
  diagnostics : Diagnostics
  output : String

/-- Texts are run one after another on a machine, whatever is reported of them, and each one writes
after what has been written before it. -/
inductive RunsThrough (fuel : Nat) : Machine → List Ran → Machine → Prop where
  | nil : RunsThrough fuel m [] m
  | cons : m.run fuel r.text = some (r.diagnostics, n) →
      n.sink.written = m.sink.written ++ r.output → RunsThrough fuel n rs k →
      RunsThrough fuel m (r :: rs) k

/-- With its output taken away before it, a text is run as it is otherwise, and the whole of what is
written is its own. -/
theorem run_of_drained {fuel : Nat} {source : String} {m : Machine} :
    m.run fuel source =
      (m.drained.run fuel source).map fun r => (r.1, r.2.preceded m.sink.written) := by
  have same := m.drained.runParse_preceded fuel (Grammar.parseSource source) m.sink.written
  rwa [m.preceded_drained] at same

end Machine

namespace Terminal

/-! ### Lines -/

/-- Bytes cut after each line break; what is left after the last one is a line unless it is
empty. -/
inductive Cut : List UInt8 → List (List UInt8) → Prop where
  | nil : Cut [] []
  | last : line ≠ [] → lineBreak ∉ line → Cut line [line]
  | line : lineBreak ∉ line → Cut rest lines →
      Cut (line ++ lineBreak :: rest) ((line ++ [lineBreak]) :: lines)

/-- The input is cut into its lines. -/
theorem cut_cutLines (input : List UInt8) : Cut input (cutLines input) := by
  induction input with
  | nil => exact .nil
  | cons byte rest ih =>
    by_cases hbyte : byte = lineBreak
    · subst hbyte
      rw [cutLines, if_pos rfl]
      exact Cut.line List.not_mem_nil ih
    · rw [cutLines, if_neg hbyte]
      generalize cutLines rest = lines at ih
      cases ih with
      | nil => exact .last (List.cons_ne_nil _ _) (by simp [Ne.symm hbyte])
      | last _ hline =>
        have hmore := List.not_mem_cons_of_ne_of_not_mem (Ne.symm hbyte) hline
        exact .last (List.cons_ne_nil _ _) hmore
      | line hline hrest =>
        have hmore := List.not_mem_cons_of_ne_of_not_mem (Ne.symm hbyte) hline
        exact .line hmore hrest

/-- The first line ends at the first line break. -/
theorem cutLines_append {line : List UInt8} (hline : lineBreak ∉ line) (rest : List UInt8) :
    cutLines (line ++ lineBreak :: rest) = (line ++ [lineBreak]) :: cutLines rest := by
  induction line with
  | nil => rw [List.nil_append, cutLines, if_pos rfl, List.nil_append]
  | cons byte line ih =>
    have hbyte := Ne.symm (List.ne_of_not_mem_cons hline)
    rw [List.cons_append, cutLines, if_neg hbyte, ih (List.not_mem_of_not_mem_cons hline)]
    rfl

/-- Without a line break there is one line. -/
theorem cutLines_of_not_mem {line : List UInt8} (hne : line ≠ []) (hline : lineBreak ∉ line) :
    cutLines line = [line] := by
  induction line with
  | nil => exact absurd rfl hne
  | cons byte line ih =>
    rw [cutLines, if_neg (Ne.symm (List.ne_of_not_mem_cons hline))]
    cases line with
    | nil => rfl
    | cons next line => rw [ih (List.cons_ne_nil _ _) (List.not_mem_of_not_mem_cons hline)]

/-- There is one way to cut bytes. -/
theorem cut_iff {input : List UInt8} {lines : List (List UInt8)} :
    Cut input lines ↔ lines = cutLines input := by
  constructor
  · intro h
    induction h with
    | nil => rfl
    | last hne hline => exact (cutLines_of_not_mem hne hline).symm
    | line hline _ ih => rw [cutLines_append hline, ih]
  · rintro rfl
    exact cut_cutLines input

/-- The texts that lines are, up to the first line that is none; and whether there is one. -/
inductive Reads : List (List UInt8) → List String → Bool → Prop where
  | nil : Reads [] [] false
  | broken : String.fromUTF8? (ByteArray.mk line.toArray) = none → Reads (line :: rest) [] true
  | text : String.fromUTF8? (ByteArray.mk line.toArray) = some text → Reads rest texts broken →
      Reads (line :: rest) (text :: texts) broken

/-- Lines are read as texts up to the first that is none. -/
theorem exists_reads (lines : List (List UInt8)) : ∃ texts broken, Reads lines texts broken := by
  induction lines with
  | nil => exact ⟨[], false, .nil⟩
  | cons line rest ih =>
    cases htext : String.fromUTF8? (ByteArray.mk line.toArray) with
    | none => exact ⟨[], true, .broken htext⟩
    | some text =>
      obtain ⟨texts, broken, h⟩ := ih
      exact ⟨text :: texts, broken, .text htext h⟩

/-! ### The session -/

variable (color dumpTokens dumpTree : Bool)

/-- What stands on standard output for a text that has been run: the prompt, the dumps of the text
and what it has written. -/
def shown (r : Machine.Ran) : String :=
  "> " ++ (dumps dumpTokens dumpTree r.text ++ r.output)

/-- The line on standard error for input that is no text. -/
def readingError : String :=
  let message := "Error reading input: stream did not contain valid UTF-8"
  (if color then "\x1b[1m\x1b[31m" ++ message ++ "\x1b[39m\x1b[0m" else message) ++ "\n"

/-- It is what the program complains of such input. -/
theorem complaint_notText :
    complaint color ("Error reading input: " ++ ReadError.notText.message) =
      readingError color := by
  cases color <;> decide

/-- How the prompt ends after some texts: at the end of the input, or at a line that is no text. -/
def promptOutcome (ran : List Machine.Ran) (broken : Bool) : Outcome where
  transcript := {
    out := String.join (ran.map (shown dumpTokens dumpTree)) ++ "> "
    err :=
      String.join ((ran.filter (!·.diagnostics.isClean)).map (·.diagnostics.render color)) ++
        if broken then readingError color else "" }
  exitCode := if broken then 70 else 0

/-- One text more at the beginning. -/
theorem promptOutcome_cons (r : Machine.Ran) (ran : List Machine.Ran) (broken : Bool) :
    promptOutcome color dumpTokens dumpTree (r :: ran) broken =
      let later := promptOutcome color dumpTokens dumpTree ran broken
      { later with
        transcript := ⟨promptText, ""⟩ ++
          ⟨dumps dumpTokens dumpTree r.text ++ r.output, r.diagnostics.render color⟩ ++
          later.transcript } := by
  cases hclean : r.diagnostics.isClean with
  | true =>
    have quiet := Diagnostics.render_of_isClean hclean color
    simp [promptOutcome, shown, promptText, hclean, quiet, Transcript.append_eq, String.join_cons,
      String.append_assoc]
  | false =>
    simp [promptOutcome, shown, promptText, hclean, Transcript.append_eq, String.join_cons,
      String.append_assoc]

/-- A session and what the prompt makes of it. -/
def Shows (m : Machine) (texts : List String) (broken : Bool)
    (session : List Diagnostics × Machine) (outcome : Outcome) : Prop :=
  ∃ ran, Machine.RunsThrough fuel m ran session.2 ∧ ran.map (·.text) = texts ∧
    ran.map (·.diagnostics) = session.1 ∧
    outcome = promptOutcome color dumpTokens dumpTree ran broken

/-- A prompt shows of its lines what a session does with their texts. -/
theorem promptLines_session {lines : List (List UInt8)} {texts : List String} {broken : Bool}
    (h : Reads lines texts broken) (m : Machine) :
    Option.Rel (Shows color dumpTokens dumpTree m texts broken) (m.runAll fuel texts)
      (promptLines ⟨color, false, dumpTokens, dumpTree⟩
        (lines.map fun line => ByteArray.mk line.toArray) m.drained) := by
  induction h generalizing m with
  | nil => exact .some ⟨[], .nil, rfl, rfl, rfl⟩
  | @broken line rest hline =>
    have stopped : promptLine ⟨color, false, dumpTokens, dumpTree⟩ ⟨line.toArray⟩ m.drained =
        some (.stop ⟨⟨"", readingError color⟩, softwareExit⟩) := by
      simp only [promptLine, decode, hline, complaint_notText]
    simp only [List.map_cons, promptLines, stopped, Option.bind_eq_bind, Option.bind_some,
      Option.pure_def]
    exact .some ⟨[], .nil, rfl, rfl, rfl⟩
  | @text text rest texts broken line hline _ ih =>
    have ran : promptLine ⟨color, false, dumpTokens, dumpTree⟩ ⟨line.toArray⟩ m.drained =
        (m.drained.run fuel text).map fun r =>
          .next ⟨dumps dumpTokens dumpTree text ++ r.2.sink.written, r.1.render color⟩
            r.2.drained := by
      simp only [promptLine, decode, hline, runSource_eq]
      cases m.drained.run fuel text <;> rfl
    have run : m.run fuel text = _ := m.run_of_drained
    simp only [List.map_cons, promptLines, ran, Machine.runAll]
    cases hr : m.drained.run fuel text with
    | none =>
      rw [hr] at run
      rw [run]
      exact .none
    | some r =>
      -- The next line is run on a drained machine again, the next text on one that is not.
      rw [hr] at run
      have later := ih (r.2.preceded m.sink.written)
      rw [Machine.drained_preceded] at later
      simp only [run, Option.map_some, Option.bind_eq_bind, Option.bind_some, Option.pure_def]
      generalize Machine.runAll fuel texts _ = session at later ⊢
      generalize promptLines _ _ _ = outcome at later ⊢
      cases later with
      | none => exact .none
      | some h =>
        obtain ⟨ran, through, rfl, hdiagnostics, rfl⟩ := h
        refine .some ⟨⟨text, r.1, r.2.sink.written⟩ :: ran, .cons run rfl through, rfl, ?_, ?_⟩
        · exact congrArg (r.1 :: ·) hdiagnostics
        · rw [promptOutcome_cons]

/-- The prompt on a whole input. The input is cut into lines in the one way there is; they are run,
up to the first that is no text, one after another on a new machine, and if that comes to an end,
then the prompt shows what they show and write, and what is reported of them, and exits as it
should. -/
theorem runPrompt_session (input : ByteArray) (clock : Nat → Nat) :
    ∃ lines texts broken, Cut input.toList lines ∧
      (∀ other, Cut input.toList other → other = lines) ∧ Reads lines texts broken ∧
      Option.Rel (Shows color dumpTokens dumpTree (.initial .unlimited clock) texts broken)
        ((Machine.initial .unlimited clock).runAll fuel texts)
        (runPrompt ⟨color, false, dumpTokens, dumpTree⟩ input (.initial .unlimited clock)) := by
  obtain ⟨texts, broken, reads⟩ := exists_reads (cutLines input.toList)
  refine ⟨_, texts, broken, cut_cutLines _, fun other => cut_iff.mp, reads, ?_⟩
  have session := promptLines_session color dumpTokens dumpTree reads (.initial .unlimited clock)
  have fresh : (Machine.initial .unlimited clock).drained = .initial .unlimited clock := rfl
  have opening : promptOpening ⟨color, false, dumpTokens, dumpTree⟩ = ⟨"", ""⟩ := rfl
  rw [fresh] at session
  simp only [runPrompt, opening, Transcript.empty_append]
  generalize promptLines _ _ _ = outcome at session ⊢
  cases outcome <;> exact session

/-- A line that prints, one that is not run for its errors, one that fails, and one that is no
text. -/
example :
    promptLines ⟨false, false, false, false⟩
      ["print(\"a\");\n".toUTF8, "b\n".toUTF8, "b;\n".toUTF8, ⟨#[255, lineBreak]⟩]
      (.initial .unlimited id) =
      some ⟨⟨"> a> > > ",
        "[line 2] Error at end: Expect ';' after expression.\n" ++
        "Undefined variable 'b'.\n[line 1]\n" ++
        "Error reading input: stream did not contain valid UTF-8\n"⟩, 70⟩ := by
  decide +kernel

end Terminal

end Lox
