import Lox.Proofs.Machine.Histories
import Lox.Proofs.Machine.Written
import Lox.Terminal.Transcript

/-!
# What is shown of a run

Without a log, what goes to standard output is the dumps of the source text and what the
program writes, and what goes to standard error is the report: nothing, if there is
nothing to report.
-/

namespace Lox

/-- Nothing is reported of a run without errors. -/
theorem Diagnostics.render_of_isClean {d : Diagnostics} (h : d.isClean) (color : Bool) :
    d.render color = "" := by
  obtain ⟨syntaxErrors, runtimeError⟩ := d
  simp only [isClean, hasSyntaxError, hasRuntimeError, Bool.not_not, Bool.and_eq_true,
    List.isEmpty_iff, Bool.not_eq_true', Option.isSome_eq_false_iff, Option.isNone_iff_eq_none] at h
  obtain ⟨rfl, rfl⟩ := h
  rfl

/-- Nothing is shown of diagnostics that are clean. -/
theorem Diagnostics.ite_isClean (d : Diagnostics) (color : Bool) :
    (if d.isClean then "" else d.render color) = d.render color := by
  split
  · next clean => exact (render_of_isClean clean color).symm
  · rfl

/-- The syntax errors of a text are reported whether or not they are all there is. -/
theorem Machine.syntaxErrors_of_run {fuel : Nat} {source : String} {m n : Machine}
    {d : Diagnostics} (h : m.run fuel source = some (d, n)) :
    d.syntaxErrors = (Grammar.parseSource source).errors :=
  (run_eq_some h).2.1

namespace Terminal

theorem Transcript.append_eq (t u : Transcript) : t ++ u = ⟨t.out ++ u.out, t.err ++ u.err⟩ := rfl

/-- Before a transcript nothing is written. -/
theorem Transcript.empty_append (t : Transcript) : (⟨"", ""⟩ : Transcript) ++ t = t := by
  rw [append_eq, String.empty_append, String.empty_append]

/-! ### Dumps -/

/-- A line for each token: its kind, its lexeme, and what it denotes or `nil`. -/
def tokenLines (tokens : List Token) : String :=
  String.join (tokens.map fun t =>
    t.kind.name ++ " " ++ t.lexeme ++ " " ++ t.literal.elim "nil" Literal.text ++ "\n")

/-- A line for each statement, its listing. -/
def statementLines (statements : List Stmt) : String :=
  String.join (statements.map fun s => s.listing ++ "\n")

/-- The dump of tokens has a line for each of them. -/
theorem tokenDump_eq (tokens : List Token) : tokenDump tokens = tokenLines tokens := by
  have line (t : Token) :
      t.listing = t.kind.name ++ " " ++ t.lexeme ++ " " ++ t.literal.elim "nil" Literal.text := by
    rw [Token.listing]
    cases t.literal <;> rfl
  simp only [tokenDump, tokenLines, line]

example :
    tokenDump (Source.scan "a = 1.50;").tokens =
      "IDENTIFIER a nil\nEQUAL = nil\nNUMBER 1.50 1.5\nSEMICOLON ; nil\nEOF  nil\n" := by
  decide +kernel

variable (color dumpTokens dumpTree : Bool) (source : String)

/-- What was asked for of the tokens and the tree of a source text. -/
def dumps : String :=
  (if dumpTokens then tokenLines (Source.scan source).tokens else "") ++
    (if dumpTree then statementLines (Grammar.parseSource source).statements else "")

/-- The dumps are shown if they are wanted, those of the tokens first. -/
theorem dumps_eq :
    dumps dumpTokens dumpTree source =
      shownIf dumpTokens (tokenDump (Source.scan source).tokens) ++
        shownIf dumpTree (Stmt.programListing (Grammar.parseSource source).statements) := by
  rw [tokenDump_eq]
  rfl

/-! ### Runs -/

/-- A source text is run as the machine runs it; the dumps, the output and the report are shown, and
the output is taken away. -/
theorem runSource_eq (m : Machine) :
    runSource ⟨color, false, dumpTokens, dumpTree⟩ source m =
      (m.run fuel source).map fun r =>
        (⟨dumps dumpTokens dumpTree source ++ r.2.sink.written, r.1.render color⟩, r.1,
          r.2.drained) := by
  have parsed : (⟨(Grammar.parse (Source.scan source).tokens).statements,
      (Source.scan source).errors ++ (Grammar.parse (Source.scan source).tokens).errors⟩ :
      Grammar.Parse) = Grammar.parseSource source := rfl
  simp only [runSource, parsed, dumps_eq]
  show ((m.run fuel source).bind fun r => _) = _
  cases m.run fuel source with
  | none => rfl
  | some r =>
    have quiet (log : String) : shownIf false log ++ r.1.render color = r.1.render color :=
      String.empty_append
    simp only [Option.bind_some, Option.map_some, quiet]
    rfl

end Terminal

end Lox
