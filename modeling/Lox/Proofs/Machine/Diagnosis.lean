import Lox.Proofs.Machine.Blame
import Lox.Proofs.Source.Tiling

/-!
# Every diagnostic points into a source text

An error of the parser points at a token of the text, or at its end. A runtime error has the
line of a token that its fault fits, also where that token is in a function of a text that
was run before. So all lines that are reported are lines of these texts.
-/

namespace Lox

open Grammar Source

/-- Whether a text has so many lines. -/
def Source.HasLine (source : String) (line : Nat) : Prop :=
  1 ≤ line ∧ line ≤ 1 + source.toList.count '\n'

/-- A scanned token stands on a line of the source. -/
theorem Source.hasLine_token {source : String} {t : Token} (ht : t ∈ (scan source).tokens) :
    HasLine source t.line := by
  obtain ⟨hpos, hle⟩ := line_mem_tokens ht
  rw [lineBreaks, Nat.add_comm] at hle
  exact ⟨hpos, hle⟩

/-- A lexical error stands on a line of the source. -/
theorem Source.hasLine_error {source : String} {e : SyntaxError}
    (he : e ∈ (scan source).errors) : HasLine source e.line := by
  obtain ⟨xs, last, h⟩ := Cuts.exists_cuts 1 source.toList
  rw [scan_eq h] at he
  obtain ⟨x, hx, hxe⟩ := List.mem_filterMap.mp he
  have hline := h.line_mem x hx
  rw [h.last_eq] at hline
  exact line_error? hxe ▸ hline

/-- The tokens of a text end at the one that says so. -/
theorem endOfTokens_scan (source : String) : endOfTokens (scan source).tokens = endOf source := by
  rw [endOfTokens, tokens_eq, State.ofTokens_append (fun _ ht => kind_mem_words ht) rfl]

/-- Whether an error has the line and the location of a token. -/
structure SyntaxError.PointsAt (e : SyntaxError) (t : Token) : Prop where
  line : e.line = t.line
  atEnd : e.location = .atEnd ↔ t.kind = .eof
  lexeme : t.kind ≠ .eof → e.location = .atLexeme t.lexeme

/-- An error at a token points at it. -/
theorem SyntaxError.pointsAt_atToken (t : Token) (message : String) :
    (SyntaxError.atToken t message).PointsAt t where
  line := rfl
  atEnd := by
    by_cases hk : t.kind = .eof <;> simp [atToken, hk]
  lexeme hk := if_neg hk

/-- An error of the parser points at a token of the text. -/
theorem exists_pointsAt {source : String} {e : SyntaxError}
    (he : e ∈ (parse (scan source).tokens).errors) : ∃ t ∈ (scan source).tokens, e.PointsAt t := by
  obtain ⟨t, message, ht, rfl⟩ := (parse_gathers (T := (· ∈ (scan source).tokens))
    (fun _ ht => ht)).2 e he
  refine ⟨t, ht.elim id fun hend => ?_, SyntaxError.pointsAt_atToken t message⟩
  rw [hend, endOfTokens_scan, tokens_eq]
  exact List.mem_append_right _ (List.mem_singleton_self _)

/-- Whether what is reported about a source text points into it, or into one of the texts that have
been run so far. -/
structure Diagnostics.PointInto (d : Diagnostics) (source : String) (texts : List String) :
    Prop where
  syntaxErrors : d.syntaxErrors = (scan source).errors ++ (parse (scan source).tokens).errors
  parsed : ∀ e ∈ (parse (scan source).tokens).errors, ∃ t ∈ (scan source).tokens, e.PointsAt t
  lines : ∀ e ∈ d.syntaxErrors, HasLine source e.line
  runtime : ∀ e, d.runtimeError = some e → ∃ text ∈ texts, ∃ t ∈ (scan text).tokens,
    e.fault.Fits t ∧ e.line = t.line ∧ HasLine text e.line

/-- What is reported about a source text on a new machine points into that text, and in a session
into one of the texts that have been run so far. -/
theorem Machine.diagnostics_pointInto (fuel : Nat) (sink : Sink) (clock : Nat → Nat) :
    (∀ source, ∀ r ∈ (initial sink clock).run fuel source, r.1.PointInto source [source]) ∧
    ∀ sources, ∀ r ∈ (initial sink clock).runAll fuel sources, ∀ i source (d : Diagnostics),
      sources[i]? = some source → r.1[i]? = some d →
        d.PointInto source (sources.take (i + 1)) := by
  have session (sources : List String) (ds : List Diagnostics) (n : Machine)
      (h : (initial sink clock).runAll fuel sources = some (ds, n)) (i : Nat) (source : String)
      (d : Diagnostics) (hsource : sources[i]? = some source) (hd : ds[i]? = some d) :
      d.PointInto source (sources.take (i + 1)) := by
    obtain ⟨text, earlier, k, k', htext, -, hrun⟩ := runAll_getElem? h hd
    cases htext.symm.trans hsource
    have errors : d.syntaxErrors = _ ++ _ := (run_eq_some hrun).2.1
    refine ⟨errors, fun e he => exists_pointsAt he, fun e he => ?_, fun e he => ?_⟩
    · rw [errors, List.mem_append] at he
      rcases he with he | he
      · exact hasLine_error he
      · obtain ⟨t, ht, hpoints⟩ := exists_pointsAt he
        exact hpoints.line ▸ hasLine_token ht
    · obtain ⟨t, f, ⟨text, htext, ht⟩, fits, rfl⟩ := blamed_runAll h hd he
      exact ⟨text, htext, t, ht, fits, rfl, hasLine_token ht⟩
  refine ⟨fun source (d, n) hrun => ?_, fun sources (ds, n) h => session sources ds n h⟩
  have alone : (initial sink clock).runAll fuel [source] = some ([d], n) :=
    runAll_cons_eq_some.mpr ⟨d, n, [], hrun, rfl, rfl⟩
  exact session [source] [d] n alone 0 source d rfl rfl

/-- The last text fails on the second line of the first one, of which it has only one itself. The
text between them cannot be parsed. -/
theorem Machine.diagnostics_pointInto_earlier :
    let sources := ["fun f(a) \x7b\n return -a; \x7d", "f(", "f(nil);"]
    ∃ h : ((initial .unlimited id).runAll 30 sources).isSome,
      (Option.get _ h).1 = [⟨[], none⟩, ⟨[⟨1, .atEnd, "Expect expression."⟩], none⟩,
        ⟨[], some ⟨.numberOperand, 2⟩⟩] ∧
      ∀ i source (d : Diagnostics), sources[i]? = some source → (Option.get _ h).1[i]? = some d →
        d.PointInto source (sources.take (i + 1)) := by
  intro sources
  refine ⟨by decide +kernel, by decide +kernel, ?_⟩
  exact (diagnostics_pointInto 30 .unlimited id).2 sources _ (Option.get_mem _)

end Lox
