import Lox.Proofs.Grammar.Recovery
import Lox.Proofs.Terminal.Report
import Lox.Terminal.Script

/-!
# A script and a run

What a script shows and how it exits is what a run of its text on a new machine makes of
it, with the dumps of the text before the output of the program.
-/

namespace Lox

/-- The listing of a program has a line for each statement. -/
theorem Stmt.programListing_eq (statements : List Stmt) :
    programListing statements = String.join ((listings statements).map (· ++ "\n")) := by
  have lines : listings statements = statements.map listing := by
    induction statements with
    | nil => rfl
    | cons s rest ih => rw [listings, ih, List.map_cons]
  rw [programListing, lines, List.map_map]
  rfl

namespace Terminal

open Grammar

/-- How a declaration is listed that has been read, or that has failed. -/
def listingOf (slot : Option Stmt) : String := slot.elim "(empty)" Stmt.listing

/-- The listings of slots are those of their statements, or that of a gap. -/
theorem listings_slots (slots : List (Option Stmt)) :
    Stmt.listings (slots.map (·.getD .empty)) = slots.map listingOf := by
  induction slots with
  | nil => rfl
  | cons slot slots ih =>
    rw [List.map_cons, List.map_cons, Stmt.listings, ih]
    cases slot <;> rfl

/-- Listings for declarations that are there one after another, one for each: `(empty)` where a
declaration has failed, and nowhere else. -/
def ListsEach (inner : Inner) (stop : State → Bool) (s : State) (listings : List String)
    (t : State) : Prop :=
  ∃ slots, Recovered inner stop s slots t ∧ listings = slots.map listingOf ∧
    ∀ d, some d ∈ slots → listingOf (some d) ≠ "(empty)"

/-- What has recovered lists each declaration or a gap in its place. -/
theorem listsEach_of_recovered {depth : Nat} {stop : State → Bool} {s t : State}
    {slots : List (Option Stmt)} (h : Recovered (.within depth) stop s slots t) :
    ListsEach (.within depth) stop s (Stmt.listings (slots.map (·.getD .empty))) t :=
  ⟨slots, h, listings_slots slots, h.listing_ne⟩

/-- The exit code tells first of errors in the text, and then of one in its run. -/
theorem exitCode_of_run {fuel : Nat} {source : String} {m n : Machine} {d : Diagnostics}
    (h : m.run fuel source = some (d, n)) :
    exitCode d =
      if (Source.scan source).errors ≠ [] ∨ (parse (Source.scan source).tokens).errors ≠ [] then 65
      else if d.runtimeError.isSome then 70
      else 0 := by
  have errors : d.hasSyntaxError = true ↔
      (Source.scan source).errors ≠ [] ∨ (parse (Source.scan source).tokens).errors ≠ [] := by
    rw [Diagnostics.hasSyntaxError, Machine.syntaxErrors_of_run h, parseSource, parseScan]
    simp only [Bool.not_eq_true', List.isEmpty_eq_false_iff, ne_eq, List.append_eq_nil_iff]
    exact not_and_or
  exact if_congr errors rfl rfl

/-- A script that is no text writes nothing to standard output and exits with 66. One that is a text
shows the tokens and the tree, if they are asked for, and then what a run of the text on a new
machine writes; its report is that of the run, and its exit code tells whether there were errors in
the text, or in the run. There is a line for each token. The tree has a line for each declaration,
and a block in it a part; where the declaration has failed it is `(empty)`, and nowhere else. -/
theorem runScript_agrees (color dumpTokens dumpTree : Bool) (path : String) (bytes : ByteArray)
    (clock : Nat → Nat) :
    let script := runScript ⟨color, false, dumpTokens, dumpTree⟩ path (.ok bytes)
      (.initial .unlimited clock)
    match String.fromUTF8? bytes with
    | none => ∃ message, script = some ⟨⟨"", message⟩, 66⟩
    | some source =>
      let scan := Source.scan source
      let parse := parse scan.tokens
      (script = ((Machine.initial .unlimited clock).run fuel source).map fun r =>
        { transcript := {
            out := (if dumpTokens then tokenLines scan.tokens else "") ++
              (if dumpTree then Stmt.programListing parse.statements else "") ++ r.2.sink.written
            err := if r.1.isClean then "" else r.1.render color }
          exitCode :=
            if scan.errors ≠ [] ∨ parse.errors ≠ [] then 65
            else if r.1.runtimeError.isSome then 70
            else 0 }) ∧
      (∃ depth t, ListsEach (.within depth) (·.rest.isEmpty) (.ofTokens scan.tokens)
        (Stmt.listings parse.statements) t ∧ parse.errors = t.errors.toList) ∧
      Stmt.programListing parse.statements =
        String.join ((Stmt.listings parse.statements).map (· ++ "\n")) ∧
      ∀ depth s body t, block (.within depth) s = .ok body t → ∃ u,
        ListsEach (.within depth) (fun s => s.isAt .rightBrace || s.rest.isEmpty) s
          (Stmt.listings body) u := by
  intro script
  cases hbytes : String.fromUTF8? bytes with
  | none =>
    refine ⟨complaint color ("Failed to read " ++ path ++ ": " ++ ReadError.notText.message), ?_⟩
    simp only [script, runScript, Except.bind, decode, hbytes]
    rfl
  | some source =>
    refine ⟨?_, ?_, Stmt.programListing_eq _, ?_⟩
    · simp only [script, runScript, Except.bind, decode, hbytes, runSource_eq]
      cases hrun : (Machine.initial .unlimited clock).run fuel source with
      | none => rfl
      | some r =>
        have exit := exitCode_of_run hrun
        simp only [Option.map_some, Option.bind_eq_bind, Option.bind_some, Option.pure_def, exit,
          r.1.ite_isClean]
        exact congrArg (fun t => some (Outcome.mk t _)) (Transcript.empty_append _)
    · obtain ⟨depth, slots, t, hslots, hstatements, herrors⟩ :=
        recovered_parse (Source.scan source).tokens
      rw [hstatements]
      exact ⟨depth, t, listsEach_of_recovered hslots, herrors⟩
    · intro depth s body t read
      obtain ⟨slots, u, hslots, rfl⟩ := recovered_block read
      exact ⟨u, listsEach_of_recovered hslots⟩

/-- A declaration that fails, one that fails in a block, and one that is read. -/
example :
    (runScript ⟨false, false, false, true⟩ "a.lox"
      (.ok "var = 1; \x7b print(; nil; \x7d print(\"a\");".toUTF8) (.initial .unlimited id)).map
        (fun outcome => (outcome.transcript.out, outcome.exitCode)) =
      some ("(empty)\n(block (empty) (; nil))\n(; (call print \"a\"))\n", 65) := by
  decide +kernel

end Terminal

end Lox
