import Lox.Proofs.Machine.Sessions
import Lox.Proofs.Tree.Listing

/-!
# Layout

Texts of the same words may be laid out in different ways: other blanks, other line
breaks, other comments. They are the same program all the same, up to the lines of its
tokens: they are parsed into alike trees with alike errors, their trees are listed in
the same way, and they run alike.
-/

namespace Lox

open Grammar Source

/-- Two texts in which the scanner finds nothing wrong, with the same tokens up to their lines. -/
structure Source.SameWords (source source' : String) : Prop where
  clean : (scan source).errors = []
  clean' : (scan source').errors = []
  tokens : List.Forall₂ Token.SameText (scan source).tokens (scan source').tokens

/-- The same statements and the same errors in the same order, up to their lines. -/
structure Grammar.Parse.Alike (p p' : Parse) : Prop where
  statements : Stmt.AllAlike Token.SameText p.statements p'.statements
  errors : List.Forall₂ SyntaxError.Alike p.errors p'.errors

/-- Two runs that have ended: with the same reports up to their lines, and on machines on which the
same has been written and the same is bound. -/
structure SameOutcome (r r' : Diagnostics × Machine) : Prop where
  syntaxErrors : List.Forall₂ SyntaxError.Alike r.1.syntaxErrors r'.1.syntaxErrors
  fault : r'.1.runtimeError.map RuntimeError.fault = r.1.runtimeError.map RuntimeError.fault
  sink : r'.2.sink = r.2.sink
  machine : r.2.Alike Token.SameText r'.2

/-- Lists that stand in a relation up to their last members, and the last members. -/
theorem forall₂_of_concat {R : α → β → Prop} {as : List α} {bs : List β} {a : α} {b : β}
    (h : List.Forall₂ R (as ++ [a]) (bs ++ [b])) : List.Forall₂ R as bs ∧ R a b := by
  rw [← List.forall₂_reverse_iff, List.reverse_append, List.reverse_append] at h
  cases h with
  | cons hlast hrest => exact ⟨List.forall₂_reverse_iff.mp hrest, hlast⟩

/-- Sources with the same words have like statements and errors. -/
theorem Source.SameWords.parse {source source' : String} (h : SameWords source source') :
    (parseSource source).Alike (parseSource source') := by
  have htokens := h.tokens
  rw [tokens_eq, tokens_eq] at htokens
  obtain ⟨hwords, hend⟩ := forall₂_of_concat htokens
  have hnone : ∀ t ∈ words source, t.kind ≠ .eof := fun t ht => kind_mem_words ht
  obtain ⟨hstatements, herrors⟩ := parse_alike relabels_sameText hwords hend hnone rfl
  simp only [parseSource, parseScan, h.clean, h.clean', tokens_eq, List.nil_append]
  exact ⟨hstatements, herrors⟩

/-- Tokens without literals are the same up to their lines if their kinds and lexemes are. -/
theorem sameText_of_plain {ts ts' : List Token}
    (hkind : ts.map Token.kind = ts'.map Token.kind)
    (hlexeme : ts.map Token.lexeme = ts'.map Token.lexeme)
    (hplain : ∀ t ∈ ts, t.literal.isNone) (hplain' : ∀ t ∈ ts', t.literal.isNone) :
    List.Forall₂ Token.SameText ts ts' := by
  induction ts generalizing ts' with
  | nil =>
    obtain rfl := List.map_eq_nil_iff.mp hkind.symm
    exact .nil
  | cons t ts ih =>
    cases ts' with
    | nil => exact nomatch hkind
    | cons t' ts' =>
      simp only [List.map_cons, List.cons.injEq, List.forall_mem_cons, Option.isNone_iff_eq_none]
        at hkind hlexeme hplain hplain'
      have rest := ih hkind.2 hlexeme.2 (by simpa using hplain.2) (by simpa using hplain'.2)
      exact .cons (Token.sameText hkind.1 hlexeme.1 (hplain.1.trans hplain'.1.symm)) rest

namespace Machine

/-- Programs that are alike run alike: neither run ends with the given fuel, or both do. -/
theorem runParse_alike {p p' : Parse} (hp : p.Alike p') (fuel : Nat) {m m' : Machine}
    (hm : m.Alike Token.SameText m') :
    Option.Rel SameOutcome (m.runParse fuel p) (m'.runParse fuel p') := by
  have herrors : p'.errors.isEmpty = p.errors.isEmpty := by
    rw [Bool.eq_iff_iff, List.isEmpty_iff_length_eq_zero, List.isEmpty_iff_length_eq_zero,
      hp.errors.length_eq]
  simp only [runParse, herrors]
  split
  · have ends := uniform_interpret relabels_sameText fuel hp.statements m m' hm
    simp only [interpret]
    generalize Lox.interpret fuel p.statements m = r at ends
    generalize Lox.interpret fuel p'.statements m' = r' at ends
    cases ends with
    | ok _ hn => exact .some ⟨.nil, rfl, hn.sink, hn⟩
    | error he hn =>
      cases he with
      | error f ht => exact .some ⟨.nil, rfl, hn.sink, hn⟩
      | outOfFuel => exact .none
  · exact .some ⟨hp.errors, rfl, hm.sink, hm⟩

/-- How a text is laid out makes no difference but to lines. -/
theorem sameOutcome_of_sameWords {source source' : String} (h : SameWords source source') :
    (parseSource source).Alike (parseSource source') ∧
      Stmt.programListing (parseSource source').statements =
        Stmt.programListing (parseSource source).statements ∧
      ∀ fuel sink clock, Option.Rel SameOutcome ((initial sink clock).run fuel source)
        ((initial sink clock).run fuel source') := by
  refine ⟨h.parse, Stmt.programListing_eq_of_alike relabels_sameText h.parse.statements, ?_⟩
  exact fun fuel sink clock => runParse_alike h.parse fuel (initial_alike _ sink clock)

theorem sameOutcome_of_sameWords_comment :
    let source := "fun f() \x7b var a = b(); print(a); \x7d f(); f(nil);"
    let source' := "fun f() \x7b // prints\n\tvar a=b();print ( a );\n\x7d\n f();\n\nf(nil); "
    SameWords source source' ∧ (parseSource source).Alike (parseSource source') ∧
      Stmt.programListing (parseSource source').statements =
        Stmt.programListing (parseSource source).statements ∧
      ∀ fuel sink clock, Option.Rel SameOutcome ((initial sink clock).run fuel source)
        ((initial sink clock).run fuel source') := by
  intro source source'
  have tokens : List.Forall₂ Token.SameText (scan source).tokens (scan source').tokens :=
    sameText_of_plain (by decide +kernel) (by decide +kernel) (by decide +kernel)
      (by decide +kernel)
  have words : SameWords source source' :=
    ⟨List.isEmpty_iff.mp (by decide +kernel), List.isEmpty_iff.mp (by decide +kernel), tokens⟩
  exact ⟨words, sameOutcome_of_sameWords words⟩

end Machine

end Lox
