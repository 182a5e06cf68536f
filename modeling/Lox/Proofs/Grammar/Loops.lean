import Lox.Proofs.Grammar.Prefix

/-!
# Loops with three clauses

A `for` has no node in the tree. Here are the parts that one is written with, and the tree
that stands for them; the parser reads the parts off the tokens whatever the bound on
nesting was, as long as it comes to an end.
-/

namespace Lox

/-- The parts of a loop with three clauses. -/
structure ForLoop where
  initializer : Option Stmt
  condition : Option Expr
  increment : Option Expr
  body : Stmt

namespace ForLoop

open Grammar

/-- The tree that stands for a loop. -/
def tree (loop : ForLoop) : Stmt :=
  forLoop loop.initializer loop.condition loop.increment loop.body

/-- The tokens of a loop, with nothing wrong in them, and its parts. -/
inductive WrittenAs (c : Context) (loop : ForLoop) : List Token → Prop where
  | mk : keyword.kind = .forWord → opening.kind = .leftParen →
      DerivesFirstClause ts loop.initializer [] →
      Optional (DerivesExpr .assignment) us loop.condition [] → semicolon.kind = .semicolon →
      Optional (DerivesExpr .assignment) vs loop.increment [] → closing.kind = .rightParen →
      DerivesStmt c.loop dangling ws loop.body [] →
      WrittenAs c loop (keyword :: opening :: (ts ++ (us ++ semicolon :: (vs ++ closing :: ws))))

end ForLoop

namespace Grammar

/-- A statement that starts with the word `for` is a loop with three clauses. -/
theorem DerivesStmt.exists_forLoop {c : Context} {dangling : Bool} {keyword : Token}
    {ts : List Token} {s : Stmt} (hk : keyword.kind = .forWord)
    (h : DerivesStmt c dangling (keyword :: ts) s []) :
    ∃ loop : ForLoop, loop.WrittenAs c (keyword :: ts) ∧ s = loop.tree := by
  generalize htokens : keyword :: ts = tokens at h
  generalize herrors : ([] : List SyntaxError) = errors at h
  cases h with
  | «for» hkeyword hopening hfirst hcondition hsemicolon hincrement hclosing hbody =>
    simp only [List.nil_eq, List.append_eq_nil_iff] at herrors
    obtain ⟨rfl, rfl, rfl, rfl⟩ := herrors
    refine ⟨⟨_, _, _, _⟩, ?_, rfl⟩
    exact .mk hkeyword hopening hfirst hcondition hsemicolon hincrement hclosing hbody
  | expression he =>
    -- No expression starts with this word.
    obtain ⟨first, rest, rfl, hfirst⟩ := he.ahead
    cases htokens
    rw [hk] at hfirst
    contradiction
  | block hopening =>
    cases htokens
    rw [hk] at hopening
    contradiction
  | ifThen hword | ifElse hword | «while» hword | «break» hword | «continue» hword
  | «return» hword =>
    cases htokens
    rw [hk] at hword
    contradiction

/-- What a parser reads, one reads that may nest deeper. -/
theorem Uniform.eq_ok {p q : Parser Stmt} (h : Uniform Eq Eq (Stmt.Alike Eq) p q) {s t : State}
    {tree : Stmt} (read : p s = .ok tree t) : q s = .ok tree t := by
  have ends := h s s s.alike_refl
  rw [read] at ends
  generalize q s = r at ends
  cases ends with
  | ok htree ht => rw [← Stmt.eq_of_alike _ _ htree, ← State.eq_of_alike ht]

/-- A loop that is read without a new error is the tree of parts that the tokens are. -/
theorem statement_forLoop {depth : Nat} {s t : State} {tree : Stmt}
    (read : statement (.within depth) s = .ok tree t) (clean : t.errors = s.errors)
    (ahead : s.isAt .forWord) :
    ∃ (ts : List Token) (loop : ForLoop),
      s.rest = ts ++ t.rest ∧ loop.WrittenAs s.context ts ∧ tree = loop.tree := by
  -- The bound on nesting may be taken to be large enough for all the tokens that are left.
  have deeper : depth ≤ depth + depthBound s.rest.length := Nat.le_add_right _ _
  have enough : 2 * s.rest.length + 1 ≤ depth + depthBound s.rest.length := by
    unfold depthBound
    omega
  have nested := uniform_statement relates_eq (Inner.isUniform_within relates_eq deeper)
  have reached := parses_statement (Inner.sound_within _) enough s (Nat.le_refl _)
  rw [nested.eq_ok read] at reached
  obtain ⟨ts, moves, hlength, reading⟩ := reached
  obtain ⟨dangling, derived, -⟩ := reading clean
  obtain ⟨keyword, rest, rfl⟩ := List.exists_cons_of_length_pos hlength
  have hk : keyword.kind = .forWord := by
    simpa [State.isAt, moves.rest] using ahead
  obtain ⟨loop, written, rfl⟩ := derived.exists_forLoop hk
  exact ⟨_, loop, moves.rest, written, rfl⟩

end Grammar

end Lox
