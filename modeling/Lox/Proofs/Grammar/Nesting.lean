import Lox.Proofs.Grammar.Prefix

/-!
# Parsing without a bound on nesting

The bound on nesting is there to make the recursion of the parser end; it is never reached. So
there are parsers of expressions, statements and blocks that have no bound and call one another
as the grammar says, and no others do. They do what the bounded ones do wherever those come to an
end, and parse every list of tokens as the parser does.
-/

namespace Lox.Grammar

/-- The parsers of what is nested, however deep: the bound is what the tokens ahead can need. -/
def Inner.unbounded : Inner where
  expression s := expressionWithin (depthBound s.rest.length + 1) s
  statement s := statementWithin (depthBound s.rest.length + 1) s
  block s := blockWithin (depthBound s.rest.length + 1) s

/-- What reaches a place has not given up for the bound on nesting. -/
theorem State.Reaches.ne_tooDeep {s : State} {least : α → Nat} {R : Reading α}
    {result : EStateM.Result Failure State α} (h : s.Reaches least R result) (t : State) :
    result ≠ .error .tooDeep t := by
  rintro rfl
  obtain ⟨⟨message, hm⟩, -⟩ := h
  contradiction

/-- Where a first parser does not give up for the bound on nesting, a second one that ends alike
ends in the same way. -/
theorem EndsAlike.eq {Q : α → α → Prop} {r r' : EStateM.Result Failure State α}
    (h : EndsAlike Eq Eq Q r r') (hQ : ∀ a b, Q a b → a = b) (hr : ∀ t, r ≠ .error .tooDeep t) :
    r' = r := by
  cases h with
  | ok hab hs => rw [hQ _ _ hab, State.eq_of_alike hs]
  | unexpected he hs => rw [he, State.eq_of_alike hs]
  | tooDeep => exact absurd rfl (hr _)

/-- With more nesting allowed, a parser does what it does with as much as the tokens ahead can
need. -/
theorem uniform_bounded {Q : α → α → Prop} {family : Nat → Parser α}
    (hQ : ∀ a b, Q a b → a = b)
    (mono : ∀ {depth depth'}, depth ≤ depth' → Uniform Eq Eq Q (family depth) (family depth'))
    (enough : ∀ s t, family (depthBound s.rest.length + 1) s ≠ .error .tooDeep t) (depth : Nat) :
    Uniform Eq Eq Q (family depth) fun s => family (depthBound s.rest.length + 1) s := by
  intro s s' hs
  obtain rfl := State.eq_of_alike hs
  -- Both are compared with a bound that is no less than either.
  have deeper := mono (Nat.le_max_right depth (depthBound s.rest.length + 1)) s s hs
  have same := deeper.eq hQ (enough s)
  have ends := mono (Nat.le_max_left depth (depthBound s.rest.length + 1)) s s hs
  rwa [same] at ends

namespace Inner

/-- Enough nesting is allowed for phrases of all tokens that are ahead. -/
private theorem sound_enough (s : State) :
    (Inner.within (depthBound s.rest.length + 1)).Sound (2 * s.rest.length + 3) :=
  Inner.sound_within _

/-- The parsers without a bound read phrases, on any number of tokens. -/
theorem sound_unbounded (depth : Nat) : Inner.unbounded.Sound depth where
  expression _ _ s _ := (sound_enough s).expression s.rest.length (by omega) s (Nat.le_refl _)
  statement _ _ s _ := (sound_enough s).statement s.rest.length (by omega) s (Nat.le_refl _)
  block _ _ s _ := (sound_enough s).block s.rest.length (by omega) s (Nat.le_refl _)

theorem unbounded_expression_ne (s t : State) :
    Inner.unbounded.expression s ≠ .error .tooDeep t :=
  ((sound_unbounded _).expression _ (Nat.le_refl _) s (Nat.le_refl _)).ne_tooDeep t

theorem unbounded_statement_ne (s t : State) :
    Inner.unbounded.statement s ≠ .error .tooDeep t :=
  ((sound_unbounded _).statement _ (Nat.le_refl _) s (Nat.le_refl _)).ne_tooDeep t

theorem unbounded_block_ne (s t : State) : Inner.unbounded.block s ≠ .error .tooDeep t :=
  ((sound_unbounded _).block _ (Nat.le_refl _) s (Nat.le_refl _)).ne_tooDeep t

/-- As long as the bound is not reached the parsers with it do what those without it do. -/
theorem isUniform_unbounded (depth : Nat) : (Inner.within depth).IsUniform Eq Eq .unbounded where
  expression := uniform_bounded (fun _ _ => Expr.eq_of_alike _ _)
    (fun h => (isUniform_within relates_eq h).expression) unbounded_expression_ne depth
  statement := uniform_bounded (fun _ _ => Stmt.eq_of_alike _ _)
    (fun h => (isUniform_within relates_eq h).statement) unbounded_statement_ne depth
  block := uniform_bounded (fun _ _ => Stmt.eq_of_allAlike _ _)
    (fun h => (isUniform_within relates_eq h).block) unbounded_block_ne depth

/-- Parsers that call themselves and one another as the grammar says, to any depth. -/
structure Recursive (inner : Inner) : Prop where
  expression : inner.expression = assignment inner
  statement : inner.statement = Grammar.statement inner
  block : inner.block = Grammar.block inner

/-- The parsers without a bound call each other as the grammar says. -/
theorem recursive_unbounded : Inner.unbounded.Recursive where
  expression := by
    funext s
    have ends := uniform_assignment relates_eq (isUniform_unbounded (depthBound s.rest.length))
    exact ((ends s s s.alike_refl).eq (fun _ _ => Expr.eq_of_alike _ _)
      (unbounded_expression_ne s)).symm
  statement := by
    funext s
    have ends := uniform_statement relates_eq (isUniform_unbounded (depthBound s.rest.length))
    exact ((ends s s s.alike_refl).eq (fun _ _ => Stmt.eq_of_alike _ _)
      (unbounded_statement_ne s)).symm
  block := by
    funext s
    have ends := uniform_block relates_eq (isUniform_unbounded (depthBound s.rest.length))
    exact ((ends s s s.alike_refl).eq (fun _ _ => Stmt.eq_of_allAlike _ _)
      (unbounded_block_ne s)).symm

/-- Recursive parsers do what the bounded ones do wherever those come to an end. -/
theorem Recursive.isUniform {inner : Inner} (h : inner.Recursive) (depth : Nat) :
    (Inner.within depth).IsUniform Eq Eq inner := by
  induction depth with
  | zero => exact ⟨fun _ _ _ => .tooDeep, fun _ _ _ => .tooDeep, fun _ _ _ => .tooDeep⟩
  | succ depth ih =>
    constructor
    · rw [h.expression]
      exact uniform_assignment relates_eq ih
    · rw [h.statement]
      exact uniform_statement relates_eq ih
    · rw [h.block]
      exact uniform_block relates_eq ih

/-- There are no other recursive parsers than those without a bound. -/
theorem Recursive.eq_unbounded {inner : Inner} (h : inner.Recursive) : inner = .unbounded := by
  have expression : inner.expression = Inner.unbounded.expression := by
    funext s
    exact ((h.isUniform _).expression s s s.alike_refl).eq (fun _ _ => Expr.eq_of_alike _ _)
      (unbounded_expression_ne s)
  have statement : inner.statement = Inner.unbounded.statement := by
    funext s
    exact ((h.isUniform _).statement s s s.alike_refl).eq (fun _ _ => Stmt.eq_of_alike _ _)
      (unbounded_statement_ne s)
  have block : inner.block = Inner.unbounded.block := by
    funext s
    exact ((h.isUniform _).block s s s.alike_refl).eq (fun _ _ => Stmt.eq_of_allAlike _ _)
      (unbounded_block_ne s)
  cases inner
  simp_all only

/-- The equations of the grammar have one solution. -/
theorem recursive_iff {inner : Inner} : inner.Recursive ↔ inner = .unbounded :=
  ⟨Recursive.eq_unbounded, fun h => h ▸ recursive_unbounded⟩

end Inner

/-- The parser gives what declarations without a bound are read as. -/
theorem parse_unbounded (tokens : List Token) :
    ∃ t, declarations .unbounded (·.rest.isEmpty) (State.ofTokens tokens) =
        .ok (parse tokens).statements t ∧ t.errors.toList = (parse tokens).errors := by
  obtain ⟨body, t, read, -⟩ := declarations_ok (Nat.le_refl (State.ofTokens tokens).rest.length)
  have nested := Inner.isUniform_unbounded (depthBound (State.ofTokens tokens).rest.length)
  have ends := uniform_declarations relates_eq nested (fun s s' hs => hs.isEmpty)
    (State.ofTokens tokens) _ (State.alike_refl _)
  have same := ends.eq (fun _ _ => Stmt.eq_of_allAlike _ _) (by simp [read])
  refine ⟨t, ?_, ?_⟩
  · rw [same, read]
    simp only [parse, read]
  · simp only [parse, read]

end Lox.Grammar
