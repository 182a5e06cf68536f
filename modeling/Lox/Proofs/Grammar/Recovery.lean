import Lox.Proofs.Grammar.Acceptance
import Lox.Proofs.Tree.Distinction

/-!
# Declarations that fail

A declaration that cannot be read leaves an error and an empty statement behind, and the
next one is read after what has been skipped. Nothing else is an empty statement, or is
listed as one: where `(empty)` stands in a listing, a declaration has failed.
-/

namespace Lox

/-- Only an empty statement is listed as one. -/
theorem Stmt.listing_eq_empty_iff {s : Stmt} : s.listing = "(empty)" ↔ s = .empty := by
  constructor
  · intro h
    obtain ⟨parts, hparts⟩ := s.exists_sexp
    have written := s.toList_listing
    rw [h, hparts] at written
    -- The first letter of the head tells the statement.
    cases s with
    | empty => rfl
    | _ => simp [SExpr.write, SExpr.word, Stmt.head] at written
  · rintro rfl
    rfl

namespace Grammar

/-- Declarations one after another, until `stop` tells that there is no more: each is read, or fails
and is skipped, and then nothing is there for it. -/
inductive Recovered (inner : Inner) (stop : State → Bool) :
    State → List (Option Stmt) → State → Prop where
  | stopped : stop s = true → Recovered inner stop s [] s
  | read : stop s = false → declarationOrFail inner s = .ok d t →
      Recovered inner stop t rest u → Recovered inner stop s (some d :: rest) u
  | failed : stop s = false → declarationOrFail inner s = .error (.unexpected error) t →
      Recovered inner stop
        { t with errors := t.errors.push error, rest := skipStatement t.rest } rest u →
      Recovered inner stop s (none :: rest) u

/-- How one step of reading declarations ends: there is no more, one more is found, or one fails and
an empty statement stands for it; unless nothing is left of the bound on nesting. -/
inductive StepEnds (inner : Inner) (stop : State → Bool) (found : Array Stmt) (s : State) :
    EStateM.Result Failure State (Array Stmt ⊕ Array Stmt) → Prop where
  | stopped : stop s = true → StepEnds inner stop found s (.ok (.inr found) s)
  | read : stop s = false → declarationOrFail inner s = .ok d t →
      StepEnds inner stop found s (.ok (.inl (found.push d)) t)
  | failed : stop s = false → declarationOrFail inner s = .error (.unexpected error) t →
      StepEnds inner stop found s (.ok (.inl (found.push .empty))
        { t with errors := t.errors.push error, rest := skipStatement t.rest })
  | tooDeep : StepEnds inner stop found s (.error .tooDeep t)

variable {inner : Inner} {stop : State → Bool}

/-- Declarations end where they are to stop. -/
theorem Recovered.stop_eq {s t : State} {slots : List (Option Stmt)}
    (h : Recovered inner stop s slots t) : stop t = true := by
  induction h with
  | stopped hstop => exact hstop
  | read _ _ _ ih => exact ih
  | failed _ _ _ ih => exact ih

/-- A step of the declarations reads a declaration, recovers from an error or stops. -/
theorem stepEnds_declarationStep (found : Array Stmt) (s : State) :
    StepEnds inner stop found s (declarationStep inner stop found s) := by
  rw [declarationStep_apply]
  cases hstop : stop s with
  | true => exact .stopped hstop
  | false =>
    simp only [Bool.false_eq_true, if_false, Functor.map, EStateM.map, declaration, recovering]
    cases hread : declarationOrFail inner s with
    | ok d t => exact .read hstop hread
    | error failure t =>
      cases failure with
      | unexpected error => exact .failed hstop hread
      | tooDeep => exact .tooDeep

/-- The statements found are those of the slots, with an empty one for each that failed. -/
theorem recovered_repeatStep {bound : List Token} {found result : Array Stmt} {s t : State}
    (h : repeatStep (declarationStep inner stop) bound found s = .ok result t) :
    ∃ slots, Recovered inner stop s slots t ∧
      result.toList = found.toList ++ slots.map (·.getD .empty) := by
  induction bound generalizing found s with
  | nil =>
    rw [repeatStep] at h
    simp only [Bind.bind, EStateM.bind] at h
    have ends : StepEnds inner stop found s _ := stepEnds_declarationStep found s
    generalize declarationStep inner stop found s = r at h ends
    cases ends with
    | stopped hstop =>
      cases h
      exact ⟨[], .stopped hstop, by simp⟩
    | read | failed | tooDeep => cases h
  | cons token bound ih =>
    rw [repeatStep] at h
    simp only [Bind.bind, EStateM.bind] at h
    have ends : StepEnds inner stop found s _ := stepEnds_declarationStep found s
    generalize declarationStep inner stop found s = r at h ends
    cases ends with
    | stopped hstop =>
      cases h
      exact ⟨[], .stopped hstop, by simp⟩
    | read hstop hread =>
      obtain ⟨slots, hslots, hresult⟩ := ih h
      exact ⟨_, .read hstop hread hslots, by simpa using hresult⟩
    | failed hstop hfail =>
      obtain ⟨slots, hslots, hresult⟩ := ih h
      exact ⟨_, .failed hstop hfail hslots, by simpa using hresult⟩
    | tooDeep => cases h

/-- Declarations that are read, at the top or in a block, are one statement for each that is there,
an empty one where it has failed. -/
theorem recovered_declarations {s t : State} {body : List Stmt}
    (h : declarations inner stop s = .ok body t) :
    ∃ slots, Recovered inner stop s slots t ∧ body = slots.map (·.getD .empty) := by
  simp only [declarations, iterate, Bind.bind, EStateM.bind] at h
  cases hr : repeatStep (declarationStep inner stop) s.rest #[] s with
  | error failure u =>
    rw [hr] at h
    cases h
  | ok result u =>
    rw [hr] at h
    cases h
    obtain ⟨slots, hslots, hresult⟩ := recovered_repeatStep hr
    exact ⟨slots, hslots, by simpa using hresult⟩

/-- So it is with the statements of a block, up to its closing brace. -/
theorem recovered_block {s t : State} {body : List Stmt} (h : block inner s = .ok body t) :
    ∃ slots u, Recovered inner (fun s => s.isAt .rightBrace || s.rest.isEmpty) s slots u ∧
      body = slots.map (·.getD .empty) := by
  simp only [block, Bind.bind, EStateM.bind] at h
  cases hr : declarations inner (fun s => s.isAt .rightBrace || s.rest.isEmpty) s with
  | error failure u =>
    rw [hr] at h
    cases h
  | ok statements u =>
    rw [hr] at h
    obtain ⟨slots, hslots, rfl⟩ := recovered_declarations hr
    cases hclosing : expect .rightBrace "Expect '\x7d' after block." u with
    | error failure v =>
      simp only [hclosing] at h
      cases h
    | ok closing v =>
      simp only [hclosing] at h
      cases h
      exact ⟨slots, u, hslots, rfl⟩

/-- So it is with the statements of a program, up to the end of the tokens. -/
theorem recovered_parse (tokens : List Token) :
    ∃ depth slots t,
      Recovered (.within depth) (·.rest.isEmpty) (State.ofTokens tokens) slots t ∧
        (parse tokens).statements = slots.map (·.getD .empty) ∧
        (parse tokens).errors = t.errors.toList := by
  obtain ⟨body, t, read, -⟩ := declarations_ok (Nat.le_refl (State.ofTokens tokens).rest.length)
  obtain ⟨slots, hslots, hbody⟩ := recovered_declarations read
  refine ⟨_, slots, t, hslots, ?_, ?_⟩
  · simp only [parse, read, hbody]
  · simp only [parse, read]

/-! ### No empty statement is read -/

/-- A parser that gives only what has a property. -/
def Yields (P : α → Prop) (p : Parser α) : Prop := ∀ s a t, p s = .ok a t → P a

namespace Yields

variable {P : α → Prop}

theorem pure {a : α} (h : P a) : Yields P (Pure.pure a) := by
  rintro s _ t ⟨⟩
  exact h

/-- What is yielded is a matter of the last parser in a row. -/
theorem bind {p : Parser β} {f : β → Parser α} (h : ∀ b, Yields P (f b)) :
    Yields P (p >>= f) := by
  intro s a t hr
  simp only [Bind.bind, EStateM.bind] at hr
  cases hp : p s with
  | error failure u =>
    rw [hp] at hr
    cases hr
  | ok b u =>
    rw [hp] at hr
    exact h b u a t hr

end Yields

/-- What a `for` stands for is no empty statement. -/
theorem forLoop_ne_empty (initializer : Option Stmt) (condition increment : Option Expr)
    (body : Stmt) : forLoop initializer condition increment body ≠ .empty := by
  cases initializer <;> simp [forLoop]

/-- No statement is read as an empty one. -/
theorem yields_statement (inner : Inner) : Yields (· ≠ .empty) (statement inner) := by
  refine .bind fun keyword => ?_
  cases keyword with
  | none => exact .bind fun _ => .bind fun _ => .pure (by simp)
  | some keyword =>
    simp only
    split
    · exact .bind fun _ => .pure (by simp)
    · exact .bind fun _ => .pure (by simp)
    · refine .bind fun _ => .bind fun _ => .bind fun _ => .bind fun _ => .bind fun _ => ?_
      exact .bind fun _ => .bind fun _ => .pure (forLoop_ne_empty _ _ _ _)
    · refine .bind fun _ => .bind fun _ => .bind fun _ => .bind fun _ => .bind fun elseWord => ?_
      cases elseWord with
      | none => exact .pure (by simp)
      | some _ => exact .bind fun _ => .pure (by simp)
    · exact .bind fun _ => .bind fun _ => .bind fun _ => .pure (by simp)
    · exact .bind fun _ => .pure (by simp)
    · refine .bind fun _ => .bind fun _ => .bind fun _ => .bind fun _ => .pure (by simp)

/-- No declaration is, either. -/
theorem yields_declarationOrFail (h : Yields (· ≠ .empty) inner.statement) :
    Yields (· ≠ .empty) (declarationOrFail inner) := by
  refine .bind fun keyword => ?_
  cases keyword with
  | none => exact h
  | some keyword =>
    simp only
    split
    · exact .bind fun _ => .bind fun _ => .pure (by simp)
    · exact .bind fun _ => .bind fun _ => .bind fun _ => .pure (by simp)

/-- No statement that is read is the empty one, at any bound on nesting. -/
theorem yields_statementWithin (depth : Nat) :
    Yields (· ≠ .empty) (Inner.within depth).statement := by
  cases depth with
  | zero => rintro s d t ⟨⟩
  | succ depth => exact yields_statement (.within depth)

/-- What is read is listed as something else than what failed. -/
theorem Recovered.listing_ne {depth : Nat} {s t : State} {slots : List (Option Stmt)}
    (h : Recovered (.within depth) stop s slots t) :
    ∀ d, some d ∈ slots → d.listing ≠ "(empty)" := by
  induction h with
  | stopped => exact fun _ hd => nomatch hd
  | read _ hread _ ih =>
    rintro d (_ | ⟨_, hd⟩)
    · have yields := yields_declarationOrFail (yields_statementWithin depth)
      exact mt Stmt.listing_eq_empty_iff.mp (yields _ _ _ hread)
    · exact ih d hd
  | failed _ _ _ ih =>
    rintro d (_ | ⟨_, hd⟩)
    exact ih d hd

end Grammar

end Lox
