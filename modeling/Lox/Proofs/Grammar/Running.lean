import Lox.Proofs.Grammar.Derivation

/-!
# What parsers give

Where a parser comes to from a given place, when the tokens ahead are known. It reads
some of them and may find errors, and it finds what is open around the place as it
was.
-/

namespace Lox.Grammar

/-- The state when only `next` is left and `errs` have been found on the way. -/
def State.after (s : State) (next : List Token) (errs : List SyntaxError) : State :=
  { s with rest := next, errors := s.errors ++ errs.toArray }

namespace State

variable (s : State) (next : List Token) (errs : List SyntaxError)

@[simp] theorem after_rest : (s.after next errs).rest = next := rfl

@[simp] theorem after_context : (s.after next errs).context = s.context := rfl

/-- Tokens that are passed and errors that are made add up. -/
@[simp] theorem after_after (next' : List Token) (errs' : List SyntaxError) :
    (s.after next errs).after next' errs' = s.after next' (errs ++ errs') := by
  simp only [after, Array.append_assoc, List.append_toArray]

@[simp] theorem after_self : s.after s.rest [] = s := by
  simp only [after, Array.append_empty]

end State

/-- Started at `s`, a parser gives `a` and comes to `t`. -/
def Gives (p : Parser α) (s : State) (a : α) (t : State) : Prop := p s = .ok a t

namespace Gives

variable {p : Parser α} {s t u : State} {a : α} {b : β}

/-- Parsers in a row give what the last one gives. -/
theorem bind {f : α → Parser β} (h : Gives p s a t) (hf : Gives (f a) t b u) :
    Gives (p >>= f) s b u := by
  unfold Gives at *
  simp only [Bind.bind, EStateM.bind, h, hf]

theorem map {f : α → β} (h : Gives p s a t) : Gives (f <$> p) s (f a) t := by
  unfold Gives at *
  simp only [Functor.map, EStateM.map, h]

/-- The state that is come to may be given in another form. -/
theorem congr (h : Gives p s a t) (ht : t = u) : Gives p s a u := ht ▸ h

end Gives

section

variable {s t u : State} {rest next : List Token} {token : Token} {kind : TokenKind}
  {kinds : List TokenKind}

theorem gives_pure {a : α} (h : s = t) : Gives (pure a) s a t := h ▸ rfl

theorem gives_acceptAny? (hs : s.rest = token :: rest) (hk : token.kind ∈ kinds) :
    Gives (acceptAny? kinds) s (some token) (s.after rest []) := by
  simp [Gives, acceptAny?, hs, hk, State.after]

theorem gives_acceptAny?_none (h : ∀ t ∈ s.rest.head?, t.kind ∉ kinds) :
    Gives (acceptAny? kinds) s none s := by
  unfold Gives acceptAny?
  cases hs : s.rest with
  | nil => rfl
  | cons token rest =>
    have hk : token.kind ∉ kinds := h token (by rw [hs]; rfl)
    simp only [if_neg hk]

theorem gives_accept? (hs : s.rest = token :: rest) (hk : token.kind = kind) :
    Gives (accept? kind) s (some token) (s.after rest []) :=
  gives_acceptAny? hs (List.mem_singleton.mpr hk)

theorem gives_accept?_none (h : ∀ t ∈ s.rest.head?, t.kind ≠ kind) :
    Gives (accept? kind) s none s :=
  gives_acceptAny?_none fun t ht hk => h t ht (List.mem_singleton.mp hk)

theorem gives_expect {message : String} (hs : s.rest = token :: rest) (hk : token.kind = kind) :
    Gives (expect kind message) s token (s.after rest []) :=
  (gives_accept? hs hk).bind (gives_pure rfl)

/-- An error is reported and the parse goes on. -/
theorem gives_report {message : String} :
    Gives (report token message) s () (s.after s.rest [.atToken token message]) := by
  simp [Gives, report, State.after]

/-- A check of the state adds an error unless all is well. -/
theorem gives_reportIf {wrong : State → Bool} {message : String} :
    Gives (reportIf wrong token message) s ()
      (s.after s.rest (objection (!wrong s) token message)) := by
  unfold Gives reportIf
  cases hw : wrong s with
  | true => exact gives_report
  | false => simp [objection]

/-- Items are reported from the first that is too many. -/
theorem gives_reportExcess {count : Nat} {message : String} {ts : List Token} (hne : ts ≠ [])
    (hs : s.rest = ts ++ next) :
    Gives (reportExcess maxArity count message) s ()
      (s.after s.rest (excess count ts message)) := by
  unfold Gives reportExcess excess
  by_cases hc : maxArity ≤ count
  · rw [if_pos hc, if_pos hc]
    cases ts with
    | nil => exact absurd rfl hne
    | cons token ts =>
      have hpeek : s.peek = token := by rw [State.peek, hs]; rfl
      rw [hpeek]
      exact gives_report
  · rw [if_neg hc, if_neg hc, State.after_self]

/-- Where the token ahead is of another kind the parser is run. -/
theorem gives_unlessAt {otherwise a : α} {p : Parser α} (h : ∀ t ∈ s.rest.head?, t.kind ≠ kind)
    (hp : Gives p s a t) : Gives (unlessAt kind otherwise p) s a t := by
  have hn : s.isAt kind = false := by
    unfold State.isAt
    cases hs : s.rest.head? with
    | none => rfl
    | some token => simpa using h token hs
  unfold Gives at *
  simp only [unlessAt, Bind.bind, EStateM.bind, isAt, hn]
  exact hp

/-- Where the token ahead is of the kind the parser is not run. -/
theorem gives_unlessAt_otherwise {otherwise : α} {p : Parser α} (hs : s.rest = token :: rest)
    (hk : token.kind = kind) : Gives (unlessAt kind otherwise p) s otherwise s := by
  have ha : s.isAt kind = true := by simp [State.isAt, hs, hk]
  simp only [Gives, unlessAt, Bind.bind, EStateM.bind, isAt, ha]
  rfl

/-- In the body of a loop one loop more is open. -/
theorem gives_withinLoop {p : Parser α} {a : α} {errs : List SyntaxError}
    (h : ∀ s' : State, s'.context = s.context.loop → s'.rest = s.rest →
      Gives p s' a (s'.after next errs)) : Gives (withinLoop p) s a (s.after next errs) := by
  have hp := h { s with loops := s.loops + 1 } (by simp [State.context, Context.loop]) rfl
  unfold Gives at *
  simp only [withinLoop, bracket, hp, State.after, Nat.add_sub_cancel]

/-- In the body of a function no loop is open. -/
theorem gives_withinFunction {p : Parser α} {a : α} {errs : List SyntaxError}
    (h : ∀ s' : State, s'.context = .function → s'.rest = s.rest →
      Gives p s' a (s'.after next errs)) : Gives (withinFunction p) s a (s.after next errs) := by
  have hp := h { s with loops := 0, functions := s.functions + 1 }
    (by simp [State.context, Context.function]) rfl
  unfold Gives at *
  simp only [withinFunction, bracket, hp, State.after, Nat.add_sub_cancel]

end

/-- Repetitions of a step, each of which moves past a token. -/
inductive Steps (step : α → Parser (α ⊕ β)) : α → State → α → State → Prop where
  | refl : Steps step a s a s
  | next : Gives (step a) s (.inl b) t → t.rest.length < s.rest.length → Steps step b t c u →
      Steps step a s c u

namespace Steps

variable {step : α → Parser (α ⊕ β)} {a b c : α} {s t u : State}

/-- Steps follow one another. -/
theorem trans (h : Steps step a s b t) (h' : Steps step b t c u) : Steps step a s c u := by
  induction h with
  | refl => exact h'
  | next first progress _ ih => exact .next first progress (ih h')

/-- One repetition more at the end. -/
theorem snoc (h : Steps step a s b t) (last : Gives (step b) t (.inl c) u)
    (progress : u.rest.length < t.rest.length) : Steps step a s c u :=
  h.trans (.next last progress .refl)

/-- Repetitions take no more from the bound than there are tokens. -/
theorem repeatStep_eq (h : Steps step a s b t) : ∀ bound : List Token,
    s.rest.length ≤ bound.length → ∃ bound' : List Token, t.rest.length ≤ bound'.length ∧
      repeatStep step bound a s = repeatStep step bound' b t := by
  induction h with
  | refl => exact fun bound hb => ⟨bound, hb, rfl⟩
  | next first progress _ ih =>
    intro bound hb
    cases bound with
    | nil =>
      rw [List.length_nil] at hb
      omega
    | cons token bound =>
      rw [List.length_cons] at hb
      obtain ⟨bound', hb', heq⟩ := ih bound (by omega)
      refine ⟨bound', hb', ?_⟩
      unfold Gives at first
      rw [repeatStep]
      simp only [Bind.bind, EStateM.bind, first]
      exact heq

end Steps

/-- A repetition that comes to a result. -/
theorem gives_iterate {step : α → Parser (α ⊕ β)} {a b : α} {r : β} {s t u : State}
    (h : Steps step a s b t) (last : Gives (step b) t (.inr r) u) :
    Gives (iterate a step) s r u := by
  obtain ⟨bound, _, heq⟩ := h.repeatStep_eq s.rest (Nat.le_refl _)
  unfold Gives at *
  rw [iterate, heq]
  cases bound <;> simp only [repeatStep, Bind.bind, EStateM.bind, last] <;> rfl

end Lox.Grammar
