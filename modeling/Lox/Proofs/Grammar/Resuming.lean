import Mathlib.Order.Bounds.Basic
import Lox.Proofs.Grammar.Places

/-!
# Where parsing is resumed

A declaration that fails is given up at the token that its error is located at. What is skipped
then ends right after the next semicolon or right before the next word that starts a declaration
or a statement, and not before the token at the error: at the first such place there is, and at
the end of the input if there is no other.
-/

namespace Lox.Grammar

/-- A place where a declaration may start: right after a semicolon, at a word that starts a
declaration or a statement, or at an end of the input. -/
inductive CanResume (tokens : List Token) (q : Nat) : Prop where
  | after : tokens[q - 1]? = some t → t.kind = .semicolon → CanResume tokens q
  | before : tokens[q]? = some t →
      t.kind ∈ [.classWord, .funWord, .varWord, .forWord, .ifWord, .whileWord, .returnWord, .eof] →
      CanResume tokens q

/-- The place where parsing is resumed after an error at the place `p`: the first one past it where
a declaration may start, but an end of the input is not passed. -/
inductive ResumesAt (tokens : List Token) (p : Nat) : Nat → Prop where
  | atEnd : tokens[p]? = some t → t.kind = .eof → ResumesAt tokens p p
  | past : tokens[p]? = some t → t.kind ≠ .eof → IsLeast {q | p < q ∧ CanResume tokens q} q →
      ResumesAt tokens p q

section

variable {tokens : List Token} {p q : Nat}

/-- To resume after one token more is to resume, if that token is not the end. -/
theorem ResumesAt.of_next (here : tokens[p]? = some t) (hkind : t.kind ≠ .eof)
    (next : CanResume tokens (p + 1)) : ResumesAt tokens p (p + 1) :=
  .past here hkind ⟨⟨Nat.lt_succ_self p, next⟩, fun _ h => h.1⟩

/-- Where a declaration may not start at the next place, parsing is resumed where it is after an
error there. -/
theorem ResumesAt.of_later (here : tokens[p]? = some t) (hkind : t.kind ≠ .eof)
    (next : ¬ CanResume tokens (p + 1)) (h : ResumesAt tokens (p + 1) q) :
    ResumesAt tokens p q := by
  cases h with
  | atEnd there heof => exact absurd (.before there (by simp [heof])) next
  | past _ _ least =>
    refine .past here hkind ⟨⟨Nat.lt_of_succ_lt least.1.1, least.1.2⟩, fun r ⟨hr, resume⟩ => ?_⟩
    have hne : p + 1 ≠ r := fun heq => next (heq ▸ resume)
    exact least.2 ⟨Nat.lt_of_le_of_ne hr hne, resume⟩

end

/-- Statements start with seven kinds of tokens, apart from the end of the input. -/
theorem isStatementStart_iff {kind : TokenKind} (hne : kind ≠ .eof) :
    isStatementStart kind = true ↔
      kind ∈
        [.classWord, .funWord, .varWord, .forWord, .ifWord, .whileWord, .returnWord, .eof] := by
  simp [isStatementStart, hne]

/-- One token is skipped, and then no more if a declaration may start at the next place. -/
theorem skipStatement_cons {s : State} {tokens : List Token} {p : Nat} {token : Token}
    {rest : List Token} (h : s.At tokens p) (hr : s.rest = token :: rest) :
    (CanResume tokens (p + 1) → skipStatement (token :: rest) = rest) ∧
      (¬ CanResume tokens (p + 1) → skipStatement (token :: rest) = skipStatement rest) := by
  have here : tokens[p]? = some token := by simpa [State.peek, hr] using h.peek
  have there := h.moves (.advance hr)
  have next : tokens[p + 1]? = some (rest.headD s.eof) := there.peek
  rw [skipStatement]
  refine ⟨fun resume => ?_, fun resume => ?_⟩
  · cases resume with
    | @after t ht hkind =>
      obtain rfl : token = t := by simpa [here] using ht
      rw [if_pos hkind]
    | @before t ht hkind =>
      obtain rfl : rest.headD s.eof = t := by simpa [next] using ht
      cases rest with
      | nil => simp [skipStatement]
      | cons follower rest =>
        have hne : follower.kind ≠ .eof := there.kind_ne follower List.mem_cons_self
        have start := (isStatementStart_iff hne).mpr hkind
        simp [start]
  · have hsemicolon : token.kind ≠ .semicolon := fun hk => resume (.after here hk)
    rw [if_neg hsemicolon, if_neg]
    intro hstart
    cases rest with
    | nil => simp at hstart
    | cons follower rest =>
      have hne : follower.kind ≠ .eof := there.kind_ne follower List.mem_cons_self
      exact resume (.before next ((isStatementStart_iff hne).mp hstart))

/-- What is skipped after an error ends where parsing is resumed. -/
theorem State.At.skipStatement {t : State} {tokens : List Token} {p : Nat} (h : t.At tokens p)
    (errors : Array SyntaxError) :
    ∃ q, State.At { t with errors := errors, rest := Grammar.skipStatement t.rest } tokens q ∧
      ResumesAt tokens p q := by
  induction hr : t.rest generalizing t p with
  | nil =>
    have heof := h.peek_kind.mpr hr
    exact ⟨p, ⟨h.le, by rw [← h.rest, hr]; rfl, h.eof⟩, .atEnd h.peek heof⟩
  | cons token rest ih =>
    have here : tokens[p]? = some token := by simpa [State.peek, hr] using h.peek
    have hkind : token.kind ≠ .eof := h.kind_ne token (hr ▸ List.mem_cons_self)
    have there := h.moves (.advance hr)
    obtain ⟨now, later⟩ := skipStatement_cons h hr
    by_cases resume : CanResume tokens (p + 1)
    · rw [now resume]
      exact ⟨p + 1, ⟨there.le, there.rest, there.eof⟩, .of_next here hkind resume⟩
    · rw [later resume]
      obtain ⟨q, arrived, resumes⟩ := ih there rfl
      exact ⟨q, arrived, .of_later here hkind resume resumes⟩

/-! ### One declaration -/

/-- No statement is read as an empty one, however deep it nests. -/
theorem yields_declaration_unbounded : Yields (· ≠ .empty) (declarationOrFail .unbounded) := by
  refine yields_declarationOrFail ?_
  rw [Inner.recursive_unbounded.statement]
  exact yields_statement .unbounded

/-- A declaration that starts in the state `s` is given up at the place `p`, in the state `t`, with
an error at the token there. The error is recorded once, after those of what was parsed before, and
parsing is resumed at the place `q`, in the state `u`. -/
structure GivenUp (tokens : List Token) (message : String) (s t u : State) (p q : Nat) : Prop where
  place : t.At tokens p
  token : tokens[p]? = some t.peek
  noted : ∃ noted, t.errors.toList = s.errors.toList ++ noted
  recorded : u.errors = t.errors.push (.atToken t.peek message)
  resumed : u.At tokens q
  resumes : ResumesAt tokens p q

/-- A declaration that cannot be read fails with an error at a token that is not before it, and an
empty statement is given for it. -/
theorem givenUp_of_error {tokens : List Token} {s t : State} {i : Nat} {failure : Failure}
    (h : s.At tokens i) (hr : declarationOrFail .unbounded s = .error failure t) :
    ∃ message p u q, failure = .unexpected (.atToken t.peek message) ∧ i ≤ p ∧
      declaration .unbounded s = .ok .empty u ∧ GivenUp tokens message s t u p q := by
  obtain ⟨t', ⟨ts, moves⟩, ⟨d, read⟩ | ⟨message, failed⟩⟩ := forward_declarationOrFail s
  · rw [hr] at read
    cases read
  · obtain ⟨rfl, rfl⟩ : failure = .unexpected (.atToken t'.peek message) ∧ t = t' := by
      rw [hr] at failed
      cases failed
      exact ⟨rfl, rfl⟩
    have place := h.moves moves
    obtain ⟨q, resumed, resumes⟩ :=
      place.skipStatement (t.errors.push (.atToken t.peek message))
    refine ⟨message, i + ts.length, _, q, rfl, Nat.le_add_right _ _, ?_,
      ⟨place, place.peek, moves.errors, rfl, resumed, resumes⟩⟩
    simp only [declaration, recovering, hr]

/-! ### Declarations one after another -/

/-- Declarations one after another, with the errors that each has noted: every one starts where the
one before it has ended, until `stop` tells that there is no more. -/
inductive Successive (stop : State → Bool) :
    State → List (Stmt × List SyntaxError) → State → Prop where
  | stopped : stop s = true → Successive stop s [] s
  | next : stop s = false → declaration .unbounded s = .ok d t →
      t.errors.toList = s.errors.toList ++ noted → Successive stop t rest u →
      Successive stop s ((d, noted) :: rest) u

variable {stop : State → Bool} {s t : State}

/-- The errors of one after another are kept, in order, and no other is noted. -/
theorem Successive.errors {parts : List (Stmt × List SyntaxError)}
    (h : Successive stop s parts t) :
    t.errors.toList = s.errors.toList ++ parts.flatMap Prod.snd := by
  induction h with
  | stopped => simp
  | next _ _ hnoted _ ih => rw [ih, hnoted, List.flatMap_cons, List.append_assoc]

/-- What is read or recovered from is what declarations are parsed as. -/
theorem Recovered.successive {slots : List (Option Stmt)}
    (h : Recovered .unbounded stop s slots t) :
    ∃ parts, Successive stop s parts t ∧ parts.map Prod.fst = slots.map (·.getD .empty) := by
  have noted {s u : State} {d : Stmt} (hd : declaration .unbounded s = .ok d u) :
      ∃ noted, u.errors.toList = s.errors.toList ++ noted := by
    obtain ⟨u', ends⟩ := Rule.declaration.forward s
    obtain ⟨ts, moves⟩ := ends.moves
    exact ends.eq_of_ok hd ▸ moves.errors
  induction h with
  | stopped hstop => exact ⟨[], .stopped hstop, rfl⟩
  | @read s d t rest u hstop hread _ ih =>
    obtain ⟨parts, hparts, hmap⟩ := ih
    have hd : declaration .unbounded s = .ok d t := by simp only [declaration, recovering, hread]
    obtain ⟨new, hnew⟩ := noted hd
    exact ⟨(d, new) :: parts, .next hstop hd hnew hparts, by simp [hmap]⟩
  | @failed s error t rest u hstop hfail _ ih =>
    obtain ⟨parts, hparts, hmap⟩ := ih
    have hd : declaration .unbounded s = .ok .empty
        { t with errors := t.errors.push error, rest := skipStatement t.rest } := by
      simp only [declaration, recovering, hfail]
    obtain ⟨new, hnew⟩ := noted hd
    exact ⟨(.empty, new) :: parts, .next hstop hd hnew hparts, by simp [hmap]⟩

/-- Declarations one after another come to an end, where there is no more of them. -/
theorem declarations_successive (stop : State → Bool)
    (atEnd : ∀ s : State, s.rest = [] → stop s = true) (s : State) :
    ∃ parts t, Successive stop s parts t ∧
      declarations .unbounded stop s = .ok (parts.map Prod.fst) t := by
  have read := parses_declarations (Inner.sound_unbounded (2 * s.rest.length + 2)) (Nat.le_refl _)
    atEnd s (Nat.le_refl _)
  cases hr : declarations .unbounded stop s with
  | error failure t =>
    obtain ⟨⟨message, rfl⟩, -⟩ := hr ▸ read
    exact absurd hr (recovers_declarations _ _ _ _ _)
  | ok body t =>
    obtain ⟨slots, recovered, rfl⟩ := recovered_declarations hr
    obtain ⟨parts, hparts, hmap⟩ := recovered.successive
    exact ⟨parts, t, hparts, by rw [hmap]⟩

/-- The end of a block: its closing brace, or no token at all. -/
def blockEnds (s : State) : Bool := s.isAt .rightBrace || s.rest.isEmpty

/-- A block fails for no other reason than that its closing brace is missing. -/
theorem block_successive (s : State) :
    ∃ parts t, Successive blockEnds s parts t ∧
      block .unbounded s =
        if t.isAt .rightBrace then .ok (parts.map Prod.fst) { t with rest := t.rest.tail }
        else .error (.unexpected (.atToken t.peek "Expect '\x7d' after block.")) t := by
  obtain ⟨parts, t, hparts, read⟩ :=
    declarations_successive blockEnds (fun s hs => by simp [blockEnds, hs]) s
  refine ⟨parts, t, hparts, ?_⟩
  have read' : declarations .unbounded (fun s => s.isAt .rightBrace || s.rest.isEmpty) s =
      .ok (parts.map Prod.fst) t := read
  simp only [block, Bind.bind, EStateM.bind, read', expect_apply]
  cases t.isAt .rightBrace <;> rfl

/-- Recovery from errors is exact. A declaration is read, as no empty statement, or it is given up
at the token of its error, which is recorded once; then one empty statement stands for it, and
parsing is resumed at the first place past that token where a declaration may start. The other
declarations of its block are kept, unless the closing brace is missing after them, and so are those
of a program, with all errors that they have noted and no other. -/
theorem recovery_exact (tokens : List Token) :
    (∀ s i, s.At (closed tokens) i →
      (∀ d t, declarationOrFail .unbounded s = .ok d t →
        d ≠ .empty ∧ declaration .unbounded s = .ok d t) ∧
      ∀ failure t, declarationOrFail .unbounded s = .error failure t →
        ∃ message p u q, failure = .unexpected (.atToken t.peek message) ∧ i ≤ p ∧
          declaration .unbounded s = .ok .empty u ∧
          GivenUp (closed tokens) message s t u p q) ∧
      (∀ s : State, ∃ parts t, Successive blockEnds s parts t ∧
        t.errors.toList = s.errors.toList ++ parts.flatMap Prod.snd ∧
        Inner.unbounded.block s =
          if t.isAt .rightBrace then .ok (parts.map Prod.fst) { t with rest := t.rest.tail }
          else .error (.unexpected (.atToken t.peek "Expect '\x7d' after block.")) t) ∧
      ∃ parts t, Successive (·.rest.isEmpty) (State.ofTokens tokens) parts t ∧
        (parse tokens).statements = parts.map Prod.fst ∧
        (parse tokens).errors = parts.flatMap Prod.snd := by
  refine ⟨fun s i h => ⟨fun d t read => ⟨?_, ?_⟩, fun failure t => givenUp_of_error h⟩,
    fun s => ?_, ?_⟩
  · exact yields_declaration_unbounded s d t read
  · simp only [declaration, recovering, read]
  · obtain ⟨parts, t, hparts, hblock⟩ := block_successive s
    refine ⟨parts, t, hparts, hparts.errors, ?_⟩
    rw [Inner.recursive_unbounded.block, hblock]
  · obtain ⟨t, read, errors⟩ := parse_unbounded tokens
    obtain ⟨parts, t', hparts, read'⟩ := declarations_successive (·.rest.isEmpty)
      (fun s hs => by rw [hs, List.isEmpty_nil]) (State.ofTokens tokens)
    obtain ⟨hbody, rfl⟩ : parts.map Prod.fst = (parse tokens).statements ∧ t' = t := by
      simpa using read'.symm.trans read
    refine ⟨parts, t', hparts, hbody.symm, ?_⟩
    rw [← errors, hparts.errors]
    rfl

/-- A declaration in a block and one after it are given up. Their neighbours are kept. -/
example :
    let result := parse (Source.scan "\x7b var 1; a; \x7d ) b; c;").tokens
    result.errors.map SyntaxError.text =
        ["[line 1] Error at '1': Expect variable name.",
          "[line 1] Error at ')': Expect expression."] ∧
      Stmt.programListing result.statements = "(block (empty) (; a))\n(empty)\n(; c)\n" := by
  decide +kernel

end Lox.Grammar
