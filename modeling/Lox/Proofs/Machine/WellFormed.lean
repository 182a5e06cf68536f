import Lox.Proofs.Machine.Blame

/-!
# Only well-formed trees are run

What the parser gives of any tokens is well formed. So whatever source texts a session runs,
each task of its runs is well formed, and so is each function that is called or that a
scope holds. Where an operator has a case for all other kinds, that case is never taken for
a kind that it is not meant for, and no run fails for want of an operator.
-/

namespace Lox

open Grammar

/-- Whether the functions that are bound to names in a store are well formed. -/
def Store.HoldsSound (T : Token → Prop) (s : Store) : Prop :=
  ∀ scope name ref f closure, s.binding? scope name = some (.callable ref) →
    s.callable? ref = some (.function f closure) → f.IsSound T

/-- What is held of functions is sound where the functions are. -/
theorem Store.FunctionsAre.holdsSound {T : Token → Prop} {s : Store}
    (h : s.FunctionsAre (FunctionDecl.IsSound T)) : s.HoldsSound T :=
  fun _ _ ref f closure _ hf => h ref.index f closure hf

/-- Whether a moment of a run is one of a well-formed program. -/
structure Moment.WellFormed (T : Token → Prop) (p : Moment) : Prop where
  task : ∀ t, p.act = .task t → t.WellFormed T
  binary : ∀ left operator right, p.act = .task (.expression (.binary left operator right)) →
    operator.kind ∈ binaryOperators
  logical : ∀ left operator right, p.act = .task (.expression (.logical left operator right)) →
    operator.kind = .andWord ∨ operator.kind = .orWord
  unary : ∀ operator operand, p.act = .task (.expression (.unary operator operand)) →
    operator.kind = .bang ∨ operator.kind = .minus
  called : ∀ f closure arguments paren,
    p.act = .task (.call (.function f closure) arguments paren) → f.IsSound T
  bound : p.machine.store.HoldsSound T

/-- A moment that well-formed runs allow is well formed. -/
theorem Moment.WellFormed.of_allows {T : Token → Prop} {p : Moment}
    (h : (wellFormedRuns T).Allows p) : p.WellFormed T where
  task := h.covers
  binary left operator right hp := (h.covers _ hp).1.2
  logical left operator right hp := by
    have hk : operator.kind ∈ logicalOperators := (h.covers _ hp).1.2
    simpa [logicalOperators] using hk
  unary operator operand hp := by
    have hk : operator.kind ∈ unaryOperators := (h.covers _ hp).1.2
    simpa [unaryOperators] using hk
  called f closure arguments paren hp := h.covers _ hp
  bound := h.invariant.holdsSound

namespace Machine

/-- The trees of any tokens are well formed, whether or not there are errors. So in every session
each moment is one of a well-formed program, no run ends for an operator that is not known, and the
functions that are left behind are well formed. -/
theorem only_wellFormed :
    (∀ tokens, Stmt.AllWellFormed (· ∈ tokens) (parse tokens).statements) ∧
    ∀ (fuel : Nat) (sink : Sink) (clock : Nat → Nat) (sources : List String),
      (∀ p ∈ sessionTrace fuel sources (initial sink clock), p.WellFormed (ScannedIn sources)) ∧
      ∀ r ∈ (initial sink clock).runAll fuel sources,
        r.2.store.HoldsSound (ScannedIn sources) ∧
        ∀ d ∈ r.1, ∀ e, d.runtimeError = some e → ∀ lexeme, e.fault ≠ .unknownOperator lexeme := by
  refine ⟨fun tokens => (parse_gathers fun _ ht => ht).1, fun fuel sink clock sources => ?_⟩
  obtain ⟨moments, ends⟩ := wellFormed_session fuel sink clock (List.Subset.refl sources)
  refine ⟨fun p hp => .of_allows (moments p hp), fun (ds, n) hr => ⟨(ends ds n hr).holdsSound, ?_⟩⟩
  intro d hd e he lexeme hunknown
  obtain ⟨i, hi⟩ := List.mem_iff_getElem?.mp hd
  obtain ⟨t, f, -, fits, rfl⟩ := blamed_runAll hr hi he
  exact Fault.not_fits_unknownOperator lexeme t (hunknown ▸ fits)

/-- A function is stored that adds what cannot be added, and the next text calls it. -/
theorem only_wellFormed_sum :
    let sources := ["var f = fun (a) \x7b return -a + nil; \x7d;", "true and f(1);"]
    ∃ h : ((initial .unlimited id).runAll 30 sources).isSome,
      (Option.get _ h).1.map (·.runtimeError) = [none, some ⟨.addends, 1⟩] ∧
      (Option.get _ h).2.store.HoldsSound (ScannedIn sources) ∧
      (∀ d ∈ (Option.get _ h).1, ∀ e, d.runtimeError = some e →
        ∀ lexeme, e.fault ≠ .unknownOperator lexeme) ∧
      sessionTrace 30 sources (initial .unlimited id) ≠ [] ∧
      ∀ p ∈ sessionTrace 30 sources (initial .unlimited id), p.WellFormed (ScannedIn sources) := by
  intro sources
  obtain ⟨moments, ends⟩ := only_wellFormed.2 30 .unlimited id sources
  have begun : 0 < (sessionTrace 30 sources (initial .unlimited id)).length := by decide +kernel
  refine ⟨by decide +kernel, by decide +kernel, ?_, ?_, List.ne_nil_of_length_pos begun, moments⟩
  · exact (ends _ (Option.get_mem _)).1
  · exact (ends _ (Option.get_mem _)).2

end Machine

end Lox
