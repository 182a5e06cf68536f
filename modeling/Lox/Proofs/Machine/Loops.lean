import Lox.Proofs.Grammar.Loops
import Lox.Proofs.Machine.Endings
import Lox.Proofs.Machine.Jumps
import Lox.Proofs.Machine.Naming

/-!
# What a loop with three clauses does

The meaning of such a loop, told by its parts: a test before each turn, the increment
after each body that ends normally, and scopes for the loop and for a turn. The tree that
stands for the loop ends as this meaning has it, on every machine, and leaves no new name
behind.
-/

namespace Lox

namespace ForLoop

/-! ### The meaning of a loop -/

/-- The test before a turn. Without a condition it always holds. -/
inductive Test (loop : ForLoop) (m : Machine) : Outcome Value → Prop where
  | absent : loop.condition = none → Test loop m (.ok (.bool true) m)
  | present : loop.condition = some e → (Task.expression e).Ends m o → Test loop m o

/-- A body and, if it ends normally, an increment. A jump passes the increment by. -/
inductive BodyThen (loop : ForLoop) (e : Expr) (m : Machine) : Outcome Flow → Prop where
  | bodyFails : (Task.statement loop.body).Ends m (.error halt n) →
      BodyThen loop e m (.error halt n)
  | jumps : (Task.statement loop.body).Ends m (.ok flow n) → flow ≠ .normal →
      BodyThen loop e m (.ok flow n)
  | incremented : (Task.statement loop.body).Ends m (.ok .normal n) →
      (Task.expression e).Ends n (.ok value k) → BodyThen loop e m (.ok .normal k)
  | incrementFails : (Task.statement loop.body).Ends m (.ok .normal n) →
      (Task.expression e).Ends n (.error halt k) → BodyThen loop e m (.error halt k)

/-- One turn: the body and the increment in a scope of their own, or the body alone. -/
inductive Turn (loop : ForLoop) (m : Machine) : Outcome Flow → Prop where
  | body : loop.increment = none → (Task.statement loop.body).Ends m o → Turn loop m o
  | increment : loop.increment = some e → loop.BodyThen e (Place.block.entered m) o →
      Turn loop m (o.onMachine (Place.block.left m))

/-- Tests and turns, until a test does not hold or a turn leaves the loop. -/
inductive Turns (loop : ForLoop) : Machine → Outcome Flow → Prop where
  | testFails : loop.Test m (.error halt n) → Turns loop m (.error halt n)
  | finished : loop.Test m (.ok value n) → value.isTruthy = false → Turns loop m (.ok .normal n)
  | turnFails : loop.Test m (.ok value n) → value.isTruthy = true →
      loop.Turn n (.error halt k) → Turns loop m (.error halt k)
  | broken : loop.Test m (.ok value n) → value.isTruthy = true → loop.Turn n (.ok .break k) →
      Turns loop m (.ok .normal k)
  | returned : loop.Test m (.ok value n) → value.isTruthy = true →
      loop.Turn n (.ok (.return result) k) → Turns loop m (.ok (.return result) k)
  | again : loop.Test m (.ok value n) → value.isTruthy = true → loop.Turn n (.ok flow k) →
      flow = .normal ∨ flow = .continue → Turns loop k o → Turns loop m o

/-- The whole loop. An initializer is run once, in a scope around all of the turns. -/
inductive Runs (loop : ForLoop) (m : Machine) : Outcome Flow → Prop where
  | plain : loop.initializer = none → loop.Turns m o → Runs loop m o
  | initializerFails : loop.initializer = some s →
      (Task.statement s).Ends (Place.block.entered m) (.error halt n) →
      Runs loop m (.error halt (Place.block.left m n))
  | initialized : loop.initializer = some s →
      (Task.statement s).Ends (Place.block.entered m) (.ok .normal n) → loop.Turns n o →
      Runs loop m (o.onMachine (Place.block.left m))

/-! ### The tree of a loop -/

/-- The condition in the tree. -/
def test (loop : ForLoop) : Expr := loop.condition.getD (.literal (.bool true))

/-- The body in the tree. -/
def turn (loop : ForLoop) : Stmt :=
  match loop.increment with
  | some e => .block [loop.body, .expression e]
  | none => loop.body

/-- The tree of a loop is a `while`, in a block with its first clause if there is one. -/
theorem tree_eq (loop : ForLoop) :
    loop.tree =
      match loop.initializer with
      | some s => .block [s, .while loop.test loop.turn]
      | none => .while loop.test loop.turn := rfl

variable {loop : ForLoop} {m : Machine} {o : Outcome Flow}

theorem ends_test {o : Outcome Value} :
    (Task.expression loop.test).Ends m o ↔ loop.Test m o := by
  unfold test
  cases hc : loop.condition with
  | none =>
    rw [Option.getD_none, Task.ends_iff]
    constructor
    · intro h
      cases Script.ends_done.mp h
      exact .absent hc
    · intro h
      cases h with
      | absent => exact Script.ends_done.mpr rfl
      | present hsome => simp [hc] at hsome
  | some e =>
    rw [Option.getD_some]
    constructor
    · exact .present hc
    · intro h
      cases h with
      | absent hnone => simp [hc] at hnone
      | present hsome h =>
        cases hc.symm.trans hsome
        exact h

/-- A body and an expression after it end as the loop says. -/
theorem ends_bodyThen {e : Expr} :
    (Task.statements [loop.body, .expression e]).Ends m o ↔ loop.BodyThen e m o := by
  simp only [Task.ends_cons (s := loop.body)]
  constructor
  · rintro ⟨p, hbody, after⟩
    cases p with
    | error halt n =>
      cases after
      exact .bodyFails hbody
    | ok flow n =>
      cases flow with
      | normal =>
        obtain ⟨q, hq, rest⟩ := Task.ends_expression.mp (Task.ends_singleton.mp after)
        cases q with
        | error halt k =>
          cases rest
          exact .incrementFails hbody hq
        | ok value k =>
          cases rest
          exact .incremented hbody hq
      | _ =>
        cases after
        exact .jumps hbody (by simp)
  · intro h
    cases h with
    | bodyFails hbody => exact ⟨_, hbody, rfl⟩
    | @jumps flow n hbody hflow =>
      refine ⟨_, hbody, ?_⟩
      cases flow with
      | normal => exact absurd rfl hflow
      | _ => rfl
    | incremented hbody hq | incrementFails hbody hq =>
      exact ⟨_, hbody, Task.ends_singleton.mpr (Task.ends_expression.mpr ⟨_, hq, rfl⟩)⟩

/-- The body of the tree ends as a turn of the loop. -/
theorem ends_turn : (Task.statement loop.turn).Ends m o ↔ loop.Turn m o := by
  unfold turn
  cases hi : loop.increment with
  | none =>
    constructor
    · exact .body hi
    · intro h
      cases h with
      | body _ h => exact h
      | increment hsome => simp [hi] at hsome
  | some e =>
    rw [Task.ends_block]
    constructor
    · rintro ⟨p, h, rfl⟩
      exact .increment hi (ends_bodyThen.mp h)
    · intro h
      cases h with
      | body hnone => simp [hi] at hnone
      | increment hsome h =>
        cases hi.symm.trans hsome
        exact ⟨_, ends_bodyThen.mpr h, rfl⟩

/-- A turn of the tree and the tree again are turns of the loop. -/
theorem turns_of_loopTurn (h : Task.LoopTurn loop.test loop.turn loop.Turns m o) :
    loop.Turns m o := by
  obtain ⟨p, htest, after⟩ := h
  rw [ends_test] at htest
  cases p with
  | error halt n =>
    cases after
    exact .testFails htest
  | ok value n =>
    rw [Outcome.leads_ok] at after
    by_cases truthy : value.isTruthy
    · rw [if_pos truthy] at after
      obtain ⟨q, hturn, after⟩ := after
      rw [ends_turn] at hturn
      cases q with
      | error halt k =>
        cases after
        exact .turnFails htest truthy hturn
      | ok flow k =>
        cases flow with
        | normal => exact .again htest truthy hturn (.inl rfl) after
        | «continue» => exact .again htest truthy hturn (.inr rfl) after
        | «break» =>
          cases after
          exact .broken htest truthy hturn
        | «return» result =>
          cases after
          exact .returned htest truthy hturn
    · rw [if_neg truthy] at after
      cases after
      exact .finished htest (Bool.eq_false_iff.mpr truthy)

/-- If the test is true, a turn and the loop again are a turn of the tree. -/
theorem loopTurn_of_truthy {again : Machine → Outcome Flow → Prop} {value : Value} {n : Machine}
    {q : Outcome Flow} (htest : loop.Test m (.ok value n)) (truthy : value.isTruthy = true)
    (hturn : loop.Turn n q) (after : q.Leads (Task.AfterTurn again) o) :
    Task.LoopTurn loop.test loop.turn again m o := by
  refine ⟨.ok value n, ends_test.mpr htest, ?_⟩
  rw [Outcome.leads_ok, if_pos truthy]
  exact ⟨q, ends_turn.mpr hturn, after⟩

/-- The turns in the tree are those of the loop. -/
theorem ends_turns : (Task.loop loop.test loop.turn).Ends m o ↔ loop.Turns m o := by
  constructor
  · exact Task.loop_induction fun _ _ => turns_of_loopTurn
  · intro h
    induction h with
    | testFails htest => exact Task.ends_loop.mpr ⟨_, ends_test.mpr htest, rfl⟩
    | finished htest falsy =>
      refine Task.ends_loop.mpr ⟨_, ends_test.mpr htest, ?_⟩
      simp only [Outcome.leads_ok, falsy, Bool.false_eq_true, if_false]
    | turnFails htest truthy hturn | broken htest truthy hturn | returned htest truthy hturn =>
      exact Task.ends_loop.mpr (loopTurn_of_truthy htest truthy hturn rfl)
    | again htest truthy hturn hflow _ ih =>
      rcases hflow with rfl | rfl
      · exact Task.ends_loop.mpr (loopTurn_of_truthy htest truthy hturn ih)
      · exact Task.ends_loop.mpr (loopTurn_of_truthy htest truthy hturn ih)

/-- The tree of a loop ends as the loop does, if its initializer ends with no jump. -/
theorem ends_tree
    (normally : ∀ s ∈ loop.initializer, ∀ m flow n, (Task.statement s).Ends m (.ok flow n) →
      flow = .normal) :
    (Task.statement loop.tree).Ends m o ↔ loop.Runs m o := by
  rw [tree_eq]
  cases hs : loop.initializer with
  | none =>
    simp only [Task.ends_while, ends_turns]
    constructor
    · exact .plain hs
    · intro h
      cases h with
      | plain _ h => exact h
      | initializerFails hsome | initialized hsome => simp [hs] at hsome
  | some s =>
    simp only [Task.ends_block, Task.ends_cons (s := s)]
    constructor
    · rintro ⟨_, ⟨p, hfirst, after⟩, rfl⟩
      cases p with
      | error halt n =>
        cases after
        exact .initializerFails hs hfirst
      | ok flow n =>
        cases normally s hs _ _ _ hfirst
        have turns := ends_turns.mp (Task.ends_while.mp (Task.ends_singleton.mp after))
        exact .initialized hs hfirst turns
    · intro h
      cases h with
      | plain hnone => simp [hs] at hnone
      | initializerFails hsome hfirst =>
        cases hs.symm.trans hsome
        exact ⟨_, ⟨_, hfirst, rfl⟩, rfl⟩
      | initialized hsome hfirst turns =>
        cases hs.symm.trans hsome
        have after := Task.ends_singleton.mpr (Task.ends_while.mpr (ends_turns.mpr turns))
        exact ⟨_, ⟨_, hfirst, after⟩, rfl⟩

/-! ### Loops in source texts -/

/-- An initializer is a variable or an expression, and neither of them jumps. -/
theorem WrittenAs.normally {c : Grammar.Context} {ts : List Token} (h : loop.WrittenAs c ts) :
    ∀ s ∈ loop.initializer, ∀ m flow n, (Task.statement s).Ends m (.ok flow n) →
      flow = .normal := by
  rintro s hs m flow n ⟨fuel, hrun, -⟩
  have jump : flow.From fun loops jump => jump.ExposedIn loops s := from_of_execute hrun
  obtain ⟨_, _, hfirst, _⟩ := h
  rw [hs] at hfirst
  cases hfirst with
  | var _ hvar =>
    cases hvar with
    | plain | initialized =>
      cases flow with
      | normal => rfl
      | «break» | «continue» => cases jump
      | «return» => cases jump.choose_spec
  | expression =>
    cases flow with
    | normal => rfl
    | «break» | «continue» => cases jump
    | «return» => cases jump.choose_spec

/-- What the clauses declare, the tree declares in scopes of its own. -/
theorem tree_declaresNothing (loop : ForLoop) (h : loop.body.DeclaresNothing) :
    loop.tree.DeclaresNothing := by
  rw [tree_eq]
  cases loop.initializer with
  | some s => trivial
  | none =>
    show loop.turn.DeclaresNothing
    unfold turn
    cases loop.increment with
    | some e => trivial
    | none => exact h

end ForLoop

namespace Grammar

/-- A statement that is no declaration declares nothing in the scope that it is run in. -/
theorem DerivesStmt.declaresNothing {c : Context} {dangling : Bool} {ts : List Token} {s : Stmt}
    {errs : List SyntaxError} (h : DerivesStmt c dangling ts s errs) : s.DeclaresNothing :=
  match h with
  | .expression _ _ | .block _ _ _ | .break _ _ | .continue _ _ | .return _ _ _ => trivial
  | .ifThen _ _ _ _ hthen => hthen.declaresNothing
  | .ifElse _ _ _ _ hthen _ helse => ⟨hthen.declaresNothing, helse.declaresNothing⟩
  | .while _ _ _ _ hbody => hbody.declaresNothing
  | .for _ _ _ _ _ _ _ hbody => ForLoop.tree_declaresNothing ⟨_, _, _, _⟩ hbody.declaresNothing

end Grammar

/-- Whether a statement does what a loop with three clauses does, on every machine, and leaves the
scope behind in which it was run. -/
structure Stmt.DoesLoop (s : Stmt) (loop : ForLoop) : Prop where
  /-- It ends as the loop does, and if the loop comes to no end, nor does it. -/
  ends : ∀ m o, (Task.statement s).Ends m o ↔ loop.Runs m o
  current : ∀ m o, (Task.statement s).Ends m o → o.machine.current = m.current
  /-- The scope binds the names that it bound before, and no others. -/
  names : ∀ m o, (Task.statement s).Ends m o → m.current < m.store.nextScope →
    ∀ name, (o.machine.store.binding? m.current name).isSome =
      (m.store.binding? m.current name).isSome

/-- The tree of a loop that is written down does what the loop does. -/
theorem ForLoop.WrittenAs.doesLoop {loop : ForLoop} {c : Grammar.Context} {ts : List Token}
    (h : loop.WrittenAs c ts) : loop.tree.DoesLoop loop where
  ends m o := ends_tree h.normally
  current := by
    rintro m _ ⟨fuel, rfl, -⟩
    exact ((Task.statement loop.tree).sameFrame_run fuel m).current
  names := by
    rintro m _ ⟨fuel, rfl, -⟩ hcurrent name
    have frame := (Task.statement loop.tree).sameFrame_run fuel m
    have quiet : (Task.statement loop.tree).DeclaresNothing := by
      obtain ⟨_, _, _, _, _, _, _, hbody⟩ := h
      exact tree_declaresNothing loop hbody.declaresNothing
    have gains : Store.GainsNoName m.current m.store
        (Outcome.machine ((Task.statement loop.tree).run fuel m)).store :=
      Task.gainsNoName_run hcurrent fun _ => quiet
    exact Bool.eq_iff_iff.mpr ⟨gains name, frame.scopes.binding?⟩

/-- What is read as a statement without an error, with the word `for` ahead, is the tree of a loop
whose clauses and body are written there, and does what that loop does: on every machine it comes to
the same end, if to any, and leaves the scope as it was in which it was run. -/
theorem for_statement_doesLoop {depth : Nat} {s t : Grammar.State} {tree : Stmt}
    (read : Grammar.statement (.within depth) s = .ok tree t) (clean : t.errors = s.errors)
    (ahead : s.isAt .forWord) :
    ∃ (ts : List Token) (loop : ForLoop), s.rest = ts ++ t.rest ∧ loop.WrittenAs s.context ts ∧
      tree = loop.tree ∧ tree.DoesLoop loop := by
  obtain ⟨ts, loop, hrest, written, rfl⟩ := Grammar.statement_forLoop read clean ahead
  exact ⟨ts, loop, hrest, written, rfl, written.doesLoop⟩

/-- A loop with all its clauses and a `continue` in its body. -/
theorem for_statement_doesLoop_continue :
    let s := Grammar.State.ofTokens (Source.scan
      "for (var i = 0; i < 3; i = i + 1) \x7b if (i == 1) continue; print(i); \x7d").tokens
    ∃ tree t, Grammar.statement (.within 60) s = .ok tree t ∧ t.errors = s.errors ∧
      s.isAt .forWord ∧
      ∃ (ts : List Token) (loop : ForLoop), s.rest = ts ++ t.rest ∧ loop.WrittenAs s.context ts ∧
        tree = loop.tree ∧ tree.DoesLoop loop := by
  intro s
  have ahead : s.isAt .forWord := by decide +kernel
  have fine : (match Grammar.statement (.within 60) s with
      | .ok _ t => t.errors.isEmpty
      | .error _ _ => false) = true := by decide +kernel
  cases read : Grammar.statement (.within 60) s with
  | error e t =>
    rw [read] at fine
    contradiction
  | ok tree t =>
    rw [read] at fine
    have clean : t.errors = s.errors := Array.isEmpty_iff.mp fine
    exact ⟨tree, t, rfl, clean, ahead, for_statement_doesLoop read clean ahead⟩

end Lox
