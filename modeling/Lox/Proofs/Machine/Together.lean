import Lox.Proofs.Machine.Agreement

/-!
# Runs that stay in agreement

On machines that agree on what is in sight, one tree without callables as literals runs
to the same end, and the machines that it leaves behind agree again. What is hidden is
not looked at, nor is it changed.
-/

namespace Lox

/-- Two runs end together: with results that are related, or for the same reason, be it an error or
the fuel. The machines that they leave behind are related. -/
inductive Run.EndTogether (E : Machine → Machine → Prop) (Q : α → β → Prop) :
    EStateM.Result Halt Machine α → EStateM.Result Halt Machine β → Prop where
  | ok : Q a b → E m m' → Run.EndTogether E Q (.ok a m) (.ok b m')
  | error (e : Halt) : E m m' → Run.EndTogether E Q (.error e m) (.error e m')

/-- Two runs that end together, in agreement, on machines that agree. -/
def Run.Together (w : View) (Q : α → β → Prop) (x : Run α) (y : Run β) : Prop :=
  ∀ m m' : Machine, m.AgreeIn w m' → Run.EndTogether (Machine.AgreeIn w) Q (x m) (y m')

namespace Run.Together

variable {w : View}

section

variable {Q : α → β → Prop} {S : γ → δ → Prop} {x : Run α} {y : Run β}

/-- Results that agree are given together. -/
theorem pure {a : α} {b : β} (h : Q a b) : Run.Together w Q (Pure.pure a) (Pure.pure b) :=
  fun _ _ hm => .ok h hm

theorem bind {f : α → Run γ} {g : β → Run δ} (h : Run.Together w Q x y)
    (hf : ∀ a b, Q a b → Run.Together w S (f a) (g b)) :
    Run.Together w S (x >>= f) (y >>= g) := by
  intro m m' hm
  have first := h m m' hm
  simp only [Bind.bind, EStateM.bind]
  generalize x m = r at first
  generalize y m' = r' at first
  cases first with
  | ok ha hn => exact hf _ _ ha _ _ hn
  | error e hn => exact .error e hn

/-- What depends on the machine may depend on machines that agree. -/
theorem get_bind {f : Machine → Run γ} {g : Machine → Run δ}
    (h : ∀ m m', m.AgreeIn w m' → Run.Together w S (f m) (g m')) :
    Run.Together w S (get >>= f) (get >>= g) :=
  fun m m' hm => h m m' hm m m' hm

/-- A scope that is entered has to be in sight. -/
theorem withScope {scope : ScopeId} (hscope : w.scopes scope) (h : Run.Together w Q x y) :
    Run.Together w Q (withScope scope x) (withScope scope y) := by
  intro m m' hm
  have inside := h { m with current := scope } { m' with current := scope }
    ⟨hm.store, hscope, rfl, hm.depth, hm.sink, hm.clock, hm.readings⟩
  simp only [Lox.withScope]
  generalize x { m with current := scope } = r at inside
  generalize y { m' with current := scope } = r' at inside
  cases inside with
  | ok ha hn =>
    exact .ok ha ⟨hn.store, hm.inside, hm.current, hn.depth, hn.sink, hn.clock, hn.readings⟩
  | error e hn =>
    exact .error e ⟨hn.store, hm.inside, hm.current, hn.depth, hn.sink, hn.clock, hn.readings⟩

/-- Blocks are entered and left together. -/
theorem withBlockScope (h : Run.Together w Q x y) :
    Run.Together w Q (withBlockScope x) (withBlockScope y) := by
  intro m m' hm
  have hnew : w.scopes m.store.nextScope := hm.store.ahead _ (Nat.le_refl _)
  simp only [Lox.withBlockScope, hm.store.nextScope, hm.current]
  exact h.withScope hnew _ _
    ⟨hm.store.addScope hm.inside, hm.inside, rfl, hm.depth, hm.sink, hm.clock, hm.readings⟩

theorem withCall (h : Run.Together w Q x y) : Run.Together w Q (withCall x) (withCall y) := by
  intro m m' hm
  have inside := h { m with depth := m.depth + 1 } { m' with depth := m'.depth + 1 }
    ⟨hm.store, hm.inside, hm.current, by simp only [hm.depth], hm.sink, hm.clock, hm.readings⟩
  simp only [Lox.withCall]
  generalize x { m with depth := m.depth + 1 } = r at inside
  generalize y { m' with depth := m'.depth + 1 } = r' at inside
  cases inside with
  | ok ha hn =>
    exact .ok ha
      ⟨hn.store, hn.inside, hn.current, by simp only [hn.depth], hn.sink, hn.clock, hn.readings⟩
  | error e hn =>
    exact .error e
      ⟨hn.store, hn.inside, hn.current, by simp only [hn.depth], hn.sink, hn.clock, hn.readings⟩

theorem withCallScope (f : FunctionDecl) {closure : ScopeId} (hclosure : w.scopes closure)
    {arguments arguments' : List Value}
    (ha : List.Forall₂ (Value.Agrees w.Sees) arguments arguments') (h : Run.Together w Q x y) :
    Run.Together w Q (withCallScope f closure arguments x)
      (withCallScope f closure arguments' y) := by
  intro m m' hm
  have hnew : w.scopes m.store.nextScope := hm.store.ahead _ (Nat.le_refl _)
  have hstore := (hm.store.addScope hclosure).bindParameters hnew f.params ha
  simp only [Lox.withCallScope, hm.store.nextScope]
  exact (h.withScope hnew).withCall _ _
    ⟨hstore, hm.inside, hm.current, hm.depth, hm.sink, hm.clock, hm.readings⟩

end

/-- Faults are raised together. -/
theorem fault (f : Fault) (t : Token) {Q : α → β → Prop} :
    Run.Together w Q (fault f t) (fault f t) := fun _ _ hm => .error _ hm

/-- A result without callables is given together. -/
theorem ofExcept {result : Except RuntimeError Value} (h : ∀ v, result = .ok v → v.IsPlain) :
    Run.Together w (Value.Agrees w.Sees) (Run.ofExcept result) (Run.ofExcept result) := by
  intro m m' hm
  cases result with
  | ok value => exact .ok (.of_isPlain (h value rfl)) hm
  | error e => exact .error (.error e) hm

/-- A variable is read together, its values agreeing. -/
theorem readVariable (name : Token) :
    Run.Together w (Value.Agrees w.Sees) (readVariable name) (readVariable name) := by
  intro m m' hm
  have found := hm.store.lookup hm.inside name.lexeme
  simp only [Lox.readVariable, hm.current]
  generalize m.store.lookup m.current name.lexeme = v at found
  generalize m'.store.lookup m.current name.lexeme = v' at found
  cases found with
  | some hv => exact .ok hv hm
  | none => exact .error _ hm

/-- The values that are declared have to agree; they are declared in sight. -/
theorem declareVariable (name : Token) {v v' : Value} (hv : v.Agrees w.Sees v') :
    Run.Together w Eq (declareVariable name v) (declareVariable name v') := by
  intro m m' hm
  have bound := hm.store.isSome_binding? hm.inside name.lexeme
  simp only [Lox.declareVariable, Store.declare?, hm.current, bound]
  by_cases hb : (m.store.binding? m.current name.lexeme).isSome
  · rw [if_pos hb, if_pos hb]
    exact .error _ hm
  · rw [if_neg hb, if_neg hb]
    exact .ok rfl ⟨hm.store.define hm.inside _ hv, hm.inside, rfl, hm.depth, hm.sink, hm.clock,
      hm.readings⟩

/-- The scope that owns a name is in sight where the name is. -/
theorem assignVariable (name : Token) {v v' : Value} (hv : v.Agrees w.Sees v') :
    Run.Together w Eq (assignVariable name v) (assignVariable name v') := by
  intro m m' hm
  obtain ⟨same, inSight⟩ := hm.store.owner? hm.inside name.lexeme
  simp only [Lox.assignVariable, Store.assign?, hm.current, same]
  cases ho : m.store.owner? m.current name.lexeme with
  | some owner =>
    exact .ok rfl ⟨hm.store.define (inSight owner ho) _ hv, hm.inside, rfl, hm.depth, hm.sink,
      hm.clock, hm.readings⟩
  | none => exact .error _ hm

/-- A function is made together, and seen on both sides. -/
theorem makeFunction {f : FunctionDecl} (hf : f.LiteralsAre Value.IsPlain) :
    Run.Together w (Value.Agrees w.Sees) (makeFunction f) (makeFunction f) := by
  intro m m' hm
  simp only [Lox.makeFunction, hm.current]
  exact .ok (hm.store.nextRef _) ⟨hm.store.addFunction ⟨hf, hm.inside⟩, hm.inside, rfl, hm.depth,
    hm.sink, hm.clock, hm.readings⟩

/-- What is called is found together. -/
theorem callee (count : Nat) (paren : Token) {v v' : Value} (hv : v.Agrees w.Sees v') :
    Run.Together w (Callable.InStep Eq Value.IsPlain w.scopes) (callee v count paren)
      (callee v' count paren) := by
  intro m m' hm
  cases hv with
  | callable text hi =>
    obtain ⟨same, inStep⟩ := hm.store.callable? hi text
    simp only [Lox.callee, same]
    cases hc : m.store.callable? ⟨_, text⟩ with
    | none => exact .error _ hm
    | some c =>
      by_cases harity : count = c.arity
      · simp only [if_pos harity]
        exact .ok (inStep c hc) hm
      · simp only [if_neg harity]
        exact .error _ hm
  | _ => exact .error _ hm

/-- What is printed is the text of a value, which does not show where a callable is held. -/
theorem performAction (action : Action) (paren : Token) {arguments arguments' : List Value}
    (ha : List.Forall₂ (Value.Agrees w.Sees) arguments arguments') :
    Run.Together w (Value.Agrees w.Sees) (performAction action arguments paren)
      (performAction action arguments' paren) := by
  intro m m' hm
  cases action with
  | nothing => exact .ok .nil hm
  | clock =>
    simp only [Lox.performAction, hm.clock, hm.readings]
    exact .ok (.number _) ⟨hm.store, hm.inside, hm.current, hm.depth, hm.sink, rfl, rfl⟩
  | print =>
    have printed : m'.sink.printFirst arguments' = m.sink.printFirst arguments := by
      cases ha with
      | nil => simp only [Sink.printFirst, hm.sink]
      | cons hv _ => simp only [Sink.printFirst, hm.sink, hv.text]
    have same : Machine.AgreeIn w { m with sink := (m.sink.printFirst arguments).2 }
        { m' with sink := (m.sink.printFirst arguments).2 } :=
      ⟨hm.store, hm.inside, hm.current, hm.depth, rfl, hm.clock, hm.readings⟩
    simp only [Lox.performAction, printed]
    cases (m.sink.printFirst arguments).1 with
    | ok => exact .ok .nil same
    | error message => exact .error _ same

/-- Every step keeps machines in agreement, so runs do. -/
theorem lockstep (w : View) :
    Lockstep Eq (Value.Agrees w.Sees) Value.IsPlain w.scopes
      (fun Q x y => Run.Together w Q x y) where
  nil := .nil
  literal h := .of_isPlain h
  isTruthy h := h.isTruthy
  kind ht := by rw [ht]
  pure h := .pure h
  bind h hf := h.bind hf
  outOfFuel _ _ hm := .error _ hm
  binary ht ha hb := by
    subst ht
    rw [Operator.binary_agrees w.sees_unique _ ha hb]
    exact ofExcept fun _ h => Operator.isPlain_binary h
  unary ht ha := by
    subst ht
    rw [Operator.unary_agrees _ ha]
    exact ofExcept fun _ h => Operator.isPlain_unary h
  readVariable ht := by
    subst ht
    exact readVariable _
  declareVariable ht hv := by
    subst ht
    exact declareVariable _ hv
  assignVariable ht hv := by
    subst ht
    exact assignVariable _ hv
  makeFunction hf hl := by
    obtain rfl := FunctionDecl.eq_of_alike _ _ hf
    exact makeFunction hl
  callee count hv hp := by
    subst hp
    exact callee count _ hv
  performAction action has hp := by
    subst hp
    exact performAction action _ has
  withBlockScope h := withBlockScope h
  enter {f f' closure as as' p p' x y} hf hclosure has hp h := by
    obtain rfl := FunctionDecl.eq_of_alike _ _ hf
    subst hp
    have inside := withCallScope f hclosure has h
    refine get_bind fun m m' hm => ?_
    rw [hm.depth]
    by_cases hdepth : maxDepth ≤ m.depth
    · rw [if_pos hdepth, if_pos hdepth]
      exact fault _ p
    · rw [if_neg hdepth, if_neg hdepth]
      exact inside.bind fun _ _ hflow => pure (hflow.result .nil)

end Run.Together

end Lox
