import Lox.Proofs.Machine.Holding

/-!
# Values on their way

A value that is stored is read back as it is; so is one that is passed as an argument, in
the scope of the call, and what a call gives is what the body of the function has returned.
No step changes a binding but to the value that it stores, and to enter a call changes
none that there was, so a function finds in its closure what has been put there.
-/

namespace Lox

namespace Store

variable {s : Store} {scope : ScopeId} {params : List Token} {arguments : List Value}

/-- To bind parameters changes nothing in other scopes. -/
theorem binding?_bindParameters_of_ne {id : ScopeId} (h : scope ≠ id) (x : String) :
    (bindParameters scope params arguments s).binding? id x = s.binding? id x := by
  induction params generalizing arguments s with
  | nil => rfl
  | cons param params ih =>
    cases arguments with
    | nil => rfl
    | cons argument arguments =>
      rw [bindParameters, ih, binding?_define, if_neg fun hit => h hit.1]

/-- A name that is no parameter is bound as before. -/
theorem binding?_bindParameters_of_not_mem {x : String} (h : ∀ param ∈ params, param.lexeme ≠ x) :
    (bindParameters scope params arguments s).binding? scope x = s.binding? scope x := by
  induction params generalizing arguments s with
  | nil => rfl
  | cons param params ih =>
    obtain ⟨hparam, hparams⟩ := List.forall_mem_cons.mp h
    cases arguments with
    | nil => rfl
    | cons argument arguments =>
      rw [bindParameters, ih hparams, binding?_define, if_neg fun hit => hparam hit.2.1]

/-- A parameter is bound to its argument, if no later one has its name. -/
theorem binding?_bindParameters_self (hscope : scope < s.nextScope) {i : Nat} {param : Token}
    {v : Value} (hparam : params[i]? = some param) (hv : arguments[i]? = some v)
    (last : ∀ later ∈ params.drop (i + 1), later.lexeme ≠ param.lexeme) :
    (bindParameters scope params arguments s).binding? scope param.lexeme = some v := by
  induction params generalizing arguments s i with
  | nil => contradiction
  | cons first params ih =>
    cases arguments with
    | nil => contradiction
    | cons argument arguments =>
      cases i with
      | zero =>
        cases hparam
        cases hv
        have others : ∀ later ∈ params, later.lexeme ≠ param.lexeme := last
        rw [bindParameters, binding?_bindParameters_of_not_mem others, binding?_define_self hscope]
      | succ i =>
        refine ih ?_ hparam hv last
        rwa [nextScope_define]

/-- What a scope binds itself is seen from it. -/
theorem lookup_of_binding? {x : String} {v : Value} (h : s.binding? scope x = some v) :
    s.lookup scope x = some v := by
  rw [lookup, owner?_eq, if_pos (by rw [h, Option.isSome_some]), Option.bind_some, h]

end Store

open Store

/-- What becomes of values at a moment: they are handed on unchanged. -/
structure Moment.HandsOn (p : Moment) : Prop where
  declared : ∀ name v n, p.act = .step (.declareVariable name v) →
    declareVariable name v p.machine = .ok () n → readVariable name n = .ok v n
  assigned : ∀ name v n, p.act = .step (.assignVariable name v) →
    assignVariable name v p.machine = .ok () n → readVariable name n = .ok v n
  /-- A step changes no binding but to the value that it stores. -/
  kept : ∀ s, p.act = .step s → ∀ scope x,
    (Outcome.machine (s.run p.machine)).store.binding? scope x =
        p.machine.store.binding? scope x ∨
      ∃ v, s.stores? = some (x, v) ∧
        (Outcome.machine (s.run p.machine)).store.binding? scope x = some v
  /-- A parameter is bound to its argument, if no later one has its name. -/
  passed : ∀ f closure arguments paren,
    p.act = .task (.call (.function f closure) arguments paren) →
    ∀ (i : Nat) param v, f.params[i]? = some param → arguments[i]? = some v →
      (∀ later ∈ f.params.drop (i + 1), later.lexeme ≠ param.lexeme) →
      readVariable param ((Place.call f closure arguments).entered p.machine) =
        .ok v ((Place.call f closure arguments).entered p.machine)
  /-- To enter a call changes no binding that there was. -/
  captured : ∀ f closure arguments paren,
    p.act = .task (.call (.function f closure) arguments paren) →
    ∀ scope < p.machine.store.nextScope, ∀ x,
      ((Place.call f closure arguments).entered p.machine).store.binding? scope x =
        p.machine.store.binding? scope x
  returned : ∀ e, p.act = .task (.statement (.return (some e))) → ∀ fuel flow n,
    execute fuel (.return (some e)) p.machine = .ok flow n →
      ∃ less v, evaluate less e p.machine = .ok v n ∧ flow = .return v
  /-- A call gives what the body of the function has returned. -/
  given : ∀ f closure arguments paren, p.act = .task (.call (.function f closure) arguments paren) →
    ∀ fuel v n, call fuel (.function f closure) arguments paren p.machine = .ok v n →
      ∃ less flow k, v = flow.result ∧
        executeAll less f.body ((Place.call f closure arguments).entered p.machine) = .ok flow k

section

variable {m n : Machine} {name : Token} {v : Value}

/-- A variable is read with the value that is looked up. -/
theorem readVariable_of_lookup (h : n.store.lookup n.current name.lexeme = some v) :
    readVariable name n = .ok v n := by
  simp only [readVariable, h]

/-- A variable that has just been declared is read with its value. -/
theorem readVariable_declared (hm : m.current < m.store.nextScope)
    (h : declareVariable name v m = .ok () n) : readVariable name n = .ok v n := by
  simp only [declareVariable] at h
  split at h
  · next t ht =>
    cases h
    obtain ⟨-, rfl⟩ := exists_define_of_declare? ht
    exact readVariable_of_lookup
      (lookup_define_of_reachesFirst hm v (reachesFirst_iff.mpr (.inl rfl)))
  · contradiction

/-- A variable that has just been assigned to is read with the value assigned. -/
theorem readVariable_assigned (h : assignVariable name v m = .ok () n) :
    readVariable name n = .ok v n := by
  simp only [assignVariable] at h
  split at h
  · next t ht =>
    cases h
    exact readVariable_of_lookup ((lookup_assign? ht _ _).trans (if_pos ⟨rfl, rfl⟩))
  · contradiction

variable {f : FunctionDecl} {closure : ScopeId} {arguments : List Value}

/-- A parameter is read with its argument, the last one of the name if there are several. -/
theorem readVariable_passed {i : Nat} {param : Token} (hparam : f.params[i]? = some param)
    (hv : arguments[i]? = some v)
    (last : ∀ later ∈ f.params.drop (i + 1), later.lexeme ≠ param.lexeme) :
    readVariable param ((Place.call f closure arguments).entered m) =
      .ok v ((Place.call f closure arguments).entered m) := by
  have scope : m.store.nextScope < (m.store.addScope (some closure)).nextScope := by
    rw [nextScope_addScope]
    exact Nat.lt_succ_self _
  exact readVariable_of_lookup
    (lookup_of_binding? (binding?_bindParameters_self scope hparam hv last))

/-- A call that gives a value has ended the body of its function. -/
theorem call_eq_ok {fuel : Nat} {paren : Token}
    (h : call fuel (.function f closure) arguments paren m = .ok v n) :
    ∃ less flow k, v = flow.result ∧
      executeAll less f.body ((Place.call f closure arguments).entered m) = .ok flow k := by
  have h : (Task.call (.function f closure) arguments paren).run fuel m = .ok v n := h
  cases fuel with
  | zero =>
    rw [Task.run_zero] at h
    contradiction
  | succ fuel =>
    rw [Task.run_succ] at h
    simp only [Task.script, Script.ofCall, Script.run_step, Step.run_enter] at h
    split at h
    · contradiction
    · simp only [Outcome.andThen, Script.run_part] at h
      cases hr : (Task.statements f.body).run fuel ((Place.call f closure arguments).entered m) with
      | error e k =>
        rw [hr] at h
        contradiction
      | ok flow k =>
        rw [hr] at h
        cases h
        exact ⟨fuel, flow, k, rfl, hr⟩

/-- A return that ends has evaluated its expression. -/
theorem return_eq_ok {fuel : Nat} {e : Expr} {flow : Flow}
    (h : execute fuel (.return (some e)) m = .ok flow n) :
    ∃ less v, evaluate less e m = .ok v n ∧ flow = .return v := by
  have h : (Task.statement (.return (some e))).run fuel m = .ok flow n := h
  cases fuel with
  | zero =>
    rw [Task.run_zero] at h
    contradiction
  | succ fuel =>
    rw [Task.run_succ] at h
    simp only [Task.script, Script.ofStatement, Script.run_part] at h
    cases hr : (Task.expression e).run fuel m with
    | error e k =>
      simp only [Place.entered, hr] at h
      contradiction
    | ok v k =>
      simp only [Place.entered, hr] at h
      cases h
      exact ⟨fuel, v, hr, rfl⟩

end

/-- At every moment values are handed on unchanged. -/
theorem Moment.Known.handsOn {p : Moment} (h : p.Known) : p.HandsOn where
  declared _ _ _ _ hrun := readVariable_declared h.machine.current hrun
  assigned _ _ _ _ hrun := readVariable_assigned hrun
  kept s _ scope x := s.binding?_run p.machine scope x
  passed _ _ _ _ _ _ _ _ hparam hv last := readVariable_passed hparam hv last
  captured _ closure _ _ _ scope hscope x :=
    (binding?_bindParameters_of_ne (Nat.ne_of_gt hscope) x).trans
      (binding?_addScope p.machine.store (some closure) scope x)
  returned _ _ _ _ _ hrun := return_eq_ok hrun
  given _ _ _ _ _ _ _ _ hrun := call_eq_ok hrun

end Lox
