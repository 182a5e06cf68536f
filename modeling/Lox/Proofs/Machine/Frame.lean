import Lox.Machine.Session
import Lox.Proofs.Machine.Induction
import Lox.Proofs.Store.Scopes

/-!
# What a run leaves as it was

However a statement or an expression ends, the scope that was current is current again
and as many calls are in progress as before. Scopes are never taken away: each keeps the
scope around it and every name it binds. So after any number of programs the global
scope is current, no call is in progress, and no global name is lost.
-/

namespace Lox

namespace Store

/-- The scopes of one store are still in another: each has the same scope around it, and binds every
name that it bound. -/
def ScopesPersist (s t : Store) : Prop :=
  ∀ (id : ScopeId) (scope : Scope), s.scopes[id]? = some scope →
    ∃ later, t.scopes[id]? = some later ∧ later.parent = scope.parent ∧
      ∀ name : String, scope.bindings[name]?.isSome → later.bindings[name]?.isSome

namespace ScopesPersist

theorem refl (s : Store) : s.ScopesPersist s :=
  fun _ scope h => ⟨scope, h, rfl, fun _ hn => hn⟩

theorem trans {s t u : Store} (h : s.ScopesPersist t) (h' : t.ScopesPersist u) :
    s.ScopesPersist u := by
  intro id scope hs
  obtain ⟨middle, ht, hp, hb⟩ := h id scope hs
  obtain ⟨later, hu, hp', hb'⟩ := h' id middle ht
  exact ⟨later, hu, hp'.trans hp, fun name hn => hb' name (hb name hn)⟩

/-- A name that a scope binds stays bound there. -/
theorem binding? {s t : Store} (h : s.ScopesPersist t) {id : ScopeId} {name : String}
    (hb : (s.binding? id name).isSome) : (t.binding? id name).isSome := by
  obtain ⟨value, hv⟩ := Option.isSome_iff_exists.mp hb
  obtain ⟨scope, hs, hn⟩ := Option.bind_eq_some_iff.mp hv
  obtain ⟨later, ht, _, hl⟩ := h id scope hs
  have hsome := hl name (by rw [hn]; rfl)
  simpa only [Store.binding?, ht, Option.bind_some] using hsome

end ScopesPersist

/-- A new scope changes no other. -/
theorem scopesPersist_addScope (s : Store) (parent : Option ScopeId) :
    s.ScopesPersist (s.addScope parent) := by
  intro id scope hs
  have hlt := (Array.getElem?_eq_some_iff.mp hs).1
  exact ⟨scope, (scopes_addScope_of_lt s parent hlt).trans hs, rfl, fun _ hn => hn⟩

/-- A new callable changes no scope. -/
theorem scopesPersist_addCallable (s : Store) (callable : Callable) :
    s.ScopesPersist (s.addCallable callable) :=
  ScopesPersist.refl s

/-- Binding a name takes no other name away, in its scope or elsewhere. -/
theorem scopesPersist_define (s : Store) (scope : ScopeId) (name : String) (value : Value) :
    s.ScopesPersist (s.define scope name value) := by
  intro id old hs
  by_cases hid : scope = id
  · refine ⟨{ old with bindings := old.bindings.insert name value }, ?_, rfl, ?_⟩
    · rw [define, Array.getElem?_modify, if_pos hid, hs, Option.map_some]
    · intro other hn
      simp only [Std.TreeMap.getElem?_insert]
      split
      · rfl
      · exact hn
  · exact ⟨old, (scopes_define_of_ne s hid name value).trans hs, rfl, fun _ hn => hn⟩

theorem scopesPersist_bindParameters (scope : ScopeId) (params : List Token)
    (arguments : List Value) (s : Store) :
    s.ScopesPersist (bindParameters scope params arguments s) := by
  induction params generalizing arguments s with
  | nil => exact .refl s
  | cons param params ih =>
    cases arguments with
    | nil => exact .refl s
    | cons argument arguments => exact (s.scopesPersist_define scope _ _).trans (ih arguments _)

/-- What the global scope binds is found in it: no scope is around it. -/
theorem lookup_globalScope (s : Store) (name : String) :
    s.lookup Machine.globalScope name = s.binding? Machine.globalScope name := by
  have hp : s.parent? Machine.globalScope = none := by
    cases h : s.parent? Machine.globalScope with
    | none => rfl
    | some parent => exact absurd (parent?_lt h) (Nat.not_lt_zero parent)
  rw [lookup, owner?]
  split
  · rfl
  · next hb =>
    split
    · next h => rw [hp] at h; contradiction
    · rw [Option.not_isSome_iff_eq_none.mp hb]; rfl

end Store

/-- What is the same before and after a run: the current scope, the number of calls in progress, and
the scopes there were, each with the scope around it and the names it binds. -/
structure Machine.SameFrame (m n : Machine) : Prop where
  current : n.current = m.current
  depth : n.depth = m.depth
  scopes : m.store.ScopesPersist n.store

namespace Machine.SameFrame

/-- A machine has its own frame. -/
theorem refl (m : Machine) : m.SameFrame m := ⟨rfl, rfl, .refl _⟩

theorem trans {m n o : Machine} (h : m.SameFrame n) (h' : n.SameFrame o) : m.SameFrame o :=
  ⟨h'.current.trans h.current, h'.depth.trans h.depth, h.scopes.trans h'.scopes⟩

/-- A change of the store that takes no scope and no name away. -/
theorem ofStore (m : Machine) {s : Store} (h : m.store.ScopesPersist s) :
    m.SameFrame { m with store := s } := ⟨rfl, rfl, h⟩

/-- A global name is still bound. -/
theorem global? {m n : Machine} (h : m.SameFrame n) {name : String}
    (hb : (m.global? name).isSome) : (n.global? name).isSome := by
  rw [Machine.global?, Store.lookup_globalScope] at hb ⊢
  exact h.scopes.binding? hb

end Machine.SameFrame

/-- The machine that a run leaves behind, with a result or without one. -/
def Run.after (x : Run α) (m : Machine) : Machine :=
  match x m with
  | .ok _ n => n
  | .error _ n => n

/-- A run that restores the frame of every machine, however it ends. -/
def Run.RestoresFrame (x : Run α) : Prop := ∀ m : Machine, m.SameFrame (x.after m)

namespace Run.RestoresFrame

/-- In a row the frame is restored if each run restores it. -/
theorem bind {x : Run α} {f : α → Run β} (hx : x.RestoresFrame)
    (hf : ∀ a, (f a).RestoresFrame) : (x >>= f).RestoresFrame := by
  intro m
  have h := hx m
  simp only [after, Bind.bind, EStateM.bind] at h ⊢
  cases hr : x m with
  | error e n => simpa only [hr] using h
  | ok a n =>
    rw [hr] at h
    exact h.trans (hf a n)

private theorem ofExcept (result : Except RuntimeError α) :
    (Run.ofExcept result).RestoresFrame := by
  intro m
  cases result <;> exact .refl m

private theorem readVariable (name : Token) : (readVariable name).RestoresFrame := by
  intro m
  simp only [after, Lox.readVariable]
  cases m.store.lookup m.current name.lexeme <;> exact .refl m

private theorem declareVariable (name : Token) (value : Value) :
    (declareVariable name value).RestoresFrame := by
  intro m
  by_cases hb : (m.store.binding? m.current name.lexeme).isSome
  · simp only [after, Lox.declareVariable, Store.declare?, if_pos hb]
    exact .refl m
  · simp only [after, Lox.declareVariable, Store.declare?, if_neg hb]
    exact .ofStore m (m.store.scopesPersist_define _ _ _)

private theorem assignVariable (name : Token) (value : Value) :
    (assignVariable name value).RestoresFrame := by
  intro m
  simp only [after, Lox.assignVariable, Store.assign?]
  cases m.store.owner? m.current name.lexeme with
  | none => exact .refl m
  | some owner => exact .ofStore m (m.store.scopesPersist_define _ _ _)

/-- To make a function changes no scope. -/
private theorem makeFunction (declaration : FunctionDecl) :
    (makeFunction declaration).RestoresFrame :=
  fun m => .ofStore m (m.store.scopesPersist_addCallable _)

/-- To look at what is called changes nothing. -/
private theorem callee (value : Value) (count : Nat) (paren : Token) :
    (callee value count paren).RestoresFrame := by
  intro m
  have same : (Lox.callee value count paren).after m = m := by
    cases value with
    | callable ref =>
      simp only [after, Lox.callee]
      cases m.store.callable? ref with
      | none => rfl
      | some callable =>
        by_cases h : count = callable.arity
        · simp only [if_pos h]
        · simp only [if_neg h]
    | _ => rfl
  rw [same]
  exact .refl m

/-- A native changes no scope. -/
private theorem performAction (action : Action) (arguments : List Value) (paren : Token) :
    (performAction action arguments paren).RestoresFrame := by
  intro m
  cases action with
  | nothing => exact .refl m
  | clock => exact ⟨rfl, rfl, .refl _⟩
  | print =>
    simp only [after, Lox.performAction]
    cases m.sink.printFirst arguments with
    | mk result sink => cases result <;> exact ⟨rfl, rfl, .refl _⟩

/-- A scope that is entered is left again; what happened in the store inside it stays. -/
theorem withScope (scope : ScopeId) {x : Run α} (hx : x.RestoresFrame) :
    (withScope scope x).RestoresFrame := by
  intro m
  have h := hx { m with current := scope }
  simp only [after, Lox.withScope] at h ⊢
  cases hr : x { m with current := scope } <;> rw [hr] at h <;> exact ⟨rfl, h.depth, h.scopes⟩

theorem withBlockScope {x : Run α} (hx : x.RestoresFrame) :
    (withBlockScope x).RestoresFrame := fun m =>
  (Machine.SameFrame.ofStore m (m.store.scopesPersist_addScope _)).trans (withScope _ hx _)

/-- The call that is counted before the body is taken off the count after it. -/
theorem withCall {x : Run α} (hx : x.RestoresFrame) : (withCall x).RestoresFrame := by
  intro m
  have h := hx { m with depth := m.depth + 1 }
  simp only [after, Lox.withCall] at h ⊢
  cases hr : x { m with depth := m.depth + 1 } <;> rw [hr] at h <;>
    exact ⟨h.current, by simp only [h.depth, Nat.add_sub_cancel], h.scopes⟩

theorem withCallScope {x : Run α} (declaration : FunctionDecl) (closure : ScopeId)
    (arguments : List Value) (hx : x.RestoresFrame) :
    (withCallScope declaration closure arguments x).RestoresFrame := fun m =>
  have grown := (m.store.scopesPersist_addScope (some closure)).trans
    (Store.scopesPersist_bindParameters m.store.nextScope declaration.params arguments _)
  (Machine.SameFrame.ofStore m grown).trans (withCall (withScope _ hx) _)

/-- Every step restores the frame, so every run does. -/
theorem property : RunProperty (fun {_} x => x.RestoresFrame) where
  pure _ m := .refl m
  bind := bind
  outOfFuel m := .refl m
  ofExcept := ofExcept
  readVariable := readVariable
  declareVariable := declareVariable
  assignVariable := assignVariable
  makeFunction := makeFunction
  callee := callee
  performAction := performAction
  withBlockScope := withBlockScope
  enter declaration closure arguments paren hx := by
    refine bind (fun m => .refl m) fun m => ?_
    split
    · exact fun m => .refl m
    · exact bind (withCallScope declaration closure arguments hx) fun _ m => .refl m

end Run.RestoresFrame

namespace Machine

/-- A parsed program is not run for its errors, or run to an end that is not for want of fuel. -/
theorem runParse_cases {fuel : Nat} {parse : Grammar.Parse} {m n : Machine} {d : Diagnostics}
    (h : m.runParse fuel parse = some (d, n)) :
    n = m ∨ parse.errors = [] ∧ n = (Lox.interpret fuel parse.statements).after m := by
  simp only [runParse, interpret] at h
  split at h
  · next clean =>
    refine .inr ⟨List.isEmpty_iff.mp clean, ?_⟩
    cases hr : Lox.interpret fuel parse.statements m with
    | ok _ n' =>
      rw [hr] at h
      simp only [Option.some.injEq, Prod.mk.injEq] at h
      simp only [Run.after, hr, h.2]
    | error e n' =>
      rw [hr] at h
      cases e with
      | outOfFuel => contradiction
      | error e =>
        simp only [Option.some.injEq, Prod.mk.injEq] at h
        simp only [Run.after, hr, h.2]
  · simp only [Option.some.injEq, Prod.mk.injEq] at h
    exact .inl h.2.symm

/-- A parsed program that is run, or not run for its errors, restores the frame. -/
theorem sameFrame_runParse {fuel : Nat} {parse : Grammar.Parse} {m n : Machine} {d : Diagnostics}
    (h : m.runParse fuel parse = some (d, n)) : m.SameFrame n := by
  rcases runParse_cases h with rfl | ⟨_, rfl⟩
  · exact .refl n
  · exact Run.RestoresFrame.property.interpret fuel parse.statements m

/-- What each source text keeps, source texts that are run one after another keep. -/
theorem runAll_induction {C : Machine → Prop} {fuel : Nat}
    (hrun : ∀ {source m n d}, C m → m.run fuel source = some (d, n) → C n) {sources : List String}
    {m n : Machine} {ds : List Diagnostics} (hm : C m) (h : m.runAll fuel sources = some (ds, n)) :
    C n := by
  induction sources generalizing m ds with
  | nil =>
    simp only [runAll, Option.some.injEq, Prod.mk.injEq] at h
    exact h.2 ▸ hm
  | cons source rest ih =>
    simp only [runAll, Option.bind_eq_bind, Option.bind_eq_some_iff, Option.pure_def,
      Option.some.injEq, Prod.mk.injEq] at h
    obtain ⟨⟨d, m'⟩, hfirst, ⟨later, m''⟩, hrest, -, rfl⟩ := h
    exact ih (hrun hm hfirst) hrest

/-- So do source texts that are run one after another. -/
theorem sameFrame_runAll {fuel : Nat} {sources : List String} {m n : Machine}
    {ds : List Diagnostics} (h : m.runAll fuel sources = some (ds, n)) : m.SameFrame n :=
  runAll_induction (C := m.SameFrame) (fun hm hrun => hm.trans (sameFrame_runParse hrun))
    (.refl m) h

/-- The machine that programs leave behind which are run one after another, whatever happens in
them. They are trees of any kind. -/
def afterPrograms (fuel : Nat) (programs : List (List Stmt)) (m : Machine) : Machine :=
  programs.foldl (fun m statements => (Lox.interpret fuel statements).after m) m

/-- Programs one after another keep the frame. -/
theorem sameFrame_afterPrograms (fuel : Nat) (programs : List (List Stmt)) (m : Machine) :
    m.SameFrame (m.afterPrograms fuel programs) := by
  induction programs generalizing m with
  | nil => exact .refl m
  | cons statements rest ih =>
    exact (Run.RestoresFrame.property.interpret fuel statements m).trans (ih _)

/-- Between programs the global scope is current and no call is in progress. -/
structure AtRest (m : Machine) : Prop where
  current : m.current = globalScope
  depth : m.depth = 0

/-- The initial machine is at rest. -/
theorem atRest_initial (sink : Sink) (clock : Nat → Nat) : (initial sink clock).AtRest := ⟨rfl, rfl⟩

/-- A machine with the frame of one at rest is at rest. -/
theorem AtRest.of_sameFrame {m n : Machine} (h : m.AtRest) (same : m.SameFrame n) : n.AtRest :=
  ⟨same.current.trans h.current, same.depth.trans h.depth⟩

/-- Statements and expressions restore the frame of every machine, however they end. So whatever has
been run on a new machine, trees of any kind or source texts, it is at rest, and whatever is run
later takes no global name away. -/
theorem frame_restored (fuel : Nat) :
    (∀ (s : Stmt) (m : Machine), m.SameFrame ((execute fuel s).after m)) ∧
    (∀ (e : Expr) (m : Machine), m.SameFrame ((evaluate fuel e).after m)) ∧
    (∀ (sink : Sink) (clock : Nat → Nat) (earlier later : List (List Stmt)),
      let m := (initial sink clock).afterPrograms fuel earlier
      let n := m.afterPrograms fuel later
      n.AtRest ∧ ∀ name, (m.global? name).isSome → (n.global? name).isSome) ∧
    (∀ (sink : Sink) (clock : Nat → Nat) (earlier later : List String),
      ∀ r ∈ (initial sink clock).runAll fuel earlier, ∀ t ∈ r.2.runAll fuel later,
      t.2.AtRest ∧ ∀ name, (r.2.global? name).isSome → (t.2.global? name).isSome) := by
  have within := Run.RestoresFrame.property.holdsWithin fuel
  refine ⟨within.execute, within.evaluate, ?_, ?_⟩
  · intro sink clock earlier later
    have first := sameFrame_afterPrograms fuel earlier (initial sink clock)
    have second :=
      sameFrame_afterPrograms fuel later ((initial sink clock).afterPrograms fuel earlier)
    exact ⟨(atRest_initial sink clock).of_sameFrame (first.trans second), fun _ => second.global?⟩
  · intro sink clock earlier later r hr t ht
    have first := sameFrame_runAll hr
    have second := sameFrame_runAll ht
    exact ⟨(atRest_initial sink clock).of_sameFrame (first.trans second), fun _ => second.global?⟩

/-- A call inside a block fails on a new machine, and so does an assignment after it. -/
theorem frame_restored_failing :
    let m := initial .unlimited id
    ∃ h : (m.runAll 30 ["{ var a = nil; a(); }"]).isSome,
    ∃ h' : ((Option.get _ h).2.runAll 30 ["b = nil;"]).isSome, (Option.get _ h').2.AtRest :=
  ⟨by decide +kernel, by decide +kernel,
    ((frame_restored 30).2.2.2 .unlimited id ["{ var a = nil; a(); }"] ["b = nil;"] _
      (Option.get_mem _) _ (Option.get_mem _)).1⟩

end Machine

end Lox
