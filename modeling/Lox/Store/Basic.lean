import Std.Data.TreeMap
import Lox.Store.Callable

/-!
# Scopes and callables

The store holds every scope and every callable that was ever made, in the order in
which they were made; the place of each identifies it. A scope has a parent that is
older than itself, and bindings of its own. A name belongs to the first scope, from a
scope outward, that binds it: its owner.
-/

namespace Lox

structure Scope where
  /-- The scope around this one. -/
  parent : Option ScopeId
  bindings : Std.TreeMap String Value

structure Store where
  scopes : Array Scope
  callables : Array Callable

namespace Store

/-- A store without scopes. -/
def empty : Store := ⟨#[], #[]⟩

/-- The place of the next scope. -/
def nextScope (s : Store) : ScopeId := s.scopes.size

/-- Adds an empty scope inside another, or on its own. -/
def addScope (s : Store) (parent : Option ScopeId) : Store :=
  { s with scopes := s.scopes.push ⟨parent, {}⟩ }

/-- The reference to a callable that is added next. -/
def nextRef (s : Store) (callable : Callable) : CallableRef := ⟨s.callables.size, callable.text⟩

/-- Adds a callable, which is different from all others. -/
def addCallable (s : Store) (callable : Callable) : Store :=
  { s with callables := s.callables.push callable }

/-- The callable that a reference leads to. -/
def callable? (s : Store) (ref : CallableRef) : Option Callable := s.callables[ref.index]?

/-- What a scope itself binds a name to. -/
def binding? (s : Store) (scope : ScopeId) (name : String) : Option Value :=
  s.scopes[scope]?.bind (·.bindings[name]?)

/-- The scope around a scope. Only an older scope can be around another. -/
def parent? (s : Store) (scope : ScopeId) : Option ScopeId :=
  (s.scopes[scope]?.bind (·.parent)).filter (· < scope)

/-- A parent is an earlier scope. -/
theorem parent?_lt {s : Store} {scope parent : ScopeId} (h : s.parent? scope = some parent) :
    parent < scope := by
  simp only [parent?, Option.filter_eq_some_iff, decide_eq_true_eq] at h
  exact h.2

/-- The first scope from `scope` outward that binds the name itself. -/
def owner? (s : Store) (scope : ScopeId) (name : String) : Option ScopeId :=
  if (s.binding? scope name).isSome then some scope
  else
    match _ : s.parent? scope with
    | some parent => s.owner? parent name
    | none => none
termination_by scope
decreasing_by
  rename_i h
  exact parent?_lt h

/-- The value of a name seen from a scope. -/
def lookup (s : Store) (scope : ScopeId) (name : String) : Option Value :=
  (s.owner? scope name).bind (s.binding? · name)

/-- Binds a name in a scope, in place of what it was bound to there. -/
def define (s : Store) (scope : ScopeId) (name : String) (value : Value) : Store :=
  { s with
    scopes := s.scopes.modify scope fun x => { x with bindings := x.bindings.insert name value } }

/-- Binds a name in a scope that does not bind it yet. -/
@[inline]
def declare? (s : Store) (scope : ScopeId) (name : String) (value : Value) : Option Store :=
  if (s.binding? scope name).isSome then none else some (s.define scope name value)

/-- Changes the binding of a name in the scope that owns it. -/
@[inline]
def assign? (s : Store) (scope : ScopeId) (name : String) (value : Value) : Option Store :=
  match s.owner? scope name with
  | some owner => some (s.define owner name value)
  | none => none

end Store

end Lox
