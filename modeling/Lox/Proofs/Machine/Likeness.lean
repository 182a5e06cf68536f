import Lox.Machine.Basic
import Lox.Proofs.Store.Scopes
import Lox.Proofs.Tree.Likeness

/-!
# Machines that are alike

Two machines are alike if they differ in nothing but the lines of the tokens in the
functions that they hold. What is looked up in one is found in the other, and what is
done to both keeps them alike.
-/

namespace Lox

/-- Callables that differ in nothing but the lines of their tokens. -/
inductive Callable.Alike (R : Token → Token → Prop) : Callable → Callable → Prop where
  | function {closure : ScopeId} : FunctionDecl.Alike R f f' →
      Callable.Alike R (.function f closure) (.function f' closure)
  | native (name : String) (arity : Nat) (action : Action) :
      Callable.Alike R (.native name arity action) (.native name arity action)

namespace Callable.Alike

variable {R : Token → Token → Prop} {c c' : Callable}

/-- Like callables take the same number of arguments. -/
theorem arity (h : c.Alike R c') : c'.arity = c.arity := by
  cases h with
  | function hf => exact hf.arity
  | native => rfl

theorem name (hR : Relabels R) (h : c.Alike R c') : c'.name = c.name := by
  cases h with
  | function hf => exact hf.displayName hR
  | native => rfl

theorem text (hR : Relabels R) (h : c.Alike R c') : c'.text = c.text := by
  cases h with
  | function hf => simp only [Callable.text, hf.displayName hR]
  | native => rfl

end Callable.Alike

/-- Stores with the same scopes and bindings, in which alike callables are in the same places. -/
structure Store.Alike (R : Token → Token → Prop) (s s' : Store) : Prop where
  scopes : s'.scopes = s.scopes
  callables : List.Forall₂ (Callable.Alike R) s.callables.toList s'.callables.toList

/-- Machines with alike stores that are the same otherwise. -/
structure Machine.Alike (R : Token → Token → Prop) (m m' : Machine) : Prop where
  store : m.store.Alike R m'.store
  current : m'.current = m.current
  depth : m'.depth = m.depth
  sink : m'.sink = m.sink
  clock : m'.clock = m.clock
  readings : m'.readings = m.readings

namespace Store.Alike

variable {R : Token → Token → Prop} {s s' : Store}

/-- Like stores bind the same values. -/
theorem binding? (h : s.Alike R s') (scope : ScopeId) (name : String) :
    s'.binding? scope name = s.binding? scope name := by
  simp only [Store.binding?, h.scopes]

theorem owner? (h : s.Alike R s') (scope : ScopeId) (name : String) :
    s'.owner? scope name = s.owner? scope name := by
  have hlinks : s'.links = s.links := by rw [links, links, h.scopes]
  induction scope using Nat.strongRecOn with
  | ind scope ih =>
    rw [owner?_eq s', owner?_eq s, h.binding?, parent?_eq_of_links hlinks]
    cases hp : s.parent? scope with
    | none => rfl
    | some parent => rw [Option.bind_some, Option.bind_some, ih parent (parent?_lt hp)]

/-- A name is looked up with the same value. -/
theorem lookup (h : s.Alike R s') (scope : ScopeId) (name : String) :
    s'.lookup scope name = s.lookup scope name := by
  simp only [Store.lookup, h.owner?, Store.binding?, h.scopes]

theorem define (h : s.Alike R s') (scope : ScopeId) (name : String) (value : Value) :
    (s.define scope name value).Alike R (s'.define scope name value) :=
  ⟨by simp only [Store.define, h.scopes], h.callables⟩

theorem addScope (h : s.Alike R s') (parent : Option ScopeId) :
    (s.addScope parent).Alike R (s'.addScope parent) :=
  ⟨by simp only [Store.addScope, h.scopes], h.callables⟩

theorem addCallable (h : s.Alike R s') {c c' : Callable} (hc : c.Alike R c') :
    (s.addCallable c).Alike R (s'.addCallable c') := by
  refine ⟨h.scopes, ?_⟩
  simpa only [Store.addCallable, Array.toList_push] using
    List.rel_append h.callables (.cons hc .nil)

theorem nextScope (h : s.Alike R s') : s'.nextScope = s.nextScope := by
  simp only [Store.nextScope, h.scopes]

theorem nextRef (hR : Relabels R) (h : s.Alike R s') {c c' : Callable} (hc : c.Alike R c') :
    s'.nextRef c' = s.nextRef c := by
  simp only [Store.nextRef, ← Array.length_toList, h.callables.length_eq, hc.text hR]

/-- A reference leads to alike callables. -/
theorem callable? (h : s.Alike R s') (ref : CallableRef) :
    Option.Rel (Callable.Alike R) (s.callable? ref) (s'.callable? ref) := by
  have at_index {cs cs' : List Callable} (hcs : List.Forall₂ (Callable.Alike R) cs cs') (i : Nat) :
      Option.Rel (Callable.Alike R) cs[i]? cs'[i]? := by
    induction hcs generalizing i with
    | nil => exact .none
    | cons hc _ ih =>
      cases i with
      | zero => exact .some hc
      | succ i => simpa only [List.getElem?_cons_succ] using ih i
  simpa only [Store.callable?, Array.getElem?_toList] using at_index h.callables ref.index

theorem bindParameters (hR : Relabels R) (scope : ScopeId) {params params' : List Token}
    (hp : List.Forall₂ R params params') (arguments : List Value) (h : s.Alike R s') :
    (Lox.bindParameters scope params arguments s).Alike R
      (Lox.bindParameters scope params' arguments s') := by
  induction hp generalizing arguments s s' with
  | nil => exact h
  | cons ht _ ih =>
    cases arguments with
    | nil => exact h
    | cons argument arguments =>
      simp only [Lox.bindParameters, hR.lexeme ht]
      exact ih arguments (h.define scope _ argument)

end Store.Alike

end Lox
