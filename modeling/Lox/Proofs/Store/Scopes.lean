import Std.Data.TreeMap.Lemmas
import Lox.Store.Basic

/-!
# What can be seen of a store

A store is looked at through its bindings, the links of its scopes and its callables.
For each change of a store, here is what it does to them: a new scope binds nothing, and
a definition changes one binding.
-/

namespace Lox.Store

/-- The scope around each scope. -/
def links (s : Store) : Array (Option ScopeId) := s.scopes.map (·.parent)

theorem size_links (s : Store) : s.links.size = s.nextScope := Array.size_map

/-- Stores with the same links make the same scope next. -/
theorem nextScope_eq_of_links {s t : Store} (h : t.links = s.links) :
    t.nextScope = s.nextScope := by
  rw [← size_links, ← size_links, h]

/-- A parent is a link to an earlier scope. -/
theorem parent?_eq_links (s : Store) (id : ScopeId) :
    s.parent? id = s.links[id]?.join.filter (· < id) := by
  simp only [parent?, links, Array.getElem?_map]
  cases s.scopes[id]? <;> rfl

/-- Stores with the same links have the same parents. -/
theorem parent?_eq_of_links {s t : Store} (h : t.links = s.links) (id : ScopeId) :
    t.parent? id = s.parent? id := by
  rw [parent?_eq_links, parent?_eq_links, h]

/-- What is no scope has no parent. -/
theorem parent?_of_le {s : Store} {id : ScopeId} (h : s.nextScope ≤ id) : s.parent? id = none := by
  simp only [parent?, Array.getElem?_eq_none h, Option.bind_none, Option.filter_none]

theorem binding?_of_le {s : Store} {id : ScopeId} (h : s.nextScope ≤ id) (name : String) :
    s.binding? id name = none := by
  simp only [binding?, Array.getElem?_eq_none h, Option.bind_none]

/-- A name that a scope binds itself is its own; another one is looked for around it. -/
theorem owner?_eq (s : Store) (id : ScopeId) (name : String) :
    s.owner? id name =
      if (s.binding? id name).isSome then some id
      else (s.parent? id).bind fun parent => s.owner? parent name := by
  rw [owner?]
  split
  · rfl
  · split
    · next parent h => rw [h, Option.bind_some]
    · next h => rw [h, Option.bind_none]

/-- To bind a name changes no link. -/
@[simp]
theorem links_define (s : Store) (scope : ScopeId) (name : String) (value : Value) :
    (s.define scope name value).links = s.links := by
  apply Array.ext_getElem?
  intro id
  simp only [links, define, Array.getElem?_map, Array.getElem?_modify]
  split
  · cases s.scopes[id]? <;> rfl
  · rfl

@[simp]
theorem nextScope_define (s : Store) (scope : ScopeId) (name : String) (value : Value) :
    (s.define scope name value).nextScope = s.nextScope :=
  nextScope_eq_of_links (s.links_define scope name value)

theorem binding?_define (s : Store) (scope : ScopeId) (name : String) (value : Value)
    (id : ScopeId) (other : String) :
    (s.define scope name value).binding? id other =
      if scope = id ∧ name = other ∧ id < s.nextScope then some value
      else s.binding? id other := by
  simp only [binding?, define, Array.getElem?_modify]
  by_cases hid : scope = id
  · rw [if_pos hid]
    by_cases hlt : id < s.nextScope
    · rw [Array.getElem?_eq_getElem hlt]
      simp only [Option.map_some, Option.bind_some, Std.TreeMap.getElem?_insert,
        Std.compare_eq_iff_eq, hid, hlt, true_and, and_true]
    · simp only [Array.getElem?_eq_none (Nat.le_of_not_lt hlt), hlt, Option.map_none, and_false,
        if_false]
  · simp only [hid, if_false, false_and]

/-- A definition in one scope leaves every other one as it is. -/
theorem scopes_define_of_ne (s : Store) {scope id : ScopeId} (h : scope ≠ id) (name : String)
    (value : Value) : (s.define scope name value).scopes[id]? = s.scopes[id]? := by
  rw [define, Array.getElem?_modify, if_neg h]

/-- A new scope is one link more. -/
theorem links_addScope (s : Store) (parent : Option ScopeId) :
    (s.addScope parent).links = s.links.push parent := by
  simp only [links, addScope, Array.map_push]

@[simp]
theorem nextScope_addScope (s : Store) (parent : Option ScopeId) :
    (s.addScope parent).nextScope = s.nextScope + 1 := by
  simp only [nextScope, addScope, Array.size_push]

theorem scopes_addScope (s : Store) (parent : Option ScopeId) (id : ScopeId) :
    (s.addScope parent).scopes[id]? =
      if id = s.nextScope then some ⟨parent, {}⟩ else s.scopes[id]? := Array.getElem?_push

/-- A new scope leaves every other one as it is. -/
theorem scopes_addScope_of_lt (s : Store) (parent : Option ScopeId) {id : ScopeId}
    (h : id < s.nextScope) : (s.addScope parent).scopes[id]? = s.scopes[id]? := by
  rw [scopes_addScope, if_neg (Nat.ne_of_lt h)]

/-- A new scope binds nothing. -/
theorem binding?_addScope (s : Store) (parent : Option ScopeId) (id : ScopeId) (name : String) :
    (s.addScope parent).binding? id name = s.binding? id name := by
  simp only [binding?, scopes_addScope]
  by_cases h : id = s.nextScope
  · have hnone : s.scopes[id]? = none := Array.getElem?_eq_none (Nat.le_of_eq h.symm)
    rw [if_pos h, hnone]
    exact Std.TreeMap.getElem?_emptyc
  · rw [if_neg h]

/-- The scope around a scope is the one around it before, or the parent of the new scope. -/
theorem parent?_addScope {s : Store} {parent : Option ScopeId} {id outer : ScopeId}
    (h : (s.addScope parent).parent? id = some outer) :
    s.parent? id = some outer ∨ parent = some outer := by
  simp only [parent?_eq_links, links_addScope, Array.getElem?_push, size_links] at h ⊢
  split at h
  · simp only [Option.join_some, Option.filter_eq_some_iff] at h
    exact .inr h.1
  · exact .inl h

/-- A new callable is behind the others. -/
theorem getElem?_addCallable (s : Store) (callable : Callable) (i : Nat) :
    (s.addCallable callable).callables[i]? =
      if i = s.callables.size then some callable else s.callables[i]? := by
  rw [addCallable, Array.getElem?_push]

end Lox.Store
