import Mathlib.Logic.Relation
import Lox.Proofs.Store.Shadowing

/-!
# Scopes that lead to the global one

In a store in which every scope but the global one is inside an older scope, the way
outward from each scope is finite and ends in the global one. So is the search for a
name, which goes that way.
-/

namespace Lox.Store

/-- Whether a scope is inside another one, with none between them. -/
def Inside (s : Store) (inner outer : ScopeId) : Prop := s.links[inner]? = some (some outer)

/-- How a name is searched from a scope outward, however far that is, and which scope is found. -/
inductive Search (s : Store) (name : String) : ScopeId → Option ScopeId → Prop where
  | found {id : ScopeId} : (s.binding? id name).isSome → Search s name id (some id)
  | outward {id outer : ScopeId} {owner : Option ScopeId} : s.binding? id name = none →
      s.Inside id outer → Search s name outer owner → Search s name id owner
  | missing {id : ScopeId} : s.binding? id name = none → s.links[id]? = some none →
      Search s name id none

/-- The global scope is inside no other; every other scope is inside an older one; functions close
over scopes that there are. -/
structure Rooted (s : Store) : Prop where
  global : s.links[Machine.globalScope]? = some none
  older : ∀ inner outer, s.Inside inner outer → outer < inner
  alone : ∀ id, s.links[id]? = some none → id = Machine.globalScope
  closures : ∀ (i : Nat) (f : FunctionDecl) (closure : ScopeId),
    s.callables[i]? = some (.function f closure) → closure < s.nextScope

section

variable {s t : Store} {id outer parent : ScopeId} {name : String}

/-- What is inside of another scope is a scope of the store. -/
theorem Inside.lt_nextScope (h : s.Inside id outer) : id < s.nextScope := by
  rw [← size_links]
  exact (Array.getElem?_eq_some_iff.mp h).1

/-- There is a scope around each scope, or none. -/
theorem exists_inside_or (h : id < s.nextScope) :
    (∃ outer, s.Inside id outer) ∨ s.links[id]? = some none := by
  rw [← size_links] at h
  rw [Array.getElem?_eq_getElem h]
  cases hlink : s.links[id] with
  | none => exact .inr rfl
  | some outer =>
    refine .inl ⟨outer, ?_⟩
    rw [Inside, Array.getElem?_eq_getElem h, hlink]

/-- A new scope is inside of its parent, and everything else stays inside of what it was. -/
theorem inside_addScope_iff : (s.addScope (some parent)).Inside id outer ↔
    id = s.nextScope ∧ parent = outer ∨ s.Inside id outer := by
  rw [Inside, links_addScope, Array.getElem?_push, size_links]
  by_cases hid : id = s.nextScope
  · have hnone : ¬ s.Inside s.nextScope outer := fun h => Nat.lt_irrefl _ h.lt_nextScope
    simp [hid, hnone]
  · simp [hid, Inside]

/-- Parameters are bound without a change to the scopes around. -/
@[simp]
theorem links_bindParameters (scope : ScopeId) (params : List Token) (arguments : List Value)
    (s : Store) : (bindParameters scope params arguments s).links = s.links := by
  induction params generalizing arguments s with
  | nil => rfl
  | cons param params ih =>
    cases arguments with
    | nil => rfl
    | cons argument arguments => exact (ih arguments _).trans (links_define s _ _ _)

namespace Rooted

variable (h : s.Rooted)
include h

/-- What is asked of a store is asked of the links of its scopes and of its callables. -/
theorem congr (hlinks : t.links = s.links)
    (hcallables : ∀ (i : Nat) (f : FunctionDecl) (closure : ScopeId),
      t.callables[i]? = some (.function f closure) → closure < s.nextScope) : t.Rooted where
  global := hlinks ▸ h.global
  older inner outer hin := h.older inner outer (by rwa [Inside, ← hlinks])
  alone id hid := h.alone id (hlinks ▸ hid)
  closures i f closure hc := nextScope_eq_of_links hlinks ▸ hcallables i f closure hc

/-- A scope that is added inside of another keeps the store rooted. -/
theorem addScope (hparent : parent < s.nextScope) : (s.addScope (some parent)).Rooted where
  global := by
    have hlt := (Array.getElem?_eq_some_iff.mp h.global).1
    rw [links_addScope, Array.getElem?_push, if_neg (Nat.ne_of_lt hlt)]
    exact h.global
  older inner outer hin := by
    rcases inside_addScope_iff.mp hin with ⟨rfl, rfl⟩ | hin
    · exact hparent
    · exact h.older inner outer hin
  alone id hid := by
    rw [links_addScope, Array.getElem?_push] at hid
    split at hid
    · exact absurd (Option.some.inj hid) (Option.some_ne_none parent)
    · exact h.alone id hid
  closures i f closure hc := by
    rw [nextScope_addScope]
    exact Nat.lt_succ_of_lt (h.closures i f closure hc)

/-- The way outward from each scope ends in the global one. -/
theorem leads (hid : id < s.nextScope) :
    Relation.ReflTransGen s.Inside id Machine.globalScope := by
  induction id using Nat.strongRecOn with
  | ind id ih =>
    rcases exists_inside_or hid with ⟨outer, hin⟩ | hroot
    · have older := h.older id outer hin
      exact .head hin (ih outer older (Nat.lt_trans older hid))
    · rw [h.alone id hroot]

/-- No scope is around itself. -/
theorem acyclic (id : ScopeId) : ¬ Relation.TransGen s.Inside id id := by
  have older {inner outer : ScopeId} (hin : Relation.TransGen s.Inside inner outer) :
      outer < inner := by
    induction hin with
    | single hin => exact h.older _ _ hin
    | tail _ hin ih => exact Nat.lt_trans (h.older _ _ hin) ih
  exact fun cycle => Nat.lt_irrefl id (older cycle)

/-- What is inside of another has it for its parent. -/
theorem parent?_eq_some (hin : s.Inside id outer) : s.parent? id = some outer := by
  have older := h.older id outer hin
  rw [Inside] at hin
  rw [parent?_eq_links, hin, Option.join_some, Option.filter_some, if_pos (decide_eq_true older)]

/-- The search for a name ends, with the owner of the name. -/
theorem search (name : String) (hid : id < s.nextScope) : s.Search name id (s.owner? id name) := by
  induction id using Nat.strongRecOn with
  | ind id ih =>
    rw [owner?_eq]
    split
    · next hb => exact .found hb
    · next hb =>
      have hnone := Option.not_isSome_iff_eq_none.mp hb
      rcases exists_inside_or hid with ⟨outer, hin⟩ | hroot
      · have older := h.older id outer hin
        rw [h.parent?_eq_some hin, Option.bind_some]
        exact .outward hnone hin (ih outer older (Nat.lt_trans older hid))
      · rw [parent?_eq_links, hroot]
        exact .missing hnone hroot

/-- What the global scope binds is found from everywhere. -/
theorem isSome_lookup (hid : id < s.nextScope)
    (hb : (s.binding? Machine.globalScope name).isSome) : (s.lookup id name).isSome := by
  have owned : (s.owner? id name).isSome := by
    refine Relation.ReflTransGen.head_induction_on (h.leads hid) ?_ fun hin _ ih => ?_
    · rw [owner?_eq, if_pos hb]
      rfl
    · rw [owner?_eq, h.parent?_eq_some hin]
      split
      · rfl
      · exact ih
  obtain ⟨owner, howner⟩ := Option.isSome_iff_exists.mp owned
  rw [lookup_of_owner? howner]
  exact isSome_binding?_owner howner

end Rooted

/-- There is no more than one way for a search to go. -/
theorem Search.unique {owner owner' : Option ScopeId} (h : s.Search name id owner)
    (h' : s.Search name id owner') : owner = owner' := by
  induction h with
  | found hb =>
    cases h' with
    | found => rfl
    | outward hn | missing hn =>
      rw [hn] at hb
      contradiction
  | outward hn hin _ ih =>
    cases h' with
    | found hb =>
      rw [hn] at hb
      contradiction
    | outward _ hin' h' =>
      cases hin.symm.trans hin'
      exact ih h'
    | missing _ hroot => cases hin.symm.trans hroot
  | missing hn hroot =>
    cases h' with
    | found hb =>
      rw [hn] at hb
      contradiction
    | outward _ hin => cases hroot.symm.trans hin
    | missing => rfl

end

end Lox.Store
