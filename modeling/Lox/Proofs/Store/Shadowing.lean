import Lox.Machine.Basic
import Lox.Proofs.Store.Scopes

/-!
# Which binding a name means

From a scope outward there is a chain of scopes, and a name means its binding in the first
scope of the chain that binds it. Here is what that makes of every change: an assignment
is seen from the scopes where the name meant the same binding before, and a definition
from those that reach its scope before any other scope that binds the name.
-/

namespace Lox.Store

/-- The scopes from a scope outward. -/
def chain (s : Store) (id : ScopeId) : List ScopeId :=
  match _ : s.parent? id with
  | some parent => id :: s.chain parent
  | none => [id]
termination_by id
decreasing_by
  rename_i h
  exact parent?_lt h

/-- Whether, from a scope outward, `id` comes before any other scope that binds the name. -/
def ReachesFirst (s : Store) (name : String) (other id : ScopeId) : Prop :=
  ∃ inner outer, s.chain other = inner ++ id :: outer ∧ ∀ i ∈ inner, s.binding? i name = none

/-- The stores that come about by making scopes, inside others or on their own, and by defining,
declaring and assigning names in them. -/
inductive Built : Store → Prop where
  | empty : Built .empty
  | addScope {s : Store} {parent : Option ScopeId} : Built s →
      (∀ outer ∈ parent, outer < s.nextScope) → Built (s.addScope parent)
  | define {s : Store} {scope : ScopeId} : Built s → scope < s.nextScope →
      (name : String) → (value : Value) → Built (s.define scope name value)
  | declare {s t : Store} {scope : ScopeId} {name : String} {value : Value} : Built s →
      scope < s.nextScope → s.declare? scope name value = some t → Built t
  | assign {s t : Store} {scope : ScopeId} {name : String} {value : Value} : Built s →
      scope < s.nextScope → s.assign? scope name value = some t → Built t

section

variable {s t : Store} {id scope : ScopeId} {name : String} {value : Value}

/-! ### Chains -/

/-- The chain of a scope is the scope and the chain of its parent. -/
theorem chain_eq (s : Store) (id : ScopeId) :
    s.chain id = id :: ((s.parent? id).map s.chain).getD [] := by
  rw [chain]
  split
  · next parent h => rw [h, Option.map_some, Option.getD_some]
  · next h => rw [h, Option.map_none, Option.getD_none]

/-- The owner of a name is the first scope of the chain that binds it. -/
theorem owner?_eq_find? (s : Store) (id : ScopeId) (name : String) :
    s.owner? id name = (s.chain id).find? fun o => (s.binding? o name).isSome := by
  induction id using Nat.strongRecOn with
  | ind id ih =>
    rw [owner?_eq, chain_eq, List.find?_cons]
    cases hb : (s.binding? id name).isSome with
    | true => rfl
    | false =>
      cases hp : s.parent? id with
      | none => rfl
      | some parent => exact ih parent (parent?_lt hp)

/-- The owner of a name is the first scope on the way outwards that binds it. -/
theorem owner?_eq_some_iff {o : ScopeId} :
    s.owner? id name = some o ↔ s.ReachesFirst name id o ∧ (s.binding? o name).isSome := by
  rw [owner?_eq_find?, List.find?_eq_some_iff_append, and_comm]
  simp only [ReachesFirst, Bool.not_eq_true', Option.isSome_eq_false_iff,
    Option.isNone_iff_eq_none]

/-- An owner binds the name. -/
theorem isSome_binding?_owner {o : ScopeId} (h : s.owner? id name = some o) :
    (s.binding? o name).isSome := (owner?_eq_some_iff.mp h).2

/-- A scope reaches itself first; to reach another one first it must not bind the name, and the
scope around it has to reach the other one first. -/
theorem reachesFirst_iff :
    s.ReachesFirst name id scope ↔ id = scope ∨
      s.binding? id name = none ∧ ∃ outer, s.parent? id = some outer ∧
        s.ReachesFirst name outer scope := by
  constructor
  · rintro ⟨inner, rest, hchain, hnone⟩
    rw [chain_eq] at hchain
    cases inner with
    | nil => exact .inl (List.cons.inj hchain).1
    | cons first inner =>
      obtain ⟨rfl, htail⟩ := List.cons.inj hchain
      obtain ⟨hfirst, hinner⟩ := List.forall_mem_cons.mp hnone
      cases hp : s.parent? id with
      | none => simp [hp] at htail
      | some outer =>
        rw [hp, Option.map_some, Option.getD_some] at htail
        exact .inr ⟨hfirst, outer, rfl, inner, rest, htail, hinner⟩
  · rintro (rfl | ⟨hnone, outer, hp, inner, rest, hchain, hinner⟩)
    · exact ⟨[], _, chain_eq s id, fun _ hi => nomatch hi⟩
    · refine ⟨id :: inner, rest, ?_, List.forall_mem_cons.mpr ⟨hnone, hinner⟩⟩
      rw [chain_eq, hp, Option.map_some, Option.getD_some, hchain, List.cons_append]

/-! ### What a definition does -/

/-- What binds a name is a scope of the store. -/
theorem lt_nextScope_of_isSome (h : (s.binding? id name).isSome) : id < s.nextScope := by
  refine Nat.lt_of_not_le fun hle => ?_
  rw [binding?_of_le hle] at h
  contradiction

/-- A name that is bound has the value in its scope. -/
theorem binding?_define_self (hscope : scope < s.nextScope) (name : String) (value : Value) :
    (s.define scope name value).binding? scope name = some value := by
  rw [binding?_define, if_pos ⟨rfl, rfl, hscope⟩]

/-- A definition makes its scope the owner of the name wherever it is reached first. -/
theorem owner?_define_of_reachesFirst (hscope : scope < s.nextScope) (value : Value)
    (h : s.ReachesFirst name id scope) :
    (s.define scope name value).owner? id name = some scope := by
  induction id using Nat.strongRecOn with
  | ind id ih =>
    rw [owner?_eq, parent?_eq_of_links (s.links_define scope name value)]
    rcases reachesFirst_iff.mp h with rfl | ⟨hnone, outer, hp, hreach⟩
    · rw [binding?_define_self hscope, Option.isSome_some, if_pos rfl]
    · have howner := ih outer (parent?_lt hp) hreach
      by_cases hid : scope = id
      · rw [← hid, binding?_define_self hscope, Option.isSome_some, if_pos rfl]
      · have hother : (s.define scope name value).binding? id name = none := by
          rw [binding?_define, if_neg fun hc => hid hc.1, hnone]
        rw [hother, Option.isSome_none, if_neg Bool.false_ne_true, hp, Option.bind_some]
        exact howner

/-- Everywhere else, and for every other name, the owner stays what it was. -/
theorem owner?_define_of_not (scope : ScopeId) (value : Value) {other : String}
    (h : other = name → ¬ s.ReachesFirst name id scope) :
    (s.define scope name value).owner? id other = s.owner? id other := by
  induction id using Nat.strongRecOn with
  | ind id ih =>
    have hbinding : (s.define scope name value).binding? id other = s.binding? id other := by
      rw [binding?_define, if_neg]
      rintro ⟨rfl, rfl, -⟩
      exact h rfl (reachesFirst_iff.mpr (.inl rfl))
    rw [owner?_eq, owner?_eq s, parent?_eq_of_links (s.links_define scope name value), hbinding]
    by_cases hb : (s.binding? id other).isSome
    · rw [if_pos hb, if_pos hb]
    · rw [if_neg hb, if_neg hb]
      cases hp : s.parent? id with
      | none => rfl
      | some outer =>
        refine ih outer (parent?_lt hp) fun heq hreach => h heq ?_
        subst heq
        exact reachesFirst_iff.mpr (.inr ⟨Option.not_isSome_iff_eq_none.mp hb, outer, hp, hreach⟩)

/-- A name that is bound where a search comes first is found there. -/
theorem lookup_define_of_reachesFirst (hscope : scope < s.nextScope) (value : Value)
    (h : s.ReachesFirst name id scope) :
    (s.define scope name value).lookup id name = some value := by
  rw [lookup, owner?_define_of_reachesFirst hscope value h, Option.bind_some,
    binding?_define_self hscope]

/-- Every other search ends as before. -/
theorem lookup_define_of_not (scope : ScopeId) (value : Value) {other : String}
    (h : other = name → ¬ s.ReachesFirst name id scope) :
    (s.define scope name value).lookup id other = s.lookup id other := by
  rw [lookup, lookup, owner?_define_of_not scope value h]
  cases ho : s.owner? id other with
  | none => rfl
  | some o =>
    rw [Option.bind_some, Option.bind_some, binding?_define, if_neg]
    rintro ⟨rfl, rfl, -⟩
    exact h rfl (owner?_eq_some_iff.mp ho).1

/-! ### The tree of scopes -/

/-- A declaration binds a name that the scope did not bind. -/
theorem exists_define_of_declare? (h : s.declare? scope name value = some t) :
    ¬ (s.binding? scope name).isSome ∧ t = s.define scope name value := by
  rw [declare?] at h
  split at h
  · contradiction
  · next hb => exact ⟨hb, (Option.some.inj h).symm⟩

theorem exists_define_of_assign? (h : s.assign? scope name value = some t) :
    ∃ o, s.owner? scope name = some o ∧ t = s.define o name value := by
  rw [assign?] at h
  split at h
  · next o ho => exact ⟨o, ho, (Option.some.inj h).symm⟩
  · contradiction

/-- Every scope is made after the one around it. -/
theorem Built.outer_lt (h : s.Built) {outer : ScopeId} (hlink : s.links[id]? = some (some outer)) :
    outer < id := by
  induction h with
  | empty =>
    simp only [Store.empty, links, Array.map_empty, Array.getElem?_empty, reduceCtorEq] at hlink
  | @addScope s parent _ hparent ih =>
    rw [links_addScope, Array.getElem?_push, size_links] at hlink
    split at hlink
    · next hid =>
      rw [hid]
      exact hparent outer (Option.some.inj hlink)
    · exact ih hlink
  | define _ _ name value ih =>
    rw [links_define] at hlink
    exact ih hlink
  | declare _ _ hdeclare ih =>
    obtain ⟨-, rfl⟩ := exists_define_of_declare? hdeclare
    rw [links_define] at hlink
    exact ih hlink
  | assign _ _ hassign ih =>
    obtain ⟨_, -, rfl⟩ := exists_define_of_assign? hassign
    rw [links_define] at hlink
    exact ih hlink

/-- The chain follows the links of the scopes: none of them is left out. -/
theorem Built.parent?_eq (h : s.Built) (id : ScopeId) :
    s.parent? id = s.scopes[id]?.bind (·.parent) := by
  have hlink : s.links[id]?.join = s.scopes[id]?.bind (·.parent) := by
    rw [links, Array.getElem?_map]
    cases s.scopes[id]? <;> rfl
  rw [parent?_eq_links, hlink]
  cases hparent : s.scopes[id]?.bind (·.parent) with
  | none => rfl
  | some outer =>
    rw [hparent, Option.join_eq_some_iff] at hlink
    rw [Option.filter_some, if_pos (decide_eq_true (h.outer_lt hlink))]

end

/-- What a definition of a name in a scope makes of a store: it is seen from the scopes that reach
this scope before any other one that binds the name, and makes no difference elsewhere. -/
structure Defined (s t : Store) (scope : ScopeId) (name : String) (value : Value) : Prop where
  seen : ∀ id, s.ReachesFirst name id scope → t.lookup id name = some value
  unseen : ∀ id other, (other = name → ¬ s.ReachesFirst name id scope) →
    t.lookup id other = s.lookup id other

/-- What every operation on the names of a store gives and does. -/
structure ScopeLaws (s : Store) : Prop where
  /-- The chain follows the scope around each scope. -/
  parent : ∀ id, s.parent? id = s.scopes[id]?.bind (·.parent)
  /-- The owner of a name is the first scope of the chain that binds it. -/
  owner : ∀ id name, s.owner? id name = (s.chain id).find? fun o => (s.binding? o name).isSome
  lookup_isSome : ∀ id name, (s.lookup id name).isSome ↔ (s.owner? id name).isSome
  lookup : ∀ id name, ∀ o ∈ s.owner? id name, s.lookup id name = s.binding? o name
  assign_fails : ∀ id name value, s.assign? id name value = none ↔ s.owner? id name = none
  /-- An assignment is seen wherever the name has the same owner. -/
  assign : ∀ id name value, ∀ t ∈ s.assign? id name value, ∀ other x,
    t.lookup other x =
      if x = name ∧ s.owner? other name = s.owner? id name then some value else s.lookup other x
  declare_fails : ∀ id name value, s.declare? id name value = none ↔ (s.binding? id name).isSome
  declare : ∀ id name value, id < s.nextScope → ∀ t ∈ s.declare? id name value,
    s.Defined t id name value
  define : ∀ id name value, id < s.nextScope → s.Defined (s.define id name value) id name value

/-- What programs see of the operations: a failure is blamed on the token of the name, and leaves
the machine as it was. -/
structure NameLaws (m : Machine) (name : Token) (value : Value) : Prop where
  unowned : m.store.owner? m.current name.lexeme = none →
    let halt := Halt.error ((Fault.undefinedVariable name.lexeme).atToken name)
    readVariable name m = .error halt m ∧ assignVariable name value m = .error halt m
  owned : ∀ o ∈ m.store.owner? m.current name.lexeme,
    (∃ held, m.store.binding? o name.lexeme = some held ∧ readVariable name m = .ok held m) ∧
      ∃ t ∈ m.store.assign? m.current name.lexeme value,
        assignVariable name value m = .ok () { m with store := t }
  bound : (m.store.binding? m.current name.lexeme).isSome →
    declareVariable name value m =
      .error (.error ((Fault.redeclared name.lexeme).atToken name)) m
  unbound : m.store.binding? m.current name.lexeme = none →
    ∃ t ∈ m.store.declare? m.current name.lexeme value,
      declareVariable name value m = .ok () { m with store := t }

section

variable {s : Store} {scope : ScopeId}

/-- To bind a name in a scope is to define it there. -/
theorem defined_define (h : scope < s.nextScope) (name : String) (value : Value) :
    s.Defined (s.define scope name value) scope name value where
  seen _ hreach := lookup_define_of_reachesFirst h value hreach
  unseen _ _ hreach := lookup_define_of_not scope value hreach

/-- A name is looked up in its owner. -/
theorem lookup_of_owner? {id o : ScopeId} {name : String} (h : s.owner? id name = some o) :
    s.lookup id name = s.binding? o name := by
  rw [lookup, h, Option.bind_some]

/-- The scopes that reach the owner of a name before any other scope that binds it are those where
the name has this owner. -/
theorem lookup_assign? {t : Store} {name : String} {value : Value}
    (h : s.assign? scope name value = some t) (other : ScopeId) (x : String) :
    t.lookup other x =
      if x = name ∧ s.owner? other name = s.owner? scope name then some value
      else s.lookup other x := by
  obtain ⟨o, ho, rfl⟩ := exists_define_of_assign? h
  have hbound := isSome_binding?_owner ho
  rw [ho]
  split
  · next hc =>
    obtain ⟨rfl, howner⟩ := hc
    exact lookup_define_of_reachesFirst (lt_nextScope_of_isSome hbound) value
      (owner?_eq_some_iff.mp howner).1
  · next hc =>
    refine lookup_define_of_not o value fun heq hreach => hc ⟨heq, ?_⟩
    exact owner?_eq_some_iff.mpr ⟨hreach, hbound⟩

theorem assign?_eq_none_iff {name : String} {value : Value} :
    s.assign? scope name value = none ↔ s.owner? scope name = none := by
  rw [assign?]
  cases s.owner? scope name <;> simp

/-- A declaration fails where the scope binds the name. -/
theorem declare?_eq_none_iff {name : String} {value : Value} :
    s.declare? scope name value = none ↔ (s.binding? scope name).isSome := by
  rw [declare?]
  split
  · next hb => simp [hb]
  · next hb => simp [hb]

/-- The operations on names keep to the laws of scopes. -/
theorem nameLaws (m : Machine) (name : Token) (value : Value) : NameLaws m name value where
  unowned h := by
    simp only [readVariable, assignVariable, Store.lookup, Store.assign?, h, Option.bind_none,
      and_self]
  owned o ho := by
    obtain ⟨held, hheld⟩ := Option.isSome_iff_exists.mp (isSome_binding?_owner ho)
    refine ⟨⟨held, hheld, ?_⟩, m.store.define o name.lexeme value, ?_, ?_⟩
    · simp only [readVariable, lookup_of_owner? ho, hheld]
    · simp only [Store.assign?, Option.mem_def.mp ho, Option.mem_some_iff]
    · simp only [assignVariable, Store.assign?, Option.mem_def.mp ho]
  bound h := by
    simp only [declareVariable, declare?_eq_none_iff.mpr h]
  unbound h := by
    have hdeclare : m.store.declare? m.current name.lexeme value =
        some (m.store.define m.current name.lexeme value) := by
      rw [Store.declare?, h, Option.isSome_none, if_neg Bool.false_ne_true]
    refine ⟨_, hdeclare, ?_⟩
    simp only [declareVariable, hdeclare]

end

/-- In every store that operations on scopes build, names are looked up, assigned, declared and
defined as the chains of its scopes tell. Programs do with names what their stores do. -/
theorem scope_laws {s : Store} (h : s.Built) :
    s.ScopeLaws ∧ ∀ m name value, NameLaws m name value := by
  refine ⟨?_, nameLaws⟩
  exact {
    parent := h.parent?_eq
    owner := s.owner?_eq_find?
    lookup_isSome := fun id name => by
      cases ho : s.owner? id name with
      | none => simp only [Store.lookup, ho, Option.bind_none, Option.isSome_none]
      | some o => simp only [lookup_of_owner? ho, isSome_binding?_owner ho, Option.isSome_some]
    lookup := fun _ _ _ ho => lookup_of_owner? ho
    assign_fails := fun _ _ _ => assign?_eq_none_iff
    assign := fun _ _ _ _ ht => lookup_assign? ht
    declare_fails := fun _ _ _ => declare?_eq_none_iff
    declare := fun _ _ _ hid _ ht => (exists_define_of_declare? ht).2 ▸ defined_define hid _ _
    define := fun _ name value hid => defined_define hid name value }

/-- Two scopes inside a third one, in which a name is bound and in the first of them as well. A
definition in the third scope is seen from the second one only. -/
theorem scope_laws_siblings :
    let outer := (empty.addScope none).define 0 "a" .nil
    let s := ((outer.addScope (some 0)).define 1 "a" (.bool true)).addScope (some 0)
    s.Built ∧ (s.define 0 "a" (.bool false)).lookup 2 "a" = some (.bool false) ∧
      (s.define 0 "a" (.bool false)).lookup 1 "a" = s.lookup 1 "a" := by
  intro outer s
  have hs : s.Built :=
    .addScope (.define (.addScope (.define (.addScope .empty (by simp)) (by decide) _ _)
      (by simp)) (by decide) _ _) (by simp)
  have hdefine := (scope_laws hs).1.define 0 "a" (.bool false) (by decide)
  refine ⟨hs, hdefine.seen 2 ?_, hdefine.unseen 1 "a" fun _ hreach => ?_⟩
  · exact reachesFirst_iff.mpr (.inr ⟨rfl, 0, rfl, reachesFirst_iff.mpr (.inl rfl)⟩)
  · obtain h | ⟨hnone, -⟩ := reachesFirst_iff.mp hreach
    · contradiction
    · have hbound : s.binding? 1 "a" = some (.bool true) := rfl
      rw [hbound] at hnone
      contradiction

end Lox.Store
