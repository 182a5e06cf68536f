import Mathlib.Logic.Relator
import Lox.Machine.Evaluation
import Lox.Proofs.Machine.Lockstep
import Lox.Proofs.Store.Scopes

/-!
# Machines that agree on what is in sight

Two machines may hold the same callables in different places. So their values agree up
to a pairing of places, one to one, and the machines agree if they do so in all scopes
that are in sight. What happens in sight of both keeps them in agreement.
-/

namespace Lox

/-- The same value, a callable up to the place where it is held: `P` pairs the places. -/
inductive Value.Agrees (P : Nat → Nat → Prop) : Value → Value → Prop where
  | nil : Value.Agrees P .nil .nil
  | bool (value : Bool) : Value.Agrees P (.bool value) (.bool value)
  | number (value : Float) : Value.Agrees P (.number value) (.number value)
  | string (text : String) : Value.Agrees P (.string text) (.string text)
  | callable (text : String) : P i i' →
      Value.Agrees P (.callable ⟨i, text⟩) (.callable ⟨i', text⟩)

namespace Value.Agrees

variable {P : Nat → Nat → Prop} {v v' w w' : Value}

/-- Values that agree are written alike. -/
theorem text (h : v.Agrees P v') : v'.text = v.text := by
  cases h <;> rfl

theorem isTruthy (h : v.Agrees P v') : v'.isTruthy = v.isTruthy := by
  cases h <;> rfl

/-- Callables are identical in one machine if they are in the other: no place has two partners. -/
theorem equals (hP : Relator.BiUnique P) (hv : v.Agrees P v') (hw : w.Agrees P w') :
    v'.equals w' = v.equals w := by
  cases hv with
  | @callable i i' _ hi =>
    cases hw with
    | @callable j j' _ hj =>
      have same : i' = j' ↔ i = j :=
        ⟨fun h => hP.1 hi (h ▸ hj), fun h => hP.2 hi (h ▸ hj)⟩
      simp only [Value.equals, beq_eq_beq, same]
    | _ => rfl
  | _ => cases hw <;> rfl

theorem of_isPlain (h : v.IsPlain) : v.Agrees P v := by
  cases v with
  | nil => exact .nil
  | bool value => exact .bool value
  | number value => exact .number value
  | string text => exact .string text
  | callable => exact h.elim

/-- Values agree for a wider pairing of callables. -/
theorem mono {P' : Nat → Nat → Prop} (hP : ∀ i i', P i i' → P' i i') (h : v.Agrees P v') :
    v.Agrees P' v' := by
  cases h with
  | callable text hi => exact .callable text (hP _ _ hi)
  | _ => exact of_isPlain trivial

/-- A callable agrees up to fewer pairs if it is one that they are left for. -/
theorem restrict {C : Nat → Prop} (h : v.Agrees P v')
    (hC : ∀ i text, v = .callable ⟨i, text⟩ → C i) :
    v.Agrees (fun i i' => P i i' ∧ C i) v' := by
  cases h with
  | callable text hi => exact .callable text ⟨hi, hC _ text rfl⟩
  | _ => exact of_isPlain trivial

theorem refl (v : Value) : v.Agrees Eq v := by
  cases v with
  | callable => exact .callable _ rfl
  | _ => exact of_isPlain trivial

/-- Values agree the other way round. -/
theorem symm (h : v.Agrees P v') : v'.Agrees (flip P) v := by
  cases h with
  | callable text hi => exact .callable text hi
  | _ => exact of_isPlain trivial

end Value.Agrees

section

variable {P : Nat → Nat → Prop} {x x' : Option Value}

/-- Values that may be missing: where they agree up to some pairs they do up to others. -/
theorem agrees_imp {P' : Nat → Nat → Prop} (h : Option.Rel (Value.Agrees P) x x')
    (hP : ∀ v v', x = some v → v.Agrees P v' → v.Agrees P' v') :
    Option.Rel (Value.Agrees P') x x' := by
  cases h with
  | none => exact .none
  | some hv => exact .some (hP _ _ rfl hv)

/-- Values that may be missing agree the other way round. -/
theorem agrees_symm (h : Option.Rel (Value.Agrees P) x x') :
    Option.Rel (Value.Agrees (flip P)) x' x := by
  cases h with
  | none => exact .none
  | some hv => exact .some hv.symm

/-- What agrees with a callable is a callable of the same name, paired with it. -/
theorem exists_callable {ref : CallableRef}
    (h : Option.Rel (Value.Agrees P) (some (.callable ref)) x') :
    ∃ i', x' = some (.callable ⟨i', ref.text⟩) ∧ P ref.index i' := by
  cases h with
  | some hv =>
    cases hv with
    | callable text hi => exact ⟨_, rfl, hi⟩

end

namespace Operator

variable {P : Nat → Nat → Prop} {a a' b b' v : Value}

/-- No operator looks at where a callable is held. -/
theorem binary_agrees (hP : Relator.BiUnique P) (operator : Token) (ha : a.Agrees P a')
    (hb : b.Agrees P b') : binary operator a' b' = binary operator a b := by
  have sum : add operator a' b' = add operator a b := by
    cases ha <;> cases hb <;> rfl
  have equal := ha.equals hP hb
  simp only [binary, sum, equal]
  split
  · rfl
  · rfl
  · rfl
  · cases ha <;> cases hb <;> rfl

/-- A prefix operator makes no difference between values that agree. -/
theorem unary_agrees (operator : Token) (ha : a.Agrees P a') :
    unary operator a' = unary operator a := by
  simp only [unary, ha.isTruthy]
  split
  · rfl
  · cases ha <;> rfl

/-- The result of an operator is no callable. -/
theorem isPlain_binary {operator : Token} (h : binary operator a b = .ok v) : v.IsPlain := by
  simp only [binary, add, arithmetic] at h
  repeat' split at h
  all_goals cases h
  all_goals trivial

/-- An operator gives no callable. -/
theorem isPlain_unary {operator : Token} (h : unary operator a = .ok v) : v.IsPlain := by
  simp only [unary] at h
  repeat' split at h
  all_goals cases h
  all_goals trivial

end Operator

/-- What two machines have in sight, for as long as they run. -/
structure View where
  /-- The scopes in sight, the same in both machines. -/
  scopes : ScopeId → Prop
  /-- The callables in sight, by their places in the first machine. -/
  callables : Nat → Prop
  /-- The places of the same callables in both machines. -/
  pairs : Nat → Nat → Prop
  unique : Relator.BiUnique pairs
  /-- The scopes of each machine that are out of sight. -/
  hidden : ScopeId → Option Scope
  hidden' : ScopeId → Option Scope

namespace View

variable (w : View)

/-- The places of a callable that is in sight. -/
def Sees (i i' : Nat) : Prop := w.pairs i i' ∧ w.callables i

/-- What a view sees it sees in one way only. -/
theorem sees_unique : Relator.BiUnique w.Sees :=
  ⟨fun _ _ _ h h' => w.unique.1 h.1 h'.1, fun _ _ _ h h' => w.unique.2 h.1 h'.1⟩

/-- Whether a function closes over a scope in sight, and holds no callables as literals. -/
def Admits (f : FunctionDecl) (closure : ScopeId) : Prop :=
  f.LiteralsAre Value.IsPlain ∧ w.scopes closure

end View

/-- Two stores that agree on what is in sight, while each has kept what is hidden. What is still to
be made will be in sight as well, callables in pairs. -/
structure Store.AgreeIn (w : View) (s s' : Store) : Prop where
  links : s'.links = s.links
  ahead : ∀ id, s.nextScope ≤ id → w.scopes id
  parents : ∀ {id parent}, w.scopes id → s.parent? id = some parent → w.scopes parent
  bindings : ∀ {id}, w.scopes id → ∀ name,
    Option.Rel (Value.Agrees w.Sees) (s.binding? id name) (s'.binding? id name)
  same : ∀ {i i'}, w.pairs i i' → s'.callables[i']? = s.callables[i]?
  pairsAhead : ∀ k, w.pairs (s.callables.size + k) (s'.callables.size + k)
  callablesAhead : ∀ i, s.callables.size ≤ i → w.callables i
  admitted : ∀ {i f closure}, w.callables i → s.callables[i]? = some (.function f closure) →
    w.Admits f closure
  hidden : ∀ {id}, ¬ w.scopes id → s.scopes[id]? = w.hidden id
  hidden' : ∀ {id}, ¬ w.scopes id → s'.scopes[id]? = w.hidden' id

namespace Store.AgreeIn

variable {w : View} {s s' : Store}

/-- Stores that agree make the same scope next. -/
theorem nextScope (h : s.AgreeIn w s') : s'.nextScope = s.nextScope :=
  nextScope_eq_of_links h.links

/-- What a scope in sight binds in one store, it binds in the other. -/
theorem isSome_binding? (h : s.AgreeIn w s') {id : ScopeId} (hid : w.scopes id) (name : String) :
    (s'.binding? id name).isSome = (s.binding? id name).isSome := by
  have bound := h.bindings hid name
  generalize s.binding? id name = b at bound ⊢
  generalize s'.binding? id name = b' at bound ⊢
  cases bound <;> rfl

/-- A callable that is bound in sight is in sight. -/
theorem sees_binding (h : s.AgreeIn w s') {id : ScopeId} (hid : w.scopes id) {name : String}
    {ref : CallableRef} (hb : s.binding? id name = some (.callable ref)) :
    w.callables ref.index := by
  obtain ⟨i', _, hi⟩ := exists_callable (hb ▸ h.bindings hid name)
  exact hi.2

/-- The owner of a name is the same, and it is in sight. -/
theorem owner? (h : s.AgreeIn w s') {id : ScopeId} (hid : w.scopes id) (name : String) :
    s'.owner? id name = s.owner? id name ∧ ∀ owner ∈ s.owner? id name, w.scopes owner := by
  induction id using Nat.strongRecOn with
  | ind id ih =>
    rw [owner?_eq s, owner?_eq s', parent?_eq_of_links h.links, h.isSome_binding? hid]
    by_cases hb : (s.binding? id name).isSome
    · rw [if_pos hb, if_pos hb]
      exact ⟨rfl, fun owner ho => Option.some.inj ho ▸ hid⟩
    · rw [if_neg hb, if_neg hb]
      cases hp : s.parent? id with
      | none => exact ⟨rfl, fun _ ho => nomatch ho⟩
      | some parent => exact ih parent (parent?_lt hp) (h.parents hid hp)

/-- A name that is looked up in a scope of the view has values that agree. -/
theorem lookup (h : s.AgreeIn w s') {id : ScopeId} (hid : w.scopes id) (name : String) :
    Option.Rel (Value.Agrees w.Sees) (s.lookup id name) (s'.lookup id name) := by
  obtain ⟨same, inSight⟩ := h.owner? hid name
  rw [Store.lookup, Store.lookup, same]
  cases ho : s.owner? id name with
  | none => exact .none
  | some owner => exact h.bindings (inSight owner ho) name

/-- A definition in sight of values that agree. -/
theorem define (h : s.AgreeIn w s') {scope : ScopeId} (hscope : w.scopes scope) (name : String)
    {v v' : Value} (hv : v.Agrees w.Sees v') :
    (s.define scope name v).AgreeIn w (s'.define scope name v') where
  links := by rw [links_define, links_define, h.links]
  ahead id hid := h.ahead id (by rwa [nextScope_define] at hid)
  parents hid hp := by
    rw [parent?_eq_of_links (links_define s scope name v)] at hp
    exact h.parents hid hp
  bindings {id} hid other := by
    rw [binding?_define, binding?_define, h.nextScope]
    by_cases hc : scope = id ∧ name = other ∧ id < s.nextScope
    · rw [if_pos hc, if_pos hc]
      exact .some hv
    · rw [if_neg hc, if_neg hc]
      exact h.bindings hid other
  same := h.same
  pairsAhead := h.pairsAhead
  callablesAhead := h.callablesAhead
  admitted := h.admitted
  hidden {id} hid := by
    have hne : scope ≠ id := fun heq => hid (heq ▸ hscope)
    rw [scopes_define_of_ne s hne, h.hidden hid]
  hidden' {id} hid := by
    have hne : scope ≠ id := fun heq => hid (heq ▸ hscope)
    rw [scopes_define_of_ne s' hne, h.hidden' hid]

/-- A new scope inside one in sight. -/
theorem addScope (h : s.AgreeIn w s') {parent : ScopeId} (hparent : w.scopes parent) :
    (s.addScope (some parent)).AgreeIn w (s'.addScope (some parent)) where
  links := by rw [links_addScope, links_addScope, h.links]
  ahead id hid := by
    rw [nextScope_addScope] at hid
    exact h.ahead id (Nat.le_of_succ_le hid)
  parents {id outer} hid hp := by
    rcases parent?_addScope hp with hold | hnew
    · exact h.parents hid hold
    · exact Option.some.inj hnew ▸ hparent
  bindings hid name := by
    rw [binding?_addScope, binding?_addScope]
    exact h.bindings hid name
  same := h.same
  pairsAhead := h.pairsAhead
  callablesAhead := h.callablesAhead
  admitted := h.admitted
  hidden {id} hid := by
    have hlt : id < s.nextScope := Nat.lt_of_not_le fun hle => hid (h.ahead id hle)
    rw [scopes_addScope_of_lt s _ hlt, h.hidden hid]
  hidden' {id} hid := by
    have hlt : id < s'.nextScope := by
      rw [h.nextScope]
      exact Nat.lt_of_not_le fun hle => hid (h.ahead id hle)
    rw [scopes_addScope_of_lt s' _ hlt, h.hidden' hid]

/-- The same function is made in both stores: its places are the next pair. -/
theorem addFunction (h : s.AgreeIn w s') {f : FunctionDecl} {closure : ScopeId}
    (hf : w.Admits f closure) :
    (s.addCallable (.function f closure)).AgreeIn w (s'.addCallable (.function f closure)) where
  links := h.links
  ahead := h.ahead
  parents := h.parents
  bindings := h.bindings
  same {i i'} hi := by
    have next : i' = s'.callables.size ↔ i = s.callables.size :=
      ⟨fun heq => w.unique.1 hi (heq ▸ h.pairsAhead 0),
        fun heq => w.unique.2 hi (heq ▸ h.pairsAhead 0)⟩
    rw [getElem?_addCallable, getElem?_addCallable]
    simp only [next, h.same hi]
  pairsAhead k := by
    have hpair := h.pairsAhead (k + 1)
    simp only [addCallable, Array.size_push]
    rwa [Nat.add_assoc, Nat.add_assoc, Nat.add_comm 1]
  callablesAhead i hi := by
    rw [addCallable, Array.size_push] at hi
    exact h.callablesAhead i (Nat.le_of_succ_le hi)
  admitted {i g scope} hi hg := by
    rw [getElem?_addCallable] at hg
    split at hg
    · cases hg
      exact hf
    · exact h.admitted hi hg
  hidden := h.hidden
  hidden' := h.hidden'

/-- A callable that both stores make next is seen on both sides. -/
theorem nextRef (h : s.AgreeIn w s') (callable : Callable) :
    (Value.callable (s.nextRef callable)).Agrees w.Sees (.callable (s'.nextRef callable)) :=
  .callable _ ⟨h.pairsAhead 0, h.callablesAhead _ (Nat.le_refl _)⟩

/-- References to a callable in sight lead to the same callable. -/
theorem callable? (h : s.AgreeIn w s') {i i' : Nat} (hi : w.Sees i i') (text : String) :
    s'.callable? ⟨i', text⟩ = s.callable? ⟨i, text⟩ ∧
      ∀ c ∈ s.callable? ⟨i, text⟩, c.InStep Eq Value.IsPlain w.scopes c := by
  refine ⟨h.same hi.1, fun c hc => ?_⟩
  cases c with
  | function f closure =>
    obtain ⟨hliterals, hclosure⟩ := h.admitted hi.2 hc
    exact .function (f.alike_refl fun _ => rfl) hliterals hclosure
  | native name arity action => exact .native name arity action

/-- Parameters are bound to arguments that agree, in a scope of the view. -/
theorem bindParameters (h : s.AgreeIn w s') {scope : ScopeId} (hscope : w.scopes scope)
    (params : List Token) {arguments arguments' : List Value}
    (ha : List.Forall₂ (Value.Agrees w.Sees) arguments arguments') :
    (Lox.bindParameters scope params arguments s).AgreeIn w
      (Lox.bindParameters scope params arguments' s') := by
  induction ha generalizing params s s' with
  | nil => cases params <;> exact h
  | cons hv _ ih =>
    cases params with
    | nil => exact h
    | cons param params => exact ih (h.define hscope param.lexeme hv) params

end Store.AgreeIn

/-- Two machines that agree on what is in sight, the current scope among it, and are the same apart
from their stores. -/
structure Machine.AgreeIn (w : View) (m m' : Machine) : Prop where
  store : m.store.AgreeIn w m'.store
  inside : w.scopes m.current
  current : m'.current = m.current
  depth : m'.depth = m.depth
  sink : m'.sink = m.sink
  clock : m'.clock = m.clock
  readings : m'.readings = m.readings

end Lox
