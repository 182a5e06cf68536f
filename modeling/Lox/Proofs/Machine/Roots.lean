import Lox.Proofs.Machine.Visits
import Lox.Proofs.Store.Roots

/-!
# Every scope leads to the global one

Whatever programs do, each scope that they make stays inside the scope that it was made
in, and functions close over scopes that there are. So from the current scope, from
every scope of a block or a call and from the closure of every function the way outward
ends in the global scope, where the native functions are bound.
-/

namespace Lox

open Store

/-- No step changes which scope is inside which. -/
theorem Step.links_run (s : Step) (m : Machine) :
    (Outcome.machine (s.run m)).store.links = m.store.links := by
  cases s with
  | ofExcept result => cases result <;> rfl
  | readVariable name =>
    simp only [run, Lox.readVariable]
    cases m.store.lookup m.current name.lexeme <;> rfl
  | declareVariable name value =>
    simp only [run, Lox.declareVariable, Store.declare?]
    by_cases hb : (m.store.binding? m.current name.lexeme).isSome
    · rw [if_pos hb]
      rfl
    · rw [if_neg hb]
      exact m.store.links_define _ _ _
  | assignVariable name value =>
    simp only [run, Lox.assignVariable, Store.assign?]
    cases m.store.owner? m.current name.lexeme with
    | none => rfl
    | some owner => exact m.store.links_define _ _ _
  | makeFunction declaration => rfl
  | callee value count paren =>
    have same : Outcome.machine ((Step.callee value count paren).run m) = m :=
      machine_callee value count paren m
    rw [same]
  | performAction action arguments paren =>
    cases action with
    | nothing | clock => rfl
    | print =>
      simp only [run, Lox.performAction]
      cases m.sink.printFirst arguments with
      | mk result sink => cases result <;> rfl
  | enter paren =>
    rw [run_enter]
    split <;> rfl

/-- A scope stays where it is. -/
theorem Store.ScopesPersist.lt_nextScope {s t : Store} (h : s.ScopesPersist t) {id : ScopeId}
    (hid : id < s.nextScope) : id < t.nextScope := by
  obtain ⟨later, hlater, -⟩ := h id _ (Array.getElem?_eq_getElem hid)
  exact (Array.getElem?_eq_some_iff.mp hlater).1

/-- To enter a place takes no scope away. -/
theorem Place.scopesPersist_entered (place : Place) (m : Machine) :
    m.store.ScopesPersist (place.entered m).store := by
  cases place with
  | here => exact .refl _
  | block => exact m.store.scopesPersist_addScope _
  | call f closure arguments =>
    exact (m.store.scopesPersist_addScope _).trans (scopesPersist_bindParameters _ _ _ _)

/-- The names of the native functions. -/
def nativeNames : List String := Machine.natives.map (·.1)

/-- Whether every scope of a machine leads to the global one, which binds the names of the native
functions, and the current scope is one of them. -/
structure Machine.IsRooted (m : Machine) : Prop where
  store : m.store.Rooted
  current : m.current < m.store.nextScope
  natives : ∀ name ∈ nativeNames, (m.store.binding? Machine.globalScope name).isSome

/-- A function closes over the current scope. -/
theorem Machine.IsRooted.closures_run {m : Machine} (h : m.IsRooted) (s : Step) (i : Nat)
    (f : FunctionDecl) (closure : ScopeId)
    (hf : (Outcome.machine (s.run m)).store.callables[i]? = some (.function f closure)) :
    closure < m.store.nextScope := by
  have callables := s.callables_run m
  cases s with
  | makeFunction declaration =>
    rw [callables, Array.getElem?_push] at hf
    split at hf
    · cases hf
      exact h.current
    · exact h.store.closures i f closure hf
  | _ =>
    rw [callables] at hf
    exact h.store.closures i f closure hf

/-- Machines stay rooted throughout a run. -/
theorem invariant_isRooted : Invariant fun _ m => m.IsRooted where
  step {calls m} s h := by
    have same := s.sameFrame_run m
    refine ⟨h.store.congr (s.links_run m) (h.closures_run s), ?_, ?_⟩
    · rw [same.current]
      exact same.scopes.lt_nextScope h.current
    · exact fun name hname => same.scopes.binding? (h.natives name hname)
  block {calls m} h := by
    have persist := Place.block.scopesPersist_entered m
    refine ⟨h.store.addScope h.current, ?_, fun name hname => ?_⟩
    · simp only [Place.entered, nextScope_addScope]
      exact Nat.lt_succ_self _
    · exact persist.binding? (h.natives name hname)
  call {calls m f closure arguments} may _ h := by
    have persist := (Place.call f closure arguments).scopesPersist_entered m
    obtain ⟨ref, hf⟩ := may.stored
    have hclosure : closure < m.store.nextScope := h.store.closures ref.index f closure hf
    have grown := h.store.addScope hclosure
    have links := links_bindParameters m.store.nextScope f.params arguments
      (m.store.addScope (some closure))
    refine ⟨grown.congr links fun i g scope hg => ?_, ?_, fun name hname => ?_⟩
    · rw [Place.callables_entered] at hg
      exact grown.closures i g scope hg
    · simp only [Place.entered, nextScope_eq_of_links links, nextScope_addScope]
      exact Nat.lt_succ_self _
    · exact persist.binding? (h.natives name hname)
  left {calls m n} place h same h' := by
    have persist := (place.scopesPersist_entered m).trans same.scopes
    refine ⟨place.store_left m n ▸ h'.store, ?_, ?_⟩
    · rw [place.store_left]
      cases place with
      | here => exact h'.current
      | block | call => exact persist.lt_nextScope h.current
    · rw [place.store_left]
      exact h'.natives

namespace Machine

/-- A native is installed in a rooted store. -/
theorem rooted_installNative {s : Store} (h : s.Rooted) (name : String) (arity : Nat)
    (action : Action) : (installNative s name arity action).Rooted := by
  refine h.congr (links_define _ _ _ _) fun i f closure hf => ?_
  simp only [installNative, Store.define, getElem?_addCallable] at hf
  split at hf
  · cases hf
  · exact h.closures i f closure hf

/-- The initial machine is rooted. -/
theorem isRooted_initial (sink : Sink) (clock : Nat → Nat) : (initial sink clock).IsRooted := by
  have links : (Store.empty.addScope none).links = #[none] := by
    rw [links_addScope]
    simp [Store.links, Store.empty]
  have base : (Store.empty.addScope none).Rooted := by
    refine ⟨links ▸ rfl, fun inner outer hin => ?_, fun id hid => ?_, fun i f closure hf => ?_⟩
    · rw [Inside, links, Array.getElem?_singleton] at hin
      split at hin <;> cases hin
    · rw [links, Array.getElem?_singleton] at hid
      split at hid
      · next h => exact h
      · cases hid
    · simp [Store.empty, Store.addScope] at hf
  have store : initialStore.Rooted :=
    rooted_installNative (rooted_installNative base "clock" 0 .clock) "print" 1 .print
  have natives : ∀ name ∈ nativeNames, (initialStore.binding? globalScope name).isSome := by
    decide +kernel
  refine ⟨store, ?_, natives⟩
  rw [← size_links]
  exact (Array.getElem?_eq_some_iff.mp store.global).1

/-- The way outward from the scopes of a machine, along the links from each scope to the one that it
is inside of. -/
structure LeadsHome (m : Machine) : Prop where
  /-- The global scope is inside no other, and it is the only such scope. -/
  global : ∀ id < m.store.nextScope,
    (∀ outer, ¬ m.store.Inside id outer) ↔ id = globalScope
  acyclic : ∀ id, ¬ Relation.TransGen m.store.Inside id id
  current : Relation.ReflTransGen m.store.Inside m.current globalScope
  /-- Every scope that has been made is one of a block or of a call, but for the global one. -/
  scopes : ∀ id < m.store.nextScope, Relation.ReflTransGen m.store.Inside id globalScope
  closures : ∀ id name ref f closure, m.store.binding? id name = some (.callable ref) →
    m.store.callable? ref = some (.function f closure) →
    Relation.ReflTransGen m.store.Inside closure globalScope
  /-- The search for a name ends, in one way only, and what it finds is where names are looked up
  and assigned to. -/
  search : ∀ id < m.store.nextScope, ∀ name, ∃ owner,
    (∀ found, m.store.Search name id found ↔ found = owner) ∧
    m.store.lookup id name = owner.bind (m.store.binding? · name) ∧
    ∀ value, m.store.assign? id name value = owner.map (m.store.define · name value)
  natives : ∀ id < m.store.nextScope, ∀ name ∈ ["print", "clock"], (m.store.lookup id name).isSome

/-- In a rooted machine every chain of scopes leads to the global one. -/
theorem LeadsHome.of_isRooted {m : Machine} (h : m.IsRooted) : m.LeadsHome where
  global id hid := by
    constructor
    · intro outermost
      rcases exists_inside_or hid with ⟨outer, hin⟩ | hroot
      · exact absurd hin (outermost outer)
      · exact h.store.alone id hroot
    · rintro rfl outer hin
      cases hin.symm.trans h.store.global
  acyclic := h.store.acyclic
  current := h.store.leads h.current
  scopes _ hid := h.store.leads hid
  closures _ _ ref f closure _ hf := h.store.leads (h.store.closures ref.index f closure hf)
  search id hid name := by
    have search := h.store.search name hid
    refine ⟨m.store.owner? id name, fun found => ⟨(·.unique search), (· ▸ search)⟩, rfl, ?_⟩
    intro value
    rw [Store.assign?]
    cases m.store.owner? id name <;> rfl
  natives id hid name hname := by
    refine h.store.isSome_lookup hid (h.natives name ?_)
    simpa [nativeNames, Machine.natives, or_comm] using hname

/-- In every session, whatever its programs are and however they have ended, and at every moment of
the program that runs, each scope leads to the global one. -/
theorem InSession.leadsHome {sink : Sink} {clock : Nat → Nat} {m : Machine}
    (session : InSession sink clock m) {fuel : Nat} {statements : List Stmt}
    {calls : List FunctionDecl} {n : Machine}
    (h : Passes fuel (.ofProgram statements) m calls n) : n.LeadsHome := by
  have rooted : m.IsRooted := by
    refine invariant_isRooted.inSession (isRooted_initial sink clock) (fun m hm => ?_) session
    exact ⟨hm.store, hm.current, hm.natives⟩
  exact .of_isRooted (invariant_isRooted.passes (.ofProgram statements) rooted h)

/-- A session in which a function has been left in the scope of a block for an error, and the moment
when the next program has entered another block. -/
theorem InSession.leadsHome_block :
    ∃ d m,
      (initial .unlimited id).run 30 "\x7b fun f() \x7b f = f; \x7d f(); g; \x7d" = some (d, m) ∧
      d.runtimeError = some ⟨.undefinedVariable "g", 1⟩ ∧ InSession .unlimited id m ∧
      Passes 3 (.ofProgram [.block []]) m [] (Place.block.entered m) ∧
      (Place.block.entered m).LeadsHome := by
  have failed : ((initial .unlimited id).run 30 "\x7b fun f() \x7b f = f; \x7d f(); g; \x7d").map
      (·.1.runtimeError) = some (some ⟨.undefinedVariable "g", 1⟩) := by decide +kernel
  obtain ⟨⟨d, m⟩, hrun, hd⟩ := Option.map_eq_some_iff.mp failed
  have session : InSession .unlimited id m := .run .new hrun
  have program : Visits 3 (.ofProgram [.block []]) m [] 3 (.ofProgram [.block []]) m := .start
  have statement : Visits 3 (.ofProgram [.block []]) m [] 2 (.ofStatement (.block [])) m :=
    program.enter
  have block : Passes 3 (.ofProgram [.block []]) m [] (Place.block.entered m) :=
    .visit statement.enter
  exact ⟨d, m, hrun, hd, session, block, session.leadsHome block⟩

end Machine

end Lox
