import Lox.Proofs.Grammar.Joining
import Lox.Proofs.Machine.Frame
import Lox.Proofs.Machine.Together

/-!
# Lexical isolation

A program that runs in a scope can get at that scope, at the scopes around it, and at
those that functions bound there close over. Machines that agree on all of these run it
alike, whatever else they hold, and nothing else is changed. So a function sees the scope
it was made in, and never the one that it is called from.
-/

namespace Lox

namespace Store

/-- Whether a scope binds some name to a callable. -/
def Holds (s : Store) (id : ScopeId) (c : Callable) : Prop :=
  ∃ name ref, s.binding? id name = some (.callable ref) ∧ s.callable? ref = some c

/-- The scopes that can be reached from a scope: itself, the scope around each of them, and the
scope that a function closes over which one of them binds. -/
inductive Reachable (s : Store) (e : ScopeId) : ScopeId → Prop where
  | self : Reachable s e e
  | parent {id outer : ScopeId} : Reachable s e id → s.parent? id = some outer →
      Reachable s e outer
  | closure {id scope : ScopeId} {f : FunctionDecl} : Reachable s e id →
      s.Holds id (.function f scope) → Reachable s e scope

/-- What can be reached stays within a set of scopes that has the first one in it, and with each one
the scope around it and the closures of the functions that it binds. -/
theorem Reachable.within {s : Store} {e : ScopeId} {S : ScopeId → Prop} (he : S e)
    (hparent : ∀ id outer, S id → s.parent? id = some outer → S outer)
    (hclosure : ∀ id f scope, S id → s.Holds id (.function f scope) → S scope) {id : ScopeId}
    (h : s.Reachable e id) : S id := by
  induction h with
  | self => exact he
  | parent _ hp ih => exact hparent _ _ ih hp
  | closure _ hf ih => exact hclosure _ _ _ ih hf

/-- A pairing, one to one, of places of the same callables in two stores. What both make from now on
is paired in the order in which it is made. -/
structure Pairing (P : Nat → Nat → Prop) (s s' : Store) : Prop where
  unique : Relator.BiUnique P
  same : ∀ {i i'}, P i i' → s'.callables[i']? = s.callables[i]?
  ahead : ∀ k, P (s.callables.size + k) (s'.callables.size + k)

/-- To be a pairing is no restriction: places of callables that there are can be paired in any way,
one to one, and the pairs that are still to come added. -/
theorem exists_pairing {P : Nat → Nat → Prop} {s s' : Store} (hunique : Relator.BiUnique P)
    (hsame : ∀ i i', P i i' → ∃ c, s.callables[i]? = some c ∧ s'.callables[i']? = some c) :
    ∃ P', Pairing P' s s' ∧ ∀ i i', P i i' → P' i i' := by
  have bounds : ∀ i i', P i i' → i < s.callables.size ∧ i' < s'.callables.size := by
    intro i i' h
    obtain ⟨c, hc, hc'⟩ := hsame i i' h
    exact ⟨(Array.getElem?_eq_some_iff.mp hc).1, (Array.getElem?_eq_some_iff.mp hc').1⟩
  refine ⟨fun i i' => P i i' ∨
    ∃ k, i = s.callables.size + k ∧ i' = s'.callables.size + k, ⟨⟨?_, ?_⟩, ?_, ?_⟩, ?_⟩
  · rintro i j i' (hi | ⟨k, rfl, rfl⟩) (hj | ⟨l, rfl, hl⟩)
    · exact hunique.1 hi hj
    · have := bounds _ _ hi
      omega
    · have := bounds _ _ hj
      omega
    · omega
  · rintro i i' j' (hi | ⟨k, rfl, rfl⟩) (hj | ⟨l, hl, rfl⟩)
    · exact hunique.2 hi hj
    · have := bounds _ _ hi
      omega
    · have := bounds _ _ hj
      omega
    · omega
  · rintro i i' (hi | ⟨k, rfl, rfl⟩)
    · obtain ⟨c, hc, hc'⟩ := hsame i i' hi
      rw [hc, hc']
    · rw [Array.getElem?_eq_none (Nat.le_add_right _ k),
        Array.getElem?_eq_none (Nat.le_add_right _ k)]
  · exact fun k => .inr ⟨k, rfl, rfl⟩
  · exact fun i i' hi => .inl hi

/-- Whether a scope binds the same names in two stores, to values that agree. -/
def AgreesAt (P : Nat → Nat → Prop) (s s' : Store) (id : ScopeId) : Prop :=
  ∀ name, Option.Rel (Value.Agrees P) (s.binding? id name) (s'.binding? id name)

/-- Stores that agree in a view agree at each of its scopes. -/
theorem AgreeIn.agreesAt {w : View} {s s' : Store} (h : s.AgreeIn w s') {id : ScopeId}
    (hid : w.scopes id) : s.AgreesAt w.pairs s' id := fun name =>
  agrees_imp (h.bindings hid name) fun _ _ _ hv => hv.mono fun _ _ hi => hi.1

/-- Where the bindings agree, the same callables are bound. -/
theorem AgreesAt.holds {P : Nat → Nat → Prop} {s s' : Store} {id : ScopeId}
    (h : s.AgreesAt P s' id)
    (hsame : ∀ i i', P i i' → s'.callables[i']? = s.callables[i]?) {c : Callable}
    (hc : s.Holds id c) : s'.Holds id c := by
  obtain ⟨name, ref, hb, hc⟩ := hc
  obtain ⟨i', hb', hi⟩ := exists_callable (hb ▸ h name)
  exact ⟨name, _, hb', (hsame _ i' hi).trans hc⟩

end Store

/-- Two machines that agree on every scope that can be reached from the current one, which is `e`.
They have the same scopes, one around the other in the same way, but those out of reach may bind
anything. No function within reach holds a callable as a literal. -/
structure Machine.AgreeFrom (P : Nat → Nat → Prop) (e : ScopeId) (m m' : Machine) : Prop where
  pairing : Store.Pairing P m.store m'.store
  links : m'.store.links = m.store.links
  bindings : ∀ id, m.store.Reachable e id → m.store.AgreesAt P m'.store id
  literals : ∀ id f scope, m.store.Reachable e id → m.store.Holds id (.function f scope) →
    f.LiteralsAre Value.IsPlain
  current : m.current = e
  current' : m'.current = e
  depth : m'.depth = m.depth
  sink : m'.sink = m.sink
  clock : m'.clock = m.clock
  readings : m'.readings = m.readings

/-- What is true of the machines that a run leaves behind, `n` of `m` and `n'` of `m'`: they agree
from `e` as they did, and in every scope that could be reached or is new; nothing else can be
reached; and each of the other scopes is what it was. -/
structure Machine.StillAgree (P : Nat → Nat → Prop) (e : ScopeId) (m m' n n' : Machine) : Prop where
  agree : n.AgreeFrom P e n'
  bindings : ∀ id, m.store.Reachable e id ∨ m.store.nextScope ≤ id →
    n.store.AgreesAt P n'.store id
  reachable : ∀ id, n.store.Reachable e id → m.store.Reachable e id ∨ m.store.nextScope ≤ id
  untouched : ∀ id, id < m.store.nextScope → ¬ m.store.Reachable e id →
    n.store.scopes[id]? = m.store.scopes[id]? ∧ n'.store.scopes[id]? = m'.store.scopes[id]?

/-- A run that does not end, whatever the fuel. -/
def Run.Diverges (x : Nat → Run α) (m : Machine) : Prop :=
  ∀ fuel, ∃ n, x fuel m = .error .outOfFuel n

/-- A run that depends on what can be reached from a scope, and on nothing else. -/
def Run.Isolated (P : Nat → Nat → Prop) (e : ScopeId) (m m' : Machine) (Q : α → α → Prop)
    (x : Nat → Run α) : Prop :=
  (Run.Diverges x m ↔ Run.Diverges x m') ∧
    ∀ fuel, Run.EndTogether (Machine.StillAgree P e m m') Q (x fuel m) (x fuel m')

namespace Machine.AgreeFrom

variable {P : Nat → Nat → Prop} {e : ScopeId} {m m' : Machine}

/-- A scope within reach binds the same callables in both machines. -/
theorem holds_iff (h : m.AgreeFrom P e m') {id : ScopeId} (hid : m.store.Reachable e id)
    (c : Callable) : m'.store.Holds id c ↔ m.store.Holds id c := by
  have agrees := h.bindings id hid
  have back : m'.store.AgreesAt (flip P) m.store id := fun name => agrees_symm (agrees name)
  constructor
  · exact back.holds fun i i' hi => (h.pairing.same hi).symm
  · exact agrees.holds fun i i' hi => h.pairing.same hi

/-- The same scopes can be reached in both machines. -/
theorem reachable_iff (h : m.AgreeFrom P e m') (id : ScopeId) :
    m'.store.Reachable e id ↔ m.store.Reachable e id := by
  constructor
  · refine fun hid => hid.within .self (fun inner outer hinner hp => ?_) ?_
    · rw [Store.parent?_eq_of_links h.links] at hp
      exact hinner.parent hp
    · exact fun holder f scope hholder hf => hholder.closure ((h.holds_iff hholder _).mp hf)
  · intro hid
    induction hid with
    | self => exact .self
    | parent _ hp ih => exact ih.parent (by rwa [Store.parent?_eq_of_links h.links])
    | closure hholder hf ih => exact ih.closure ((h.holds_iff hholder _).mpr hf)

/-- What is in sight of machines that agree from a scope: the scopes that can be reached, the
callables bound there, and all that is new. -/
def view (h : m.AgreeFrom P e m') : View where
  scopes id := m.store.Reachable e id ∨ m.store.nextScope ≤ id
  callables i := m.store.callables.size ≤ i ∨
    ∃ id name text, m.store.Reachable e id ∧
      m.store.binding? id name = some (.callable ⟨i, text⟩)
  pairs := P
  unique := h.pairing.unique
  hidden id := m.store.scopes[id]?
  hidden' id := m'.store.scopes[id]?

/-- Machines that agree from a scope on agree in the view of that scope. -/
theorem agreeIn (h : m.AgreeFrom P e m') : m.AgreeIn h.view m' where
  store := {
    links := h.links
    ahead := fun id hid => .inr hid
    parents := by
      rintro id outer (hid | hid) hp
      · exact .inl (hid.parent hp)
      · rw [Store.parent?_of_le hid] at hp
        contradiction
    bindings := by
      rintro id (hid | hid) name
      · refine agrees_imp (h.bindings id hid name) fun v v' hb hv => hv.restrict fun i text hi => ?_
        exact .inr ⟨id, name, text, hid, hi ▸ hb⟩
      · have hid' : m'.store.nextScope ≤ id := by rwa [Store.nextScope_eq_of_links h.links]
        rw [Store.binding?_of_le hid, Store.binding?_of_le hid']
        exact .none
    same := h.pairing.same
    pairsAhead := h.pairing.ahead
    callablesAhead := fun i hi => .inl hi
    admitted := by
      rintro i f closure (hi | ⟨id, name, text, hid, hb⟩) hf
      · rw [Array.getElem?_eq_none hi] at hf
        contradiction
      · have held : m.store.Holds id (.function f closure) := ⟨name, ⟨i, text⟩, hb, hf⟩
        exact ⟨h.literals id f closure hid held, .inl (hid.closure held)⟩
    hidden := fun _ => rfl
    hidden' := fun _ => rfl }
  inside := .inl (h.current ▸ .self)
  current := h.current'.trans h.current.symm
  depth := h.depth
  sink := h.sink
  clock := h.clock
  readings := h.readings

/-- What can be reached after a run is in sight. -/
theorem reachable_agreeIn (h : m.AgreeFrom P e m') {n n' : Machine} (hn : n.AgreeIn h.view n')
    {id : ScopeId} (hid : n.store.Reachable e id) : h.view.scopes id := by
  refine hid.within (.inl .self) (fun _ _ => hn.store.parents) ?_
  rintro holder f scope hholder ⟨name, ref, hb, hf⟩
  exact (hn.store.admitted (hn.store.sees_binding hholder hb) hf).2

/-- Machines that agree in the view afterwards still agree from the scope on. -/
theorem stillAgree (h : m.AgreeFrom P e m') {n n' : Machine} (hn : n.AgreeIn h.view n')
    (hcurrent : n.current = m.current) : m.StillAgree P e m' n n' where
  agree := {
    pairing := ⟨h.pairing.unique, hn.store.same, hn.store.pairsAhead⟩
    links := hn.store.links
    bindings := fun id hid => hn.store.agreesAt (h.reachable_agreeIn hn hid)
    literals := by
      rintro id f scope hid ⟨name, ref, hb, hf⟩
      have seen := hn.store.sees_binding (h.reachable_agreeIn hn hid) hb
      exact (hn.store.admitted seen hf).1
    current := hcurrent.trans h.current
    current' := (hn.current.trans hcurrent).trans h.current
    depth := hn.depth
    sink := hn.sink
    clock := hn.clock
    readings := hn.readings }
  bindings id hid := hn.store.agreesAt hid
  reachable id hid := h.reachable_agreeIn hn hid
  untouched id hlt hid := by
    have hout : ¬ h.view.scopes id := fun hin => hin.elim hid (Nat.not_le_of_lt hlt)
    exact ⟨hn.store.hidden hout, hn.store.hidden' hout⟩

end Machine.AgreeFrom

/-! ### The machines that source texts run on -/

/-- The literals in a source text without errors are none of them callables. -/
theorem literalsAre_parseSource {source : String} (h : (Grammar.parseSource source).errors = []) :
    Stmt.AllLiteralsAre Value.IsPlain (Grammar.parseSource source).statements := by
  have made := (Grammar.derives_parseSource h).madeOf (T := fun _ => True) fun _ _ => trivial
  refine Stmt.allLiteralsAre_of_allMadeOf (fun v hv => ?_) _ made
  cases v with
  | callable => exact hv.elim
  | _ => trivial

/-- Whether a callable is native. -/
def Callable.isNative : Callable → Bool
  | .function _ _ => false
  | .native _ _ _ => true

/-- Whether no function in a store holds a callable as a literal. -/
def Store.IsPlain (s : Store) : Prop :=
  ∀ (i : Nat) (f : FunctionDecl) (closure : ScopeId),
    s.callables[i]? = some (.function f closure) → f.LiteralsAre Value.IsPlain

/-- The view to which nothing is hidden, and in which each callable is in its own place. -/
def View.all : View where
  scopes _ := True
  callables _ := True
  pairs := Eq
  unique := ⟨fun _ _ _ h h' => h.trans h'.symm, fun _ _ _ h h' => h.symm.trans h'⟩
  hidden _ := none
  hidden' _ := none

theorem Machine.agreeIn_all {m : Machine} (h : m.store.IsPlain) : m.AgreeIn .all m where
  store := {
    links := rfl
    ahead := fun _ _ => trivial
    parents := fun _ _ => trivial
    bindings := by
      intro id _ name
      cases m.store.binding? id name with
      | none => exact .none
      | some v => exact .some ((Value.Agrees.refl v).restrict fun _ _ _ => trivial)
    same := fun hi => by rw [hi]
    pairsAhead := fun _ => rfl
    callablesAhead := fun _ _ => trivial
    admitted := fun _ hf => ⟨h _ _ _ hf, trivial⟩
    hidden := fun hid => absurd trivial hid
    hidden' := fun hid => absurd trivial hid }
  inside := trivial
  current := rfl
  depth := rfl
  sink := rfl
  clock := rfl
  readings := rfl

/-- A program without callables as literals makes no function that has any. -/
theorem isPlain_interpret {fuel : Nat} {ss : List Stmt} {m : Machine} (hm : m.store.IsPlain)
    (hss : Stmt.AllLiteralsAre Value.IsPlain ss) :
    ((interpret fuel ss).after m).store.IsPlain := by
  have together := (Run.Together.lockstep .all).interpret fuel
    (Stmt.allAlike_refl (fun _ => rfl) ss) hss m m (Machine.agreeIn_all hm)
  simp only [Run.after]
  generalize interpret fuel ss m = r at together ⊢
  cases together with
  | ok _ hn => exact fun _ _ _ hf => (hn.store.admitted trivial hf).1
  | error _ hn => exact fun _ _ _ hf => (hn.store.admitted trivial hf).1

namespace Machine

/-- The initial machine has no callable literals. -/
theorem isPlain_initial (sink : Sink) (clock : Nat → Nat) : (initial sink clock).store.IsPlain := by
  have natives : (initial sink clock).store.callables =
      #[.native "clock" 0 .clock, .native "print" 1 .print] := rfl
  intro i f closure hf
  rw [natives] at hf
  match i with
  | 0 | 1 | i + 2 => simp at hf

/-- Whatever source texts have been run on a new machine, its functions hold no callables. -/
theorem isPlain_runAll {fuel : Nat} {sources : List String} {sink : Sink} {clock : Nat → Nat}
    {n : Machine} {ds : List Diagnostics}
    (h : (initial sink clock).runAll fuel sources = some (ds, n)) : n.store.IsPlain := by
  refine runAll_induction (C := fun m => m.store.IsPlain) ?_ (isPlain_initial sink clock) h
  intro source m n d hm hrun
  rcases runParse_cases hrun with rfl | ⟨clean, rfl⟩
  · exact hm
  · exact isPlain_interpret hm (literalsAre_parseSource clean)

/-- As long as no function has been made, the global scope reaches no other. -/
theorem eq_globalScope_of_reachable {s : Store} (h : s.callables.all Callable.isNative)
    {id : ScopeId} (hid : s.Reachable globalScope id) : id = globalScope := by
  refine hid.within (S := (· = globalScope)) rfl ?_ ?_
  · rintro _ outer rfl hp
    exact absurd (Store.parent?_lt hp) (Nat.not_lt_zero outer)
  · rintro _ f scope rfl ⟨_, ref, _, hf⟩
    obtain ⟨hlt, hf⟩ := Array.getElem?_eq_some_iff.mp hf
    have native := Array.all_eq_true.mp h ref.index hlt
    rw [hf] at native
    contradiction

/-- A definition that is out of reach from the current scope makes no difference there. -/
theorem agreeFrom_define {m : Machine} (hm : m.store.IsPlain) {scope : ScopeId}
    (hscope : ¬ m.store.Reachable m.current scope) (name : String) (value : Value) :
    m.AgreeFrom Eq m.current { m with store := m.store.define scope name value } where
  pairing := {
    unique := View.all.unique
    same := fun hi => by rw [hi]; rfl
    ahead := fun _ => rfl }
  links := m.store.links_define scope name value
  bindings id hid other := by
    have hne : scope ≠ id := fun heq => hscope (heq ▸ hid)
    rw [Store.binding?_define, if_neg fun h => hne h.1]
    cases m.store.binding? id other with
    | none => exact .none
    | some v => exact .some (.refl v)
  literals := by
    rintro id f closure _ ⟨_, ref, _, hf⟩
    exact hm ref.index f closure hf
  current := rfl
  current' := rfl
  depth := rfl
  sink := rfl
  clock := rfl
  readings := rfl

end Machine

/-! ### Runs -/

/-- A run is isolated if machines stay in agreement through it and it restores the frame. -/
theorem Run.Together.isolated {P : Nat → Nat → Prop} {e : ScopeId} {m m' : Machine}
    (h : m.AgreeFrom P e m') {Q S : α → α → Prop} {x : Nat → Run α}
    (hx : ∀ fuel, Run.Together h.view Q (x fuel) (x fuel)) (hQ : ∀ a b, Q a b → S a b)
    (hframe : ∀ fuel, (x fuel).RestoresFrame) : Run.Isolated P e m m' S x := by
  have ends (fuel : Nat) :
      Run.EndTogether (Machine.StillAgree P e m m') S (x fuel m) (x fuel m') := by
    have together := hx fuel m m' h.agreeIn
    have frame := hframe fuel m
    simp only [Run.after] at frame
    generalize x fuel m = r at together frame ⊢
    generalize x fuel m' = r' at together ⊢
    cases together with
    | ok ha hn => exact .ok (hQ _ _ ha) (h.stillAgree hn frame.current)
    | error halt hn => exact .error halt (h.stillAgree hn frame.current)
  refine ⟨forall_congr' fun fuel => ?_, ends⟩
  have together := ends fuel
  generalize x fuel m = r at together ⊢
  generalize x fuel m' = r' at together ⊢
  cases together with
  | ok => simp
  | error halt => simp

/-- It makes no difference from which scope a function is called: its body runs inside the scope
that it closes over. -/
theorem call_withScope (fuel : Nat) (f : FunctionDecl) (closure scope : ScopeId)
    (arguments : List Value) (paren : Token) :
    withScope scope (call fuel (.function f closure) arguments paren) =
      call fuel (.function f closure) arguments paren := by
  cases fuel with
  | zero => rfl
  | succ fuel =>
    have unfolded (m : Machine) : call (fuel + 1) (.function f closure) arguments paren m =
        (if maxDepth ≤ m.depth then fault .stackOverflow paren else do
          let flow ← withCallScope f closure arguments (executeAll fuel f.body)
          return flow.result) m := by
      rw [call]
      rfl
    funext m
    by_cases hdepth : maxDepth ≤ m.depth
    · simp only [withScope, unfolded, if_pos hdepth]
      rfl
    · simp only [withScope, unfolded, if_neg hdepth]
      simp only [bind, EStateM.bind, withCallScope, withCall, withScope]
      generalize executeAll fuel f.body _ = result
      cases result <;> rfl

/-- Lexical isolation: what a statement, a list of statements, an expression or a program does in a
scope depends on nothing but what can be reached from there, if no callable is in it as a literal.
On machines that agree on that, it diverges in both or in neither; it ends in the same way in both,
with the same error or with results that agree; what it leaves behind agrees; and no scope out of
reach is changed. Nor does it depend on the current scope what a function does that is called. -/
theorem lexical_isolation {P : Nat → Nat → Prop} {e : ScopeId} {m m' : Machine}
    (h : m.AgreeFrom P e m') :
    (∀ s : Stmt, s.LiteralsAre Value.IsPlain →
      Run.Isolated P e m m' (Flow.Rel (Value.Agrees P)) (execute · s)) ∧
    (∀ ss : List Stmt, Stmt.AllLiteralsAre Value.IsPlain ss →
      Run.Isolated P e m m' (Flow.Rel (Value.Agrees P)) (executeAll · ss)) ∧
    (∀ x : Expr, x.LiteralsAre Value.IsPlain →
      Run.Isolated P e m m' (Value.Agrees P) (evaluate · x)) ∧
    (∀ ss : List Stmt, Stmt.AllLiteralsAre Value.IsPlain ss →
      Run.Isolated P e m m' Eq (interpret · ss)) ∧
    ∀ fuel f closure scope arguments paren,
      withScope scope (call fuel (.function f closure) arguments paren) =
        call fuel (.function f closure) arguments paren := by
  have agrees : ∀ v v' : Value, v.Agrees h.view.Sees v' → v.Agrees P v' :=
    fun _ _ hv => hv.mono fun _ _ hi => hi.1
  have inStep := (Run.Together.lockstep h.view).within
  have frame := Run.RestoresFrame.property.holdsWithin
  refine ⟨fun s hs => ?_, fun ss hss => ?_, fun x hx => ?_, fun ss hss => ?_, call_withScope⟩
  · exact Run.Together.isolated h (fun fuel => (inStep fuel).execute (s.alike_refl fun _ => rfl) hs)
      (fun _ _ hflow => hflow.mono agrees) fun fuel => (frame fuel).execute s
  · exact Run.Together.isolated h
      (fun fuel => (inStep fuel).executeAll (Stmt.allAlike_refl (fun _ => rfl) ss) hss)
      (fun _ _ hflow => hflow.mono agrees) fun fuel => (frame fuel).executeAll ss
  · exact Run.Together.isolated h
      (fun fuel => (inStep fuel).evaluate (x.alike_refl fun _ => rfl) hx) agrees
      fun fuel => (frame fuel).evaluate x
  · exact Run.Together.isolated h
      (fun fuel => (Run.Together.lockstep h.view).interpret fuel
        (Stmt.allAlike_refl (fun _ => rfl) ss) hss)
      (fun _ _ heq => heq) fun fuel => Run.RestoresFrame.property.interpret fuel ss

/-- The block has left a scope behind that nothing reaches. What its name is bound to makes no
difference to a program, nor does the program change it. -/
theorem lexical_isolation_block :
    ∃ h : ((Machine.initial .unlimited id).runAll 30 ["{ var a = 1; }"]).isSome,
      let m := (Option.get _ h).2
      let m' := { m with store := m.store.define 1 "a" (.number 2) }
      let statements := (Grammar.parseSource
        "fun f() { var a = 3; return fun () { a = a + 1; return a; }; } print(f()());").statements
      m.AgreeFrom Eq 0 m' ∧ Stmt.AllLiteralsAre Value.IsPlain statements ∧
        Run.Isolated Eq 0 m m' Eq (interpret · statements) := by
  refine ⟨by decide +kernel, ?_⟩
  intro m m' statements
  have current : m.current = 0 := by decide +kernel
  have natives : m.store.callables.all Callable.isNative := by decide +kernel
  have plain : m.store.IsPlain := Machine.isPlain_runAll (Option.some_get _).symm
  have unreached : ¬ m.store.Reachable m.current 1 := by
    intro hid
    rw [current] at hid
    exact absurd (Machine.eq_globalScope_of_reachable natives hid) Nat.one_ne_zero
  have agree : m.AgreeFrom Eq 0 m' := current ▸ Machine.agreeFrom_define plain unreached "a" _
  have literals : Stmt.AllLiteralsAre Value.IsPlain statements :=
    literalsAre_parseSource (List.isEmpty_iff.mp (by decide +kernel))
  exact ⟨agree, literals, (lexical_isolation agree).2.2.2.1 statements literals⟩

end Lox
