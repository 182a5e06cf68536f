import Lox.Proofs.Machine.Holding

/-!
# Where callables come from

A callable comes from the installation of a native function, or from one evaluation of a
declaration or a lambda in the history of a session. The one that is made as the `n`-th has the
`n`-th place in every store from then on, and no two origins have the same place.
-/

namespace Lox

/-- What has made a callable: the installation of one of the native functions, or the evaluation of
a declaration or a lambda at one of the moments of a history. -/
inductive Origin where
  | native (index : Nat)
  | evaluation (moment : Nat)

namespace Origin

/-- Whether an origin has given a value, and which callable it has made. -/
inductive Gives (history : List Moment) : Origin → Value → Callable → Prop where
  | native : Machine.natives[i]? = some (name, arity, action) →
      Machine.initialStore.binding? Machine.globalScope name = some v →
      Gives history (.native i) v (.native name arity action)
  | evaluation : history[i]? = some ⟨.step (.makeFunction f), m⟩ → makeFunction f m = .ok v n →
      Gives history (.evaluation i) v (.function f m.current)

/-- How many callables have been made before. -/
def place (history : List Moment) : Origin → Nat
  | native i => i
  | evaluation i => Machine.natives.length + (made (history.take i)).length

end Origin

namespace Machine

/-- The native functions, as they are installed. -/
def nativeCallables : List Callable :=
  natives.map fun (name, arity, action) => .native name arity action

/-- The initial machine has the natives and no other callable. -/
theorem callables_initial (sink : Sink) (clock : Nat → Nat) :
    (initial sink clock).callables = nativeCallables := rfl

/-- The names of the native functions are bound to them. -/
theorem binding?_initialStore {i : Nat} {name : String} {arity : Nat} {action : Action}
    (h : natives[i]? = some (name, arity, action)) :
    initialStore.binding? globalScope name = some (.callable ⟨i, "<native fn>"⟩) := by
  match i with
  | 0 | 1 =>
    cases h
    rfl
  | i + 2 => contradiction

end Machine

/-! ### Makings and their places -/

/-- A callable is made where a function is, in the current scope. -/
theorem Moment.made?_eq_some {p : Moment} {c : Callable} (h : p.made? = some c) :
    ∃ f, p.act = .step (.makeFunction f) ∧ c = .function f p.machine.current := by
  unfold made? at h
  split at h
  · next f hact => exact ⟨f, hact, (Option.some.inj h).symm⟩
  · contradiction

section

variable {history : List Moment} {i j : Nat} {p : Moment} {c : Callable}

/-- A moment that makes a callable adds it to those made before. -/
theorem made_take_succ (hp : history[i]? = some p) (hc : p.made? = some c) :
    made (history.take (i + 1)) = made (history.take i) ++ [c] := by
  rw [List.take_add_one, hp, Option.toList_some, made_append, made_cons, hc]
  rfl

/-- What there is at a moment has been made before it. -/
theorem Logs.callables_take {start last : List Callable} (logs : Logs start history last)
    (hp : history[i]? = some p) : p.machine.callables = start ++ made (history.take i) := by
  obtain ⟨hi, rfl⟩ := List.getElem?_eq_some_iff.mp hp
  have split : history.take i ++ history[i] :: history.drop (i + 1) = history := by
    rw [List.getElem_cons_drop, List.take_append_drop]
  rw [← split] at logs
  exact logs.callables_eq

/-- Of two moments, the later one has more before it, by what the earlier one makes. -/
theorem length_made_take_lt (hp : history[i]? = some p) (hc : p.made? = some c) (h : i < j) :
    (made (history.take i)).length < (made (history.take j)).length := by
  obtain ⟨between, hbetween⟩ := List.take_prefix_take_left (l := history) (Nat.succ_le_of_lt h)
  rw [← hbetween, made_append, made_take_succ hp hc]
  simp only [List.length_append, List.length_singleton]
  omega

/-- Whatever is made is made at a moment. -/
theorem exists_moment_of_made {k : Nat} (h : (made history)[k]? = some c) :
    ∃ i p, history[i]? = some p ∧ p.made? = some c ∧ (made (history.take i)).length = k := by
  induction history generalizing k with
  | nil => contradiction
  | cons q history ih =>
    rw [made_cons] at h
    cases hq : q.made? with
    | none =>
      rw [hq, Option.toList_none, List.nil_append] at h
      obtain ⟨i, p, hp, hc, hk⟩ := ih h
      refine ⟨i + 1, p, hp, hc, ?_⟩
      rw [List.take_succ_cons, made_cons, hq, Option.toList_none, List.nil_append, hk]
    | some c' =>
      rw [hq, Option.toList_some, List.singleton_append] at h
      cases k with
      | zero =>
        cases h
        exact ⟨0, q, rfl, hq, rfl⟩
      | succ k =>
        obtain ⟨i, p, hp, hc, hk⟩ := ih h
        refine ⟨i + 1, p, hp, hc, ?_⟩
        rw [List.take_succ_cons, made_cons, hq, Option.toList_some, List.singleton_append,
          List.length_cons, hk]

end

namespace Origin

open Machine

variable {history : List Moment} {o o' : Origin} {v v' : Value} {c c' : Callable}

/-- The callable has the place of its origin among those that are made. -/
theorem Gives.getElem? (h : o.Gives history v c) :
    (nativeCallables ++ made history)[o.place history]? = some c := by
  cases h with
  | @native i name arity action v hnative _ =>
    have hc : nativeCallables[i]? = some (.native name arity action) := by
      rw [nativeCallables, List.getElem?_map, hnative]
      rfl
    exact (List.getElem?_append_left (List.getElem?_eq_some_iff.mp hc).1).trans hc
  | @evaluation i f m v n hp _ =>
    obtain ⟨later, hlater⟩ := List.take_prefix (i + 1) history
    have hmade : made history = made (history.take i) ++ .function f m.current :: made later := by
      conv_lhs => rw [← hlater]
      rw [made_append, made_take_succ hp rfl, List.append_assoc, List.singleton_append]
    have natives : nativeCallables.length = natives.length := List.length_map _
    rw [place, ← natives, List.getElem?_append_right (Nat.le_add_right _ _),
      Nat.add_sub_cancel_left, hmade, List.getElem?_append_right (Nat.le_refl _), Nat.sub_self,
      List.getElem?_cons_zero]

/-- The value refers to this place, and is written as the callable. -/
theorem Gives.eq_callable {last : List Callable} (logs : Logs nativeCallables history last)
    (h : o.Gives history v c) : v = .callable ⟨o.place history, c.text⟩ := by
  cases h with
  | native hnative hbound =>
    exact Option.some.inj (hbound.symm.trans (binding?_initialStore hnative))
  | @evaluation i f m v n hp hmake =>
    cases hmake
    have size : m.store.callables.size = place history (.evaluation i) := by
      have length := congrArg List.length (logs.callables_take hp)
      rw [List.length_append, nativeCallables, List.length_map] at length
      rw [← Array.length_toList]
      exact length
    rw [Store.nextRef, size]

/-- No two origins have the same place. -/
theorem Gives.unique (h : o.Gives history v c) (h' : o'.Gives history v' c')
    (same : o.place history = o'.place history) : o = o' := by
  cases h with
  | native hnative _ =>
    have hlt := (List.getElem?_eq_some_iff.mp hnative).1
    cases h' with
    | native => exact congrArg Origin.native same
    | evaluation =>
      simp only [place] at same
      omega
  | @evaluation i _ _ _ _ hp _ =>
    cases h' with
    | native hnative _ =>
      have hlt := (List.getElem?_eq_some_iff.mp hnative).1
      simp only [place] at same
      omega
    | @evaluation i' _ _ _ _ hp' _ =>
      simp only [place] at same
      rcases Nat.lt_trichotomy i i' with hlt | rfl | hlt
      · have := length_made_take_lt hp rfl hlt
        omega
      · rfl
      · have := length_made_take_lt hp' rfl hlt
        omega

/-- Everything that is made has an origin. -/
theorem exists_gives {k : Nat} {c : Callable}
    (h : (nativeCallables ++ made history)[k]? = some c) :
    ∃ o v, Gives history o v c ∧ place history o = k := by
  have natives : nativeCallables.length = natives.length := List.length_map _
  rcases Nat.lt_or_ge k nativeCallables.length with hlt | hle
  · rw [List.getElem?_append_left hlt, nativeCallables, List.getElem?_map,
      Option.map_eq_some_iff] at h
    obtain ⟨⟨name, arity, action⟩, hnative, rfl⟩ := h
    exact ⟨.native k, _, .native hnative (binding?_initialStore hnative), rfl⟩
  · rw [List.getElem?_append_right hle] at h
    obtain ⟨i, ⟨act, m⟩, hp, hc, hlength⟩ := exists_moment_of_made h
    obtain ⟨f, rfl, rfl⟩ := Moment.made?_eq_some hc
    refine ⟨.evaluation i, _, .evaluation hp rfl, ?_⟩
    rw [place, hlength, ← natives, Nat.add_sub_cancel' hle]

end Origin

end Lox
