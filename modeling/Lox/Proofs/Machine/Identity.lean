import Lox.Proofs.Machine.Blame
import Lox.Proofs.Machine.Origins
import Lox.Proofs.Machine.Transfer

/-!
# The identity of callables

Whatever has happened in a session so far, a callable that is held anywhere comes from one
evaluation of a declaration or a lambda, or is a native function; two of them are equal
exactly if they come from the same one, and what is made next is equal to none of them.
-/

namespace Lox

open Machine

/-- The machines that a history comes to: the one it starts with, the one at each moment, and those
that its steps and the tasks that it has done leave behind. -/
inductive Reached (start : Machine) (history : List Moment) : Machine → Prop where
  | start : Reached start history start
  | moment : p ∈ history → Reached start history p.machine
  | step : ⟨.step s, m⟩ ∈ history → Reached start history (Outcome.machine (s.run m))
  | task {t : Task} : before ++ t.trace (fuel + 1) m <+: history →
      Reached start history (Outcome.machine (t.run (fuel + 1) m))

/-- The values that are held in a history: those that are bound on a machine that it comes to, those
that are passed to a call, and those that a task has given. -/
inductive Held (start : Machine) (history : List Moment) : Value → Prop where
  | bound : Reached start history m → m.store.binding? scope name = some v → Held start history v
  | passed : ⟨.task (.call callable arguments paren), m⟩ ∈ history → v ∈ arguments →
      Held start history v
  | returned {t : Task} {a : t.Result} : before ++ t.trace (fuel + 1) m <+: history →
      t.run (fuel + 1) m = .ok a n → v ∈ t.given a → Held start history v

/-- Whether the comparison of two values gives `true`. -/
def Value.ComparesEqual (v w : Value) : Prop :=
  ∀ operator : Token, operator.kind = .equalEqual →
    Operator.binary operator v w = .ok (.bool true)

/-- Values compare equal where the operator says so. -/
theorem Value.comparesEqual_iff {v w : Value} : v.ComparesEqual w ↔ v.equals w = true := by
  have compared (operator : Token) (hk : operator.kind = .equalEqual) :
      Operator.binary operator v w = .ok (.bool (v.equals w)) := by
    simp only [Operator.binary, hk]
  constructor
  · intro h
    have given := (compared (.plain .equalEqual "==" 1) rfl).symm.trans (h _ rfl)
    exact Value.bool.inj (Except.ok.inj given)
  · intro h operator hk
    rw [compared operator hk, h]

/-- What is known of callables in a history that starts on a machine. -/
structure Identified (start : Machine) (history : List Moment) : Prop where
  /-- What is held has been made once. -/
  origin : ∀ ref, Held start history (.callable ref) →
    ∃! o, ∃ c, Origin.Gives history o (.callable ref) c
  /-- Two callables are equal exactly if they have been made by the same evaluation. -/
  equal_iff : ∀ ref ref', Held start history (.callable ref) →
    Held start history (.callable ref') →
      ((Value.callable ref).ComparesEqual (.callable ref') ↔
        ∃ o c, Origin.Gives history o (.callable ref) c ∧
          Origin.Gives history o (.callable ref') c)
  /-- A callable leads to the declaration and the closure that it was made with, wherever it is
  bound, and nowhere to others. -/
  same : ∀ ref, Held start history (.callable ref) →
    ∃ o c, Origin.Gives history o (.callable ref) c ∧ ∀ m, Reached start history m →
      (∀ c' ∈ m.store.callable? ref, c' = c) ∧
      ∀ scope name, m.store.binding? scope name = some (.callable ref) →
        m.store.callable? ref = some c
  /-- What is made is equal to nothing that there has been before, nor to anything that is bound. -/
  fresh : ∀ before f m after v n, history = before ++ ⟨.step (.makeFunction f), m⟩ :: after →
    makeFunction f m = .ok v n →
      (∀ w, Held start before w → ¬ w.ComparesEqual v) ∧
      ∀ scope name w, m.store.binding? scope name = some w → ¬ w.ComparesEqual v
  unchanged : ∀ p ∈ history, p.HandsOn

/-! ### Histories of sessions -/

/-- Whether the callables at each moment of a history are the native ones and those that have been
made so far, and everything is known there. -/
structure IsRegular (history : List Moment) : Prop where
  logs : ∃ last, Logs nativeCallables history last
  known : ∀ p ∈ history, p.Known
  plain : ∀ p ∈ history, p.IsPlain

theorem Logs.left {start last : List Callable} {history later : List Moment}
    (h : Logs start (history ++ later) last) : ∃ middle, Logs start history middle := by
  induction history generalizing start with
  | nil => exact ⟨start, rfl⟩
  | cons p history ih =>
    obtain ⟨middle, hmiddle⟩ := ih h.2
    exact ⟨middle, h.1, hmiddle⟩

/-- An earlier part of a regular history is regular. -/
theorem IsRegular.earlier {history whole : List Moment} (h : IsRegular whole)
    (hearlier : history <+: whole) : IsRegular history := by
  obtain ⟨later, rfl⟩ := hearlier
  obtain ⟨last, logs⟩ := h.logs
  exact ⟨logs.left, fun p hp => h.known p (List.mem_append_left _ hp),
    fun p hp => h.plain p (List.mem_append_left _ hp)⟩

namespace Machine

/-- The initial machine knows the values that it holds. -/
theorem knowing_initial (sink : Sink) (clock : Nat → Nat) : (initial sink clock).Knowing where
  bound := by
    have installed {s : Store} (h : ∀ scope x v, s.binding? scope x = some v → s.Knows v)
        (name : String) (arity : Nat) (action : Action) :
        ∀ scope x v, (installNative s name arity action).binding? scope x = some v →
          (installNative s name arity action).Knows v := by
      have callables : (installNative s name arity action).callables =
          (s.addCallable (.native name arity action)).callables := rfl
      have persist : s.CallablesPersist (installNative s name arity action) :=
        .of_append Array.toList_push
      intro scope x v hb
      rw [installNative, Store.binding?_define] at hb
      split at hb
      · cases hb
        exact (Store.CallablesPersist.of_eq callables).knows (s.knows_addCallable _)
      · exact persist.knows (h scope x v hb)
    have bare : ∀ scope x v, (Store.empty.addScope none).binding? scope x = some v →
        (Store.empty.addScope none).Knows v := by
      intro scope x v hb
      rw [Store.binding?_addScope, Store.binding?_of_le (Nat.zero_le scope)] at hb
      contradiction
    exact installed (installed bare "clock" 0 .clock) "print" 1 .print
  current := (isRooted_initial sink clock).current

/-- The history of a session is regular. -/
theorem isRegular_session (fuel : Nat) (sources : List String) (sink : Sink) (clock : Nat → Nat) :
    IsRegular (sessionTrace fuel sources (initial sink clock)) := by
  have logs := logs_session fuel sources (initial sink clock)
  rw [callables_initial] at logs
  have plain : ∀ p ∈ sessionTrace fuel sources (initial sink clock), p.IsPlain := by
    rintro p hp t hact v rfl
    have holds := (wellFormed_session fuel sink clock (List.Subset.refl sources)).1 p hp
    exact Value.MadeOf.isPlain (holds.covers _ hact)
  exact ⟨logs, known_session fuel plain (knowing_initial sink clock), plain⟩

end Machine

/-! ### What is held has been made -/

/-- Whether a value that is a callable is written as the callable that has its place among those
that have been made. -/
def Recorded (history : List Moment) (v : Value) : Prop :=
  ∀ ref, v = .callable ref →
    ∃ c, (nativeCallables ++ made history)[ref.index]? = some c ∧ ref.text = c.text

section

variable {history past : List Moment} {m : Machine} {v : Value} {sink : Sink} {clock : Nat → Nat}

/-- What there is of callables on a machine is still there later. -/
theorem getElem?_of_callable? (hm : m.callables = nativeCallables ++ made past)
    (hpast : past <+: history) {ref : CallableRef} {c : Callable}
    (h : m.store.callable? ref = some c) :
    (nativeCallables ++ made history)[ref.index]? = some c := by
  obtain ⟨later, rfl⟩ := hpast
  rw [Store.callable?, ← Array.getElem?_toList] at h
  have hc : (nativeCallables ++ made past)[ref.index]? = some c := hm ▸ h
  rw [made_append, ← List.append_assoc,
    List.getElem?_append_left (List.getElem?_eq_some_iff.mp hc).1, hc]

/-- A value known to a machine was recorded before. -/
theorem recorded_of_knows (hm : m.callables = nativeCallables ++ made past)
    (hpast : past <+: history) (h : m.store.Knows v) : Recorded history v := by
  intro ref heq
  obtain ⟨c, hc, htext⟩ := h ref heq
  exact ⟨c, getElem?_of_callable? hm hpast hc, htext⟩

namespace IsRegular

variable (h : IsRegular history)
include h

/-- At each moment there are the callables that have been made before. -/
theorem callables_eq {before after : List Moment} {p : Moment}
    (hp : before ++ p :: after = history) :
    p.machine.callables = nativeCallables ++ made before := by
  subst hp
  obtain ⟨last, logs⟩ := h.logs
  exact logs.callables_eq

/-- A task that has been done knows what it has given, and has made what is in its trace. -/
theorem task {fuel : Nat} {t : Task} {before : List Moment}
    (hpast : before ++ t.trace (fuel + 1) m <+: history) :
    Outcome.Known t.given (t.run (fuel + 1) m) (t.trace (fuel + 1) m) ∧
      (Outcome.machine (t.run (fuel + 1) m)).callables =
        nativeCallables ++ made (before ++ t.trace (fuel + 1) m) := by
  obtain ⟨later, hlater⟩ := hpast
  have trace : t.trace (fuel + 1) m ⊆ history := by
    rw [← hlater]
    exact fun p hp => List.mem_append_left _ (List.mem_append_right _ hp)
  have begun : ⟨.task t, m⟩ ∈ t.trace (fuel + 1) m := List.mem_cons_self
  have first := h.known _ (trace begun)
  have start : m.callables = nativeCallables ++ made before := by
    rw [List.append_assoc] at hlater
    exact h.callables_eq hlater
  refine ⟨Task.known _ (fun p hp => h.plain p (trace hp)) first.machine first.values, ?_⟩
  rw [(t.logs (fuel + 1) m).last_eq, start, made_append, List.append_assoc]

/-- A machine that a history comes to has the callables that have been made by then. -/
theorem reached (hm : Reached (initial sink clock) history m) :
    m.Knowing ∧ ∃ past, past <+: history ∧ m.callables = nativeCallables ++ made past := by
  cases hm with
  | start => exact ⟨knowing_initial sink clock, [], List.nil_prefix, rfl⟩
  | @moment p hp =>
    obtain ⟨before, after, rfl⟩ := List.append_of_mem hp
    exact ⟨(h.known p hp).machine, before, List.prefix_append _ _, h.callables_eq rfl⟩
  | @step s m hp =>
    have known := h.known _ hp
    obtain ⟨before, after, rfl⟩ := List.append_of_mem hp
    refine ⟨s.knowing_run known.machine known.values, before ++ [⟨.step s, m⟩], ⟨after, ?_⟩, ?_⟩
    · rw [List.append_assoc, List.singleton_append]
    · rw [(logs_step s m).last_eq, made_append, ← List.append_assoc, ← h.callables_eq rfl]
  | task hpast => exact ⟨(h.task hpast).1.machine, _, hpast, (h.task hpast).2⟩

/-- A value held at a moment of a regular history is recorded in it. -/
theorem held (hv : Held (initial sink clock) history v) : Recorded history v := by
  cases hv with
  | bound hm hb =>
    obtain ⟨knowing, past, hpast, hcallables⟩ := h.reached hm
    exact recorded_of_knows hcallables hpast (knowing.bound _ _ _ hb)
  | passed hp hv =>
    have known := h.known _ hp
    obtain ⟨before, after, rfl⟩ := List.append_of_mem hp
    exact recorded_of_knows (h.callables_eq rfl) (List.prefix_append _ _) (known.values v hv)
  | @returned before fuel m n _ t a hpast hrun hv =>
    obtain ⟨known, hcallables⟩ := h.task hpast
    rw [hrun] at hcallables
    exact recorded_of_knows hcallables hpast (known.gives a n hrun v hv)

/-- What is recorded has an origin. -/
theorem exists_origin {ref : CallableRef} (hv : Recorded history (.callable ref)) :
    ∃ o c, Origin.Gives history o (.callable ref) c ∧
      (nativeCallables ++ made history)[ref.index]? = some c := by
  obtain ⟨last, logs⟩ := h.logs
  obtain ⟨c, hc, htext⟩ := hv ref rfl
  obtain ⟨o, v, hgives, hplace⟩ := Origin.exists_gives hc
  have hgiven := hgives.getElem?
  rw [hplace] at hgiven
  cases hgiven.symm.trans hc
  have heq := hgives.eq_callable logs
  rw [hplace, ← htext] at heq
  exact ⟨o, c, heq ▸ hgives, hc⟩

/-- A callable has one origin in a regular history. -/
theorem origin_unique {ref : CallableRef} {o o' : Origin} {c c' : Callable}
    (ho : o.Gives history (.callable ref) c) (ho' : o'.Gives history (.callable ref) c') :
    o = o' := by
  obtain ⟨last, logs⟩ := h.logs
  refine ho.unique ho' ?_
  have place := Value.callable.inj (ho.eq_callable logs)
  have place' := Value.callable.inj (ho'.eq_callable logs)
  exact congrArg CallableRef.index (place.symm.trans place')

end IsRegular

/-- What is made is equal to nothing that refers to what there was before. -/
theorem not_comparesEqual_new {f : FunctionDecl} {n : Machine} {w : Value}
    (hw : ∀ ref, w = .callable ref → ref.index < m.store.callables.size)
    (hv : makeFunction f m = .ok v n) : ¬ w.ComparesEqual v := by
  rw [Value.comparesEqual_iff]
  cases hv
  cases w with
  | callable ref =>
    have hlt := hw ref rfl
    intro hequal
    have same : ref.index = m.store.callables.size := by
      simpa [Value.equals, Store.nextRef] using hequal
    omega
  | _ => exact Bool.false_ne_true

/-- In every session, whatever has happened in it so far, the identity of a callable is that of its
making. -/
theorem callables_identified (fuel : Nat) (sources : List String) (sink : Sink)
    (clock : Nat → Nat) (history : List Moment)
    (hhistory : history <+: sessionTrace fuel sources (initial sink clock)) :
    Identified (initial sink clock) history := by
  have h : IsRegular history := (isRegular_session fuel sources sink clock).earlier hhistory
  refine ⟨?_, ?_, ?_, ?_, fun p hp => (h.known p hp).handsOn⟩
  · intro ref hv
    obtain ⟨o, c, ho, -⟩ := h.exists_origin (h.held hv)
    exact ⟨o, ⟨c, ho⟩, fun o' ⟨c', ho'⟩ => h.origin_unique ho' ho⟩
  · intro ref ref' hv hv'
    rw [Value.comparesEqual_iff]
    constructor
    · intro hequal
      have same : ref.index = ref'.index := by simpa [Value.equals] using hequal
      obtain ⟨c, hc, htext⟩ := h.held hv ref rfl
      obtain ⟨c', hc', htext'⟩ := h.held hv' ref' rfl
      rw [same] at hc
      cases hc.symm.trans hc'
      obtain rfl : ref = ref' := by
        cases ref
        cases ref'
        simp_all
      obtain ⟨o, c, ho, -⟩ := h.exists_origin (h.held hv)
      exact ⟨o, c, ho, ho⟩
    · rintro ⟨o, c, ho, ho'⟩
      obtain ⟨last, logs⟩ := h.logs
      rw [ho.eq_callable logs, ho'.eq_callable logs]
      exact beq_self_eq_true _
  · intro ref hv
    obtain ⟨o, c, ho, hc⟩ := h.exists_origin (h.held hv)
    refine ⟨o, c, ho, fun m hm => ?_⟩
    obtain ⟨knowing, past, hpast, hcallables⟩ := h.reached hm
    have same : ∀ c' ∈ m.store.callable? ref, c' = c := fun c' hc' =>
      Option.some.inj ((getElem?_of_callable? hcallables hpast hc').symm.trans hc)
    refine ⟨same, fun scope name hb => ?_⟩
    obtain ⟨c', hc', -⟩ := knowing.bound scope name _ hb ref rfl
    exact same c' hc' ▸ hc'
  · rintro before f m after v n rfl hmake
    have size : m.store.callables.size = (nativeCallables ++ made before).length := by
      rw [← h.callables_eq rfl, Machine.callables, Array.length_toList]
    have before' : IsRegular before := h.earlier (List.prefix_append _ _)
    refine ⟨fun w hw => not_comparesEqual_new (fun ref href => ?_) hmake,
      fun scope name w hb => not_comparesEqual_new (fun ref href => ?_) hmake⟩
    · obtain ⟨c, hc, -⟩ := before'.held hw ref href
      rw [size]
      exact (List.getElem?_eq_some_iff.mp hc).1
    · have known := h.known _ (List.mem_append_right before List.mem_cons_self)
      obtain ⟨c, hc, -⟩ := known.machine.bound scope name w hb ref href
      exact (Array.getElem?_eq_some_iff.mp hc).1

/-- A function that makes a function is called twice. The two are different, and a copy is not. -/
theorem callables_identified_twins :
    let sources := ["fun make() \x7b fun inner() \x7b\x7d return inner; \x7d",
      "var a = make(); var b = make(); var c = a; print(a == b); print(a == c);"]
    ∃ h : ((initial .unlimited id).runAll 40 sources).isSome,
      (Option.get _ h).2.sink.written = "falsetrue" ∧
      (made (sessionTrace 40 sources (initial .unlimited id))).map Callable.name =
        ["make", "inner", "inner"] ∧
      Identified (initial .unlimited id) (sessionTrace 40 sources (initial .unlimited id)) := by
  intro sources
  refine ⟨by decide +kernel, by decide +kernel, by decide +kernel, ?_⟩
  exact callables_identified 40 sources .unlimited id _ (List.prefix_refl _)

end

end Lox
