import Lox.Proofs.Machine.Histories
import Lox.Proofs.Machine.Visits

/-!
# The callables that a run makes

A callable is made whenever a declaration or a lambda is evaluated, and at no other moment.
So throughout a session the callables of the store are those that it started with, and
after them those that have been made so far, in the order in which they were made.
-/

namespace Lox

/-- The callable that is made at a moment. -/
def Moment.made? (p : Moment) : Option Callable :=
  match p.act with
  | .step (.makeFunction f) => some (.function f p.machine.current)
  | _ => none

/-- The callables that are made at the moments of a history. -/
def made (history : List Moment) : List Callable := history.filterMap Moment.made?

/-- Callables are made in the order of the moments. -/
theorem made_append (history later : List Moment) :
    made (history ++ later) = made history ++ made later :=
  List.filterMap_append

theorem made_cons (p : Moment) (history : List Moment) :
    made (p :: history) = p.made?.toList ++ made history := by
  rw [made, List.filterMap_cons]
  cases p.made? <;> rfl

def Machine.callables (m : Machine) : List Callable := m.store.callables.toList

/-- Whether the machines of a history have the callables that it started with and those that have
been made since, and which ones there are after it. -/
def Logs : List Callable → List Moment → List Callable → Prop
  | start, [], last => last = start
  | start, p :: history, last =>
    p.machine.callables = start ∧ Logs (start ++ p.made?.toList) history last

namespace Logs

variable {start middle last : List Callable} {history later : List Moment}

/-- Logs follow one another. -/
theorem append (h : Logs start history middle) (h' : Logs middle later last) :
    Logs start (history ++ later) last := by
  induction history generalizing start with
  | nil => exact h ▸ h'
  | cons p history ih => exact ⟨h.1, ih h.2⟩

/-- The callables at the end are those at the beginning and the ones made. -/
theorem last_eq (h : Logs start history last) : last = start ++ made history := by
  induction history generalizing start with
  | nil =>
    rw [made, List.filterMap_nil, List.append_nil]
    exact h
  | cons p history ih => rw [ih h.2, List.append_assoc, made_cons]

/-- What there is at a moment has been made before it. -/
theorem callables_eq {p : Moment} (h : Logs start (history ++ p :: later) last) :
    p.machine.callables = start ++ made history := by
  induction history generalizing start with
  | nil =>
    rw [made, List.filterMap_nil, List.append_nil]
    exact h.1
  | cons q history ih => rw [ih h.2, List.append_assoc, made_cons]

/-- A run goes on with what a part of it gives. -/
theorem andThen {o : Outcome α} (h : Logs start history o.machine.callables) {f : α → Run β}
    {g : α → Machine → List Moment}
    (hf : ∀ a n, Logs n.callables (g a n) (Outcome.machine (f a n)).callables) :
    Logs start (history ++ o.moments g) (o.andThen f).machine.callables := by
  cases o with
  | ok a n => exact h.append (hf a n)
  | error e n => exact h.append rfl

end Logs

/-- A step adds the callable that it makes. -/
theorem logs_step (s : Step) (m : Machine) :
    Logs m.callables [⟨.step s, m⟩] (Outcome.machine (s.run m)).callables := by
  refine ⟨rfl, ?_⟩
  show Machine.callables _ = _
  rw [Machine.callables, s.callables_run]
  cases s with
  | makeFunction f => exact Array.toList_push
  | _ => exact (List.append_nil _).symm

/-- A script logs the callables that it makes, if its tasks do. -/
private theorem logs_script {fuel : Nat} {inside : Task → Machine → List Moment}
    (parts : ∀ t m, Logs m.callables (inside t m) (Outcome.machine (t.run fuel m)).callables)
    (script : Script α) (m : Machine) :
    Logs m.callables (script.trace fuel inside m)
      (Outcome.machine (script.run fuel m)).callables := by
  induction script generalizing m with
  | done a => exact rfl
  | step s next ih =>
    rw [Script.run_step, Script.trace]
    exact (logs_step s m).andThen ih
  | part place t next ih =>
    have entered : (place.entered m).callables = m.callables := by
      rw [Machine.callables, place.callables_entered, Machine.callables]
    have left (n : Machine) : (place.left m n).callables = n.callables := by
      rw [Machine.callables, place.store_left, Machine.callables]
    have first : Logs m.callables (inside t (place.entered m))
        (Outcome.onMachine (place.left m) (t.run fuel (place.entered m))).machine.callables := by
      rw [Outcome.machine_onMachine, left, ← entered]
      exact parts t (place.entered m)
    rw [Script.run_part, Script.trace]
    exact first.andThen ih

/-- What a task makes is in its trace. -/
theorem Task.logs (fuel : Nat) (t : Task) (m : Machine) :
    Logs m.callables (t.trace fuel m) (Outcome.machine (t.run fuel m)).callables := by
  induction fuel generalizing t m with
  | zero =>
    rw [t.run_zero]
    exact rfl
  | succ fuel ih =>
    have done := logs_script ih t.script m
    rw [t.run_succ]
    refine ⟨rfl, ?_⟩
    have nothing : (⟨.task t, m⟩ : Moment).made?.toList = [] := rfl
    rw [nothing, List.append_nil]
    exact done

namespace Machine

open Grammar

/-- What a source text makes is in its trace. -/
theorem logs_source (fuel : Nat) (source : String) (m : Machine) :
    Logs m.callables (sourceTrace fuel source m) (m.afterSource fuel source).callables := by
  unfold sourceTrace afterSource
  by_cases clean : (parseSource source).errors.isEmpty
  · rw [if_pos clean, if_pos clean, Run.after_eq_machine, Script.run_ofProgram]
    exact logs_script (Task.logs fuel) _ m
  · rw [if_neg clean, if_neg clean]
    exact rfl

/-- What a session makes is in its trace. -/
theorem logs_session (fuel : Nat) (sources : List String) (m : Machine) :
    ∃ last, Logs m.callables (sessionTrace fuel sources m) last := by
  induction sources generalizing m with
  | nil => exact ⟨m.callables, rfl⟩
  | cons source rest ih =>
    have first := logs_source fuel source m
    rw [sessionTrace]
    cases hr : m.run fuel source with
    | none => exact ⟨_, first.append rfl⟩
    | some r =>
      rw [← (run_eq_some hr).1] at first
      obtain ⟨last, later⟩ := ih r.2
      exact ⟨last, first.append later⟩

end Machine

end Lox
