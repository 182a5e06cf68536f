import Lox.Proofs.Machine.Scripts

/-!
# The trace of a run

A trace lists the tasks that a run begins and the steps that it takes, in their order,
each with the machine at that moment. A contract says of the tasks of a kind that they
begin only tasks of that kind, what they give, and what holds of the machine throughout;
it holds of all runs if it holds of each script whose parts keep to it.
-/

namespace Lox

/-- What a run is about to do. -/
inductive Act where
  | task (t : Task)
  | step (s : Step)

structure Moment where
  act : Act
  machine : Machine

/-- The moments that follow on a result. -/
def Outcome.moments (o : Outcome α) (f : α → Machine → List Moment) : List Moment :=
  match o with
  | .ok a m => f a m
  | .error _ _ => []

/-- The moments of a script, given those of its parts. -/
def Script.trace (fuel : Nat) (inside : Task → Machine → List Moment) :
    Script α → Machine → List Moment
  | done _, _ => []
  | step s next, m =>
    ⟨.step s, m⟩ :: Outcome.moments (s.run m) fun a n => (next a).trace fuel inside n
  | part place t next, m =>
    inside t (place.entered m) ++
      Outcome.moments (Outcome.onMachine (place.left m) (t.run fuel (place.entered m)))
        fun a n => (next a).trace fuel inside n

/-- The moments of a task. It does not begin without fuel. -/
def Task.trace : Nat → Task → Machine → List Moment
  | 0, _, _ => []
  | fuel + 1, t, m => ⟨.task t, m⟩ :: t.script.trace fuel (trace fuel) m

/-- The moments of a program. -/
def programTrace (fuel : Nat) (statements : List Stmt) : Machine → List Moment :=
  (Script.ofProgram statements).trace fuel (Task.trace fuel)

namespace Script

/-- A step is run, and then what follows its result. -/
theorem run_step (fuel : Nat) (s : Step) (next : s.Result → Script α) (m : Machine) :
    (step s next).run fuel m = Outcome.andThen (s.run m) fun a => (next a).run fuel :=
  Run.bind_apply _ _ m

/-- A part is run in its place, and then what follows its result. -/
theorem run_part (fuel : Nat) (place : Place) (t : Task) (next : t.Result → Script α)
    (m : Machine) :
    (part place t next).run fuel m =
      Outcome.andThen (Outcome.onMachine (place.left m) (t.run fuel (place.entered m)))
        fun a => (next a).run fuel := by
  rw [← Place.run_apply]
  exact Run.bind_apply _ _ m

end Script

/-! ### Contracts -/

/-- What is said of all tasks of a kind: a property of machines that holds all the time, and what
each of the tasks gives. -/
structure Contract where
  invariant : Machine → Prop
  covers : Task → Prop
  gives : (t : Task) → t.Result → Prop

/-- Whether a script keeps to a contract and gives something with a property, as long as its parts
keep to the contract. -/
def Script.Keeps (C : Contract) (Q : α → Prop) : Script α → Prop
  | done a => Q a
  | step s next =>
    ∀ m, C.invariant m → C.invariant (Outcome.machine (s.run m)) ∧
      ∀ a n, s.run m = .ok a n → (next a).Keeps C Q
  | part _ t next => C.covers t ∧ ∀ a, C.gives t a → (next a).Keeps C Q

/-- A program keeps to a contract that covers its statements. -/
theorem Script.keeps_ofProgram {C : Contract} {statements : List Stmt}
    (ht : ∀ s ∈ statements, C.covers (.statement s)) :
    (Script.ofProgram statements).Keeps C fun _ => True := by
  induction statements with
  | nil => trivial
  | cons s rest ih =>
    obtain ⟨hs, hrest⟩ := List.forall_mem_cons.mp ht
    exact ⟨hs, fun _ _ => ih hrest⟩

/-- A script that is one task keeps a contract that covers the task. -/
theorem Script.keeps_whole {C : Contract} {place : Place} {t : Task} (ht : C.covers t)
    {Q : t.Result → Prop} (hQ : ∀ a, C.gives t a → Q a) : (whole place t).Keeps C Q :=
  ⟨ht, hQ⟩

namespace Contract

/-- What has to be shown of a contract for all runs to keep to it. -/
structure Sound (C : Contract) : Prop where
  entered : ∀ (place : Place) (m : Machine), C.invariant m → C.invariant (place.entered m)
  left : ∀ (place : Place) (m n : Machine), C.invariant m → C.invariant n →
    C.invariant (place.left m n)
  script : ∀ t, C.covers t → t.script.Keeps C (C.gives t)

/-- Whether a moment of a run is as a contract has it. -/
structure Allows (C : Contract) (p : Moment) : Prop where
  invariant : C.invariant p.machine
  covers : ∀ t, p.act = .task t → C.covers t

/-- Whether a run keeps to a contract: at its end, in what it gives, and at its moments. -/
structure Kept (C : Contract) (Q : α → Prop) (o : Outcome α) (moments : List Moment) : Prop where
  invariant : C.invariant o.machine
  gives : ∀ a n, o = .ok a n → Q a
  moments : ∀ p ∈ moments, C.Allows p

theorem Kept.error {C : Contract} {Q : α → Prop} {e : Halt} {m : Machine} (hm : C.invariant m) :
    C.Kept Q (.error e m) [] :=
  ⟨hm, (fun _ _ h => nomatch h), fun _ h => nomatch h⟩

/-- A run goes on with what a part of it gives. -/
theorem Kept.andThen {C : Contract} {P : α → Prop} {Q : β → Prop} {o : Outcome α}
    {moments : List Moment} (h : C.Kept P o moments) {f : α → Run β}
    {g : α → Machine → List Moment}
    (hf : ∀ a n, P a → C.invariant n → C.Kept Q (f a n) (g a n)) :
    C.Kept Q (o.andThen f) (moments ++ o.moments g) := by
  cases o with
  | error e n =>
    refine ⟨h.invariant, (fun _ _ h => nomatch h), ?_⟩
    exact List.forall_mem_append.mpr ⟨h.moments, fun _ h => nomatch h⟩
  | ok a n =>
    have later := hf a n (h.gives a n rfl) h.invariant
    exact ⟨later.invariant, later.gives, List.forall_mem_append.mpr ⟨h.moments, later.moments⟩⟩

variable {C : Contract} (sound : C.Sound)
include sound

/-- What is left of a place that a run has entered. -/
theorem Sound.onMachine_left (place : Place) {Q : α → Prop} {o : Outcome α}
    {moments : List Moment} {m : Machine} (hm : C.invariant m) (h : C.Kept Q o moments) :
    C.Kept Q (o.onMachine (place.left m)) moments := by
  refine ⟨?_, fun a n ho => ?_, h.moments⟩
  · rw [Outcome.machine_onMachine]
    exact sound.left place m _ hm h.invariant
  · cases o with
    | ok b k => exact (EStateM.Result.ok.inj ho).1 ▸ h.gives b k rfl
    | error e k => contradiction

/-- A script that keeps to a contract runs so, if its parts do. -/
theorem Sound.kept_script {fuel : Nat} {inside : Task → Machine → List Moment}
    (parts : ∀ t m, C.covers t → C.invariant m → C.Kept (C.gives t) (t.run fuel m) (inside t m))
    {Q : α → Prop} {script : Script α} (h : script.Keeps C Q) {m : Machine} (hm : C.invariant m) :
    C.Kept Q (script.run fuel m) (script.trace fuel inside m) := by
  induction script generalizing m with
  | done a =>
    refine ⟨hm, fun b n ho => ?_, fun p hp => nomatch hp⟩
    exact (EStateM.Result.ok.inj ho).1 ▸ h
  | step s next ih =>
    obtain ⟨hstep, hnext⟩ := h m hm
    have first : C.Kept (fun a => (next a).Keeps C Q) (s.run m) [⟨.step s, m⟩] := by
      refine ⟨hstep, hnext, List.forall_mem_singleton.mpr ⟨hm, fun t ht => nomatch ht⟩⟩
    rw [Script.run_step, Script.trace]
    exact first.andThen fun a n ha hn => ih a ha hn
  | part place t next ih =>
    have first := parts t _ h.1 (sound.entered place m hm)
    rw [Script.run_part, Script.trace]
    exact (sound.onMachine_left place hm first).andThen fun a n ha hn => ih a (h.2 a ha) hn

/-- A sound contract is kept to by the runs of all tasks that it covers. -/
theorem Sound.kept (fuel : Nat) {t : Task} {m : Machine} (ht : C.covers t) (hm : C.invariant m) :
    C.Kept (C.gives t) (t.run fuel m) (t.trace fuel m) := by
  induction fuel generalizing t m with
  | zero =>
    rw [t.run_zero]
    exact .error hm
  | succ fuel ih =>
    obtain ⟨hend, hgives, hmoments⟩ := sound.kept_script (fun _ _ => ih) (sound.script t ht) hm
    rw [t.run_succ, Task.trace]
    refine ⟨hend, hgives, List.forall_mem_cons.mpr ⟨⟨hm, ?_⟩, hmoments⟩⟩
    exact fun u hu => Act.task.inj hu ▸ ht

/-- So are they by those of programs of such statements. -/
theorem Sound.kept_program (fuel : Nat) {statements : List Stmt} {m : Machine}
    (ht : ∀ s ∈ statements, C.covers (.statement s)) (hm : C.invariant m) :
    C.Kept (fun _ => True) (interpret fuel statements m) (programTrace fuel statements m) := by
  rw [Script.run_ofProgram]
  exact sound.kept_script (fun _ _ => sound.kept fuel) (Script.keeps_ofProgram ht) hm

end Contract

end Lox
