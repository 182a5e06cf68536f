import Lox.Machine.Session
import Lox.Proofs.Machine.Output

/-!
# What has been written before

Programs write to the sink and never look at what is in it. So a run does the same whatever
has been written before it, and what it writes comes after that: taking the output away
between two programs takes away nothing else.
-/

namespace Lox

/-- The same sink with a text written before all that is in it. -/
def Sink.preceded (text : String) (s : Sink) : Sink := { s with written := text ++ s.written }

/-- A text printed before makes no difference to what is printed after it. -/
theorem Sink.print_preceded (text before : String) (s : Sink) :
    (s.preceded before).print text = ((s.print text).1, (s.print text).2.preceded before) := by
  by_cases hempty : text.isEmpty
  · simp only [print, if_pos hempty]
    rfl
  · by_cases hwithin : within s.writeLimit s.writes
    · simp only [print, if_neg hempty, preceded, if_pos hwithin, flush, String.append_assoc]
      rfl
    · have refused : ¬ within (s.preceded before).writeLimit (s.preceded before).writes := hwithin
      simp only [print, if_neg hempty, if_neg hwithin, if_neg refused]
      rfl

/-- The same machine with a text written before all that has been written. -/
def Machine.preceded (text : String) (m : Machine) : Machine :=
  { m with sink := m.sink.preceded text }

/-- Changes of the machine that agree on it have the same outcome. -/
theorem Outcome.onMachine_congr {f g : Machine → Machine} {o : Outcome α}
    (h : f o.machine = g o.machine) : o.onMachine f = o.onMachine g := by
  cases o with
  | ok a m => exact congrArg (EStateM.Result.ok a) h
  | error e m => exact congrArg (EStateM.Result.error e) h

/-- A step does the same after other output. -/
theorem Step.run_preceded (s : Step) (text : String) (m : Machine) :
    s.run (m.preceded text) = Outcome.onMachine (Machine.preceded text) (s.run m) := by
  cases hprint : Moment.print? ⟨.step s, m⟩ with
  | none =>
    have same := sink_run_of_print?_eq_none hprint
    refine (run_withSink hprint (m.sink.preceded text)).trans (Outcome.onMachine_congr ?_)
    rw [Machine.preceded, same]
  | some print =>
    obtain ⟨value, rest, hact, -⟩ := Moment.act_of_print? hprint
    rw [Act.step.inj hact]
    simp only [run, Lox.performAction, Sink.printFirst, Machine.preceded, Sink.print_preceded]
    cases (m.sink.print value.text).1 <;> rfl

theorem Place.entered_preceded (place : Place) (text : String) (m : Machine) :
    place.entered (m.preceded text) = (place.entered m).preceded text := by
  cases place <;> rfl

theorem Place.left_preceded (place : Place) (text : String) (m n : Machine) :
    place.left (m.preceded text) (n.preceded text) = (place.left m n).preceded text := by
  cases place <;> rfl

theorem Script.run_preceded {fuel : Nat} {text : String}
    (parts : ∀ (t : Task) (m : Machine),
      t.run fuel (m.preceded text) = Outcome.onMachine (Machine.preceded text) (t.run fuel m))
    (script : Script α) (m : Machine) :
    script.run fuel (m.preceded text) =
      Outcome.onMachine (Machine.preceded text) (script.run fuel m) := by
  induction script generalizing m with
  | done a => rfl
  | step s next ih =>
    rw [run_step, run_step, s.run_preceded]
    cases s.run m with
    | ok a n => exact ih a n
    | error e n => rfl
  | part place t next ih =>
    rw [run_part, run_part, place.entered_preceded, parts]
    cases t.run fuel (place.entered m) with
    | ok a n =>
      simp only [Outcome.onMachine, Outcome.andThen, place.left_preceded]
      exact ih a _
    | error e n => simp only [Outcome.onMachine, Outcome.andThen, place.left_preceded]

/-- A task does the same whatever has been written before. -/
theorem Task.run_preceded (fuel : Nat) (text : String) (t : Task) (m : Machine) :
    t.run fuel (m.preceded text) = Outcome.onMachine (Machine.preceded text) (t.run fuel m) := by
  induction fuel generalizing t m with
  | zero => rw [t.run_zero]; rfl
  | succ fuel ih =>
    rw [t.run_succ]
    exact t.script.run_preceded ih m

namespace Machine

/-- So does a parsed program, and so it does if it is not run for its errors. -/
theorem runParse_preceded (fuel : Nat) (parse : Grammar.Parse) (text : String) (m : Machine) :
    (m.preceded text).runParse fuel parse =
      (m.runParse fuel parse).map fun r => (r.1, r.2.preceded text) := by
  by_cases clean : parse.errors.isEmpty
  · have tasks (t : Task) (m : Machine) := t.run_preceded fuel text m
    have same := (Script.ofProgram parse.statements).run_preceded tasks m
    simp only [runParse, if_pos clean, interpret, Script.run_ofProgram, same]
    cases (Script.ofProgram parse.statements).run fuel m with
    | ok a n => rfl
    | error halt n => cases halt <;> rfl
  · simp only [runParse, if_neg clean]
    rfl

/-- The same machine with nothing written. -/
def drained (m : Machine) : Machine := { m with sink := m.sink.drained }

/-- A drained machine, preceded by what was written, is the machine itself. -/
theorem preceded_drained (m : Machine) : m.drained.preceded m.sink.written = m := by
  simp only [preceded, drained, Sink.preceded, Sink.drained, String.append_empty]

theorem drained_preceded (text : String) (m : Machine) :
    (m.preceded text).drained = m.drained := rfl

end Machine

end Lox
