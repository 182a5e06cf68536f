import Lox.Proofs.Machine.Traces

/-!
# How runs end

Fuel only tells how long a run may go on: a run that comes to its end with some fuel comes
to the same end with more. So how a task ends can be told without naming the fuel, and the
end of a script is made of the ends of its parts.
-/

namespace Lox

namespace Outcome

/-- An end that does not come of the fuel being spent. -/
def IsFinal (o : Outcome α) : Prop := ∀ m, o ≠ .error .outOfFuel m

/-- A result is final. -/
theorem isFinal_ok (a : α) (m : Machine) : IsFinal (.ok a m) :=
  fun _ h => nomatch h

/-- An error is final unless it is the want of fuel. -/
theorem isFinal_error {e : Halt} {m : Machine} :
    IsFinal (.error e m : Outcome α) ↔ e ≠ .outOfFuel := by
  constructor
  · rintro h rfl
    exact h m rfl
  · intro he n h
    exact he (EStateM.Result.error.inj h).1

/-- To change the machine at the end does not change whether it is one. -/
theorem isFinal_onMachine (f : Machine → Machine) (o : Outcome α) :
    (o.onMachine f).IsFinal ↔ o.IsFinal := by
  cases o with
  | ok a m => exact iff_of_true (isFinal_ok a (f m)) (isFinal_ok a m)
  | error e m => rw [onMachine, isFinal_error, isFinal_error]

/-- If the whole ends for another reason than the fuel, so does its first part. -/
theorem IsFinal.of_andThen {o : Outcome α} {f : α → Run β} (h : (o.andThen f).IsFinal) :
    o.IsFinal := by
  cases o with
  | ok a m => exact isFinal_ok a m
  | error e m => exact isFinal_error.mpr (isFinal_error.mp h)

/-- What comes after an end: an error stays, and `Q` tells what follows on a result. -/
def Leads (p : Outcome α) (Q : α → Machine → Outcome β → Prop) (o : Outcome β) : Prop :=
  match p with
  | .ok a m => Q a m o
  | .error e m => o = .error e m

/-- After a result, what follows is that of the result. -/
theorem leads_ok {a : α} {m : Machine} {Q : α → Machine → Outcome β → Prop} {o : Outcome β} :
    Leads (.ok a m) Q o ↔ Q a m o := Iff.rfl

/-- What follows may be said in another way. -/
theorem leads_congr {p : Outcome α} {Q R : α → Machine → Outcome β → Prop} {o : Outcome β}
    (h : ∀ a m, Q a m o ↔ R a m o) : p.Leads Q o ↔ p.Leads R o := by
  cases p with
  | ok a m => exact h a m
  | error e m => exact Iff.rfl

/-- Nothing is done when a part is left that is run where the script is. -/
theorem onMachine_here (o : Outcome α) (m : Machine) : o.onMachine (Place.left m .here) = o :=
  onMachine_id o

end Outcome

/-! ### More fuel -/

/-- A run that ends as another one does, wherever that is not stopped for want of fuel. -/
def Run.Extends (y x : Run α) : Prop := ∀ m, Outcome.IsFinal (x m) → y m = x m

/-- With more fuel a script ends as before, if its tasks do. -/
theorem Script.extends_run {fuel more : Nat}
    (parts : ∀ t : Task, (t.run more).Extends (t.run fuel)) (script : Script α) :
    (script.run more).Extends (script.run fuel) := by
  induction script with
  | done a =>
    intro m _
    rfl
  | step s next ih =>
    intro m final
    rw [run_step] at final ⊢
    rw [run_step]
    cases hs : s.run m with
    | error e n => rfl
    | ok a n =>
      rw [hs] at final
      exact ih a n final
  | part place t next ih =>
    intro m final
    rw [run_part] at final ⊢
    have first : Outcome.IsFinal (t.run fuel (place.entered m)) :=
      (Outcome.isFinal_onMachine _ _).mp final.of_andThen
    rw [run_part, parts t _ first]
    cases ht : t.run fuel (place.entered m) with
    | error e n => rfl
    | ok a n =>
      rw [ht] at final
      exact ih a _ final

/-- More fuel changes nothing in a run that comes to its end. -/
theorem Task.extends_run {fuel more : Nat} (h : fuel ≤ more) (t : Task) :
    (t.run more).Extends (t.run fuel) := by
  induction fuel generalizing more t with
  | zero =>
    intro m final
    rw [t.run_zero] at final
    exact absurd rfl (final m)
  | succ fuel ih =>
    obtain ⟨more, rfl⟩ : ∃ k, more = k + 1 := ⟨more - 1, by omega⟩
    rw [t.run_succ, t.run_succ]
    exact Script.extends_run (ih (Nat.le_of_succ_le_succ h)) t.script

/-! ### Ends -/

/-- With so much fuel, the task comes to this end. -/
def Task.EndsWithin (fuel : Nat) (t : Task) (m : Machine) (o : Outcome t.Result) : Prop :=
  t.run fuel m = o ∧ o.IsFinal

/-- With enough fuel, the task comes to this end. -/
def Task.Ends (t : Task) (m : Machine) (o : Outcome t.Result) : Prop :=
  ∃ fuel, t.EndsWithin fuel m o

/-- With so much fuel, the script comes to this end. -/
def Script.EndsWithin (fuel : Nat) (script : Script α) (m : Machine) (o : Outcome α) : Prop :=
  script.run fuel m = o ∧ o.IsFinal

/-- With enough fuel, the script comes to this end. -/
def Script.Ends (script : Script α) (m : Machine) (o : Outcome α) : Prop :=
  ∃ fuel, script.EndsWithin fuel m o

namespace Task

/-- A task that has ended with some fuel ends so with more. -/
theorem EndsWithin.mono {fuel more : Nat} {t : Task} {m : Machine} {o : Outcome t.Result}
    (h : t.EndsWithin fuel m o) (hle : fuel ≤ more) : t.EndsWithin more m o := by
  obtain ⟨rfl, final⟩ := h
  exact ⟨extends_run hle t m final, final⟩

/-- Without fuel no task ends. -/
theorem endsWithin_zero (t : Task) (m : Machine) (o : Outcome t.Result) :
    ¬ t.EndsWithin 0 m o := by
  rintro ⟨rfl, final⟩
  rw [t.run_zero] at final
  exact final m rfl

/-- A task ends when its script does, with one unit of fuel less. -/
theorem endsWithin_succ {fuel : Nat} {t : Task} {m : Machine} {o : Outcome t.Result} :
    t.EndsWithin (fuel + 1) m o ↔ t.script.EndsWithin fuel m o := by
  rw [EndsWithin, Script.EndsWithin, t.run_succ]

/-- A task ends as its script does. -/
theorem ends_iff {t : Task} {m : Machine} {o : Outcome t.Result} :
    t.Ends m o ↔ t.script.Ends m o := by
  constructor
  · rintro ⟨fuel, h⟩
    cases fuel with
    | zero => exact absurd h (t.endsWithin_zero m o)
    | succ fuel => exact ⟨fuel, endsWithin_succ.mp h⟩
  · rintro ⟨fuel, h⟩
    exact ⟨fuel + 1, endsWithin_succ.mpr h⟩

/-- A task comes to one end only. -/
theorem Ends.unique {t : Task} {m : Machine} {o o' : Outcome t.Result} (h : t.Ends m o)
    (h' : t.Ends m o') : o = o' := by
  obtain ⟨fuel, h⟩ := h
  obtain ⟨fuel', h'⟩ := h'
  have one := (h.mono (Nat.le_max_left fuel fuel')).1
  have other := (h'.mono (Nat.le_max_right fuel fuel')).1
  exact one.symm.trans other

end Task

namespace Script

/-- A script that has ended with some fuel ends so with more. -/
theorem EndsWithin.mono {fuel more : Nat} {script : Script α} {m : Machine} {o : Outcome α}
    (h : script.EndsWithin fuel m o) (hle : fuel ≤ more) : script.EndsWithin more m o := by
  obtain ⟨rfl, final⟩ := h
  exact ⟨extends_run (Task.extends_run hle) script m final, final⟩

/-- A script that is done ends with its result. -/
theorem ends_done {a : α} {m : Machine} {o : Outcome α} :
    (done a).Ends m o ↔ o = .ok a m := by
  constructor
  · rintro ⟨_, rfl, _⟩
    rfl
  · rintro rfl
    exact ⟨0, rfl, Outcome.isFinal_ok a m⟩

/-- A script with a part first ends as the rest does from where the part ends. -/
theorem endsWithin_part {fuel : Nat} {place : Place} {t : Task} {next : t.Result → Script α}
    {m : Machine} {o : Outcome α} :
    (part place t next).EndsWithin fuel m o ↔
      ∃ p, t.EndsWithin fuel (place.entered m) p ∧
        (p.onMachine (place.left m)).Leads (fun a n => (next a).EndsWithin fuel n) o := by
  simp only [EndsWithin, Task.EndsWithin, run_part]
  constructor
  · rintro ⟨rfl, final⟩
    refine ⟨_, ⟨rfl, (Outcome.isFinal_onMachine _ _).mp final.of_andThen⟩, ?_⟩
    cases ht : t.run fuel (place.entered m) with
    | error e n => rfl
    | ok a n =>
      rw [ht] at final
      exact ⟨rfl, final⟩
  · rintro ⟨p, ⟨rfl, final⟩, leads⟩
    cases ht : t.run fuel (place.entered m) with
    | error e n =>
      rw [ht] at final leads
      cases leads
      exact ⟨rfl, Outcome.isFinal_error.mpr (Outcome.isFinal_error.mp final)⟩
    | ok a n =>
      rw [ht] at leads
      exact leads

/-- A part of a script ends in its place, and what follows ends on the machine that it leaves. -/
theorem ends_part {place : Place} {t : Task} {next : t.Result → Script α} {m : Machine}
    {o : Outcome α} :
    (part place t next).Ends m o ↔
      ∃ p, t.Ends (place.entered m) p ∧
        (p.onMachine (place.left m)).Leads (fun a n => (next a).Ends n) o := by
  constructor
  · rintro ⟨fuel, h⟩
    obtain ⟨p, ht, leads⟩ := endsWithin_part.mp h
    refine ⟨p, ⟨fuel, ht⟩, ?_⟩
    cases p with
    | error e n => exact leads
    | ok a n => exact ⟨fuel, leads⟩
  · rintro ⟨p, ⟨fuel, ht⟩, leads⟩
    cases p with
    | error e n => exact ⟨fuel, endsWithin_part.mpr ⟨_, ht, leads⟩⟩
    | ok a n =>
      obtain ⟨fuel', hnext⟩ := leads
      refine ⟨max fuel fuel', endsWithin_part.mpr ⟨_, ht.mono (Nat.le_max_left ..), ?_⟩⟩
      exact hnext.mono (Nat.le_max_right ..)

/-- A script that is one task ends as the task does in its place. -/
theorem ends_whole {place : Place} {t : Task} {m : Machine} {o : Outcome t.Result} :
    (whole place t).Ends m o ↔
      ∃ p, t.Ends (place.entered m) p ∧ o = p.onMachine (place.left m) := by
  rw [whole, ends_part]
  refine exists_congr fun p => and_congr_right fun _ => ?_
  cases p with
  | error e n => exact Iff.rfl
  | ok a n => exact ends_done

/-- A part that is run where the script is. -/
theorem ends_part_here {t : Task} {next : t.Result → Script α} {m : Machine} {o : Outcome α} :
    (part .here t next).Ends m o ↔
      ∃ p, t.Ends m p ∧ p.Leads (fun a n => (next a).Ends n) o := by
  rw [ends_part]
  exact exists_congr fun p => and_congr_right fun _ => by rw [Outcome.onMachine_here]

theorem endsWithin_whole_here {fuel : Nat} {t : Task} {m : Machine} {o : Outcome t.Result} :
    (whole .here t).EndsWithin fuel m o ↔ t.EndsWithin fuel m o := by
  rw [EndsWithin, run_whole]
  exact Iff.rfl

theorem ends_whole_here {t : Task} {m : Machine} {o : Outcome t.Result} :
    (whole .here t).Ends m o ↔ t.Ends m o :=
  exists_congr fun _ => endsWithin_whole_here

end Script

/-! ### Statements -/

namespace Task

variable {m : Machine} {o : Outcome Flow}

/-- An expression is evaluated for what it does. -/
theorem ends_expression {e : Expr} :
    (Task.statement (.expression e)).Ends m o ↔
      ∃ p, (Task.expression e).Ends m p ∧ p.Leads (fun _ n o => o = .ok .normal n) o := by
  rw [ends_iff, script, Script.ofStatement, Script.ends_part_here]
  refine exists_congr fun p => and_congr_right fun _ => Outcome.leads_congr fun _ _ => ?_
  exact Script.ends_done

/-- Statements in a block are run in a scope of their own. -/
theorem ends_block {statements : List Stmt} :
    (Task.statement (.block statements)).Ends m o ↔
      ∃ p, (Task.statements statements).Ends (Place.block.entered m) p ∧
        o = p.onMachine (Place.block.left m) := by
  rw [ends_iff]
  exact Script.ends_whole

/-- A loop as a statement. -/
theorem ends_while {condition : Expr} {body : Stmt} :
    (Task.statement (.while condition body)).Ends m o ↔ (Task.loop condition body).Ends m o := by
  rw [ends_iff]
  exact Script.ends_whole_here

/-- No statements end normally and change nothing. -/
theorem ends_nil : (Task.statements []).Ends m o ↔ o = .ok .normal m := by
  rw [ends_iff]
  exact Script.ends_done

/-- Statements in a row go on after one that ends normally. -/
theorem ends_cons {s : Stmt} {rest : List Stmt} :
    (Task.statements (s :: rest)).Ends m o ↔
      ∃ p, (Task.statement s).Ends m p ∧
        p.Leads (fun flow n o =>
          match flow with
          | .normal => (Task.statements rest).Ends n o
          | flow => o = .ok flow n) o := by
  rw [ends_iff, script, Script.ofStatements, Script.ends_part_here]
  refine exists_congr fun p => and_congr_right fun _ => Outcome.leads_congr fun flow n => ?_
  cases flow with
  | normal => exact Script.ends_whole_here
  | _ => exact Script.ends_done

/-- One statement in a row ends as that statement. -/
theorem ends_singleton {s : Stmt} :
    (Task.statements [s]).Ends m o ↔ (Task.statement s).Ends m o := by
  rw [ends_cons]
  constructor
  · rintro ⟨p, hp, after⟩
    cases p with
    | error e n =>
      cases after
      exact hp
    | ok flow n =>
      cases flow with
      | normal =>
        cases ends_nil.mp after
        exact hp
      | _ =>
        cases after
        exact hp
  · intro h
    refine ⟨o, h, ?_⟩
    cases o with
    | error e n => rfl
    | ok flow n =>
      cases flow with
      | normal => exact ends_nil.mpr rfl
      | _ => rfl

/-! ### Loops -/

/-- What comes of a loop after a turn, if `again` tells what comes of the turns that may follow. -/
def AfterTurn (again : Machine → Outcome Flow → Prop) (flow : Flow) (m : Machine)
    (o : Outcome Flow) : Prop :=
  match flow with
  | .break => o = .ok .normal m
  | .return result => o = .ok (.return result) m
  | .normal | .continue => again m o

/-- What comes of a loop that takes its first turn, or none. -/
def LoopTurn (condition : Expr) (body : Stmt) (again : Machine → Outcome Flow → Prop) (m : Machine)
    (o : Outcome Flow) : Prop :=
  ∃ p, (Task.expression condition).Ends m p ∧
    p.Leads (fun value n o =>
      if value.isTruthy then ∃ q, (Task.statement body).Ends n q ∧ q.Leads (AfterTurn again) o
      else o = .ok .normal n) o

variable {condition : Expr} {body : Stmt}

/-- A loop ends as one turn of it does, and the loop again. -/
theorem ends_loop :
    (Task.loop condition body).Ends m o ↔
      LoopTurn condition body (Task.loop condition body).Ends m o := by
  rw [ends_iff, script, Script.ofLoop, Script.ends_part_here]
  refine exists_congr fun p => and_congr_right fun _ => Outcome.leads_congr fun value n => ?_
  by_cases truthy : value.isTruthy
  · simp only [if_pos truthy]
    rw [Script.ends_part_here]
    refine exists_congr fun q => and_congr_right fun _ => Outcome.leads_congr fun flow k => ?_
    cases flow with
    | normal | «continue» => exact Script.ends_whole_here
    | _ => exact Script.ends_done
  · simp only [if_neg truthy]
    exact Script.ends_done

/-- A loop that comes to an end does so after some number of turns. -/
theorem loop_induction {motive : Machine → Outcome Flow → Prop}
    (turn : ∀ m o, LoopTurn condition body motive m o → motive m o)
    (h : (Task.loop condition body).Ends m o) : motive m o := by
  obtain ⟨fuel, h⟩ := h
  induction fuel generalizing m o with
  | zero => exact absurd h (endsWithin_zero (.loop condition body) m o)
  | succ fuel ih =>
    obtain ⟨p, hp, after⟩ := Script.endsWithin_part.mp (endsWithin_succ.mp h)
    rw [Outcome.onMachine_here] at after
    refine turn m o ⟨p, ⟨fuel, hp⟩, ?_⟩
    cases p with
    | error e n => exact after
    | ok value n =>
      rw [Outcome.leads_ok] at after ⊢
      by_cases truthy : value.isTruthy
      · simp only [if_pos truthy] at after ⊢
        obtain ⟨q, hq, after⟩ := Script.endsWithin_part.mp after
        rw [Outcome.onMachine_here] at after
        refine ⟨q, ⟨fuel, hq⟩, ?_⟩
        cases q with
        | error e k => exact after
        | ok flow k =>
          cases flow with
          | normal | «continue» => exact ih (Script.endsWithin_whole_here.mp after)
          | «break» | «return» => exact after.1.symm
      · simp only [if_neg truthy] at after ⊢
        exact after.1.symm

end Task

end Lox
