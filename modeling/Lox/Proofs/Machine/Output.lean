import Lox.Proofs.Machine.Traces

/-!
# What a run prints

On a sink that never fails every print succeeds, and nothing but prints changes the sink.
So at each moment of a run the sink is what the prints before it have made of the sink at
the beginning.
-/

namespace Lox

namespace Sink

/-- Whether no write and no flush ever fails. -/
structure NeverFails (s : Sink) : Prop where
  writes : s.writeLimit = none
  flushes : s.flushLimit = none

/-- The sink after a print that does not fail. -/
def printed (s : Sink) (text : String) : Sink :=
  { s with
    written := s.written ++ text
    writes := if text.isEmpty then s.writes else s.writes + 1
    flushes := s.flushes + 1 }

/-- The sink after prints of some texts. -/
def printedAll (s : Sink) (texts : List String) : Sink := texts.foldl printed s

/-- A sink that never fails does not fail after a text either. -/
theorem NeverFails.printed {s : Sink} (h : s.NeverFails) (text : String) :
    (s.printed text).NeverFails := ⟨h.writes, h.flushes⟩

theorem NeverFails.printedAll {s : Sink} (h : s.NeverFails) (texts : List String) :
    (s.printedAll texts).NeverFails := by
  induction texts generalizing s with
  | nil => exact h
  | cons text texts ih => exact ih (h.printed text)

theorem NeverFails.print {s : Sink} (h : s.NeverFails) (text : String) :
    s.print text = (.ok (), s.printed text) := by
  have hwrites : within s.writeLimit s.writes = true := by rw [h.writes]; rfl
  have hflushes : within s.flushLimit s.flushes = true := by rw [h.flushes]; rfl
  by_cases hempty : text.isEmpty
  · have hsame : s.written ++ text = s.written := by
      rw [String.isEmpty_iff.mp hempty, String.append_empty]
    simp only [Sink.print, Sink.printed, flush, if_pos hempty, hflushes, if_true, hsame]
  · simp only [Sink.print, Sink.printed, flush, if_neg hempty, hwrites, hflushes, if_true]

/-- Texts are printed one after another. -/
theorem printedAll_append (s : Sink) (texts rest : List String) :
    s.printedAll (texts ++ rest) = (s.printedAll texts).printedAll rest :=
  List.foldl_append

/-- What is written is what was written and the texts in order. -/
theorem written_printedAll (s : Sink) (texts : List String) :
    (s.printedAll texts).written = s.written ++ String.join texts := by
  induction texts generalizing s with
  | nil => exact String.append_empty.symm
  | cons text texts ih =>
    rw [String.join_cons, ← String.append_assoc]
    exact ih (s.printed text)

/-- The texts that are written: there is no write for an empty one. -/
def nonempty (texts : List String) : List String := texts.filter (!·.isEmpty)

/-- There is a write for each text that is not empty. -/
theorem writes_printedAll (s : Sink) (texts : List String) :
    (s.printedAll texts).writes = s.writes + (nonempty texts).length := by
  induction texts generalizing s with
  | nil => rfl
  | cons text texts ih =>
    have hrest := ih (s.printed text)
    simp only [printedAll, List.foldl_cons, nonempty] at hrest ⊢
    rw [hrest, List.filter_cons]
    by_cases hempty : text.isEmpty
    · simp [printed, hempty]
    · simp only [printed, hempty, Bool.not_false, if_true, List.length_cons, Bool.false_eq_true,
        if_false]
      omega

/-- There is a flush for each text. -/
theorem flushes_printedAll (s : Sink) (texts : List String) :
    (s.printedAll texts).flushes = s.flushes + texts.length := by
  induction texts generalizing s with
  | nil => rfl
  | cons text texts ih =>
    have hrest := ih (s.printed text)
    have hfirst : (s.printed text).flushes = s.flushes + 1 := rfl
    simp only [printedAll, List.foldl_cons, List.length_cons] at hrest ⊢
    rw [hrest, hfirst]
    omega

/-- Empty texts add nothing to what is written. -/
theorem join_nonempty (texts : List String) :
    String.join (nonempty texts) = String.join texts := by
  induction texts with
  | nil => rfl
  | cons text texts ih =>
    rw [nonempty, List.filter_cons]
    by_cases hempty : text.isEmpty
    · rw [if_neg (by simp [hempty]), String.join_cons, String.isEmpty_iff.mp hempty,
        String.empty_append]
      exact ih
    · rw [if_pos (by simp [hempty]), String.join_cons, String.join_cons]
      exact congrArg (text ++ ·) ih

end Sink

namespace Moment

/-- What is printed at a moment, if anything is, and the parenthesis that the call ends with. -/
def print? (p : Moment) : Option (String × Token) :=
  match p.act with
  | .step (.performAction .print (value :: _) paren) => some (value.text, paren)
  | _ => none

def text? (p : Moment) : Option String := p.print?.map (·.1)

/-- A moment that prints is that of the native, and its text is that of the first argument. -/
theorem act_of_print? {p : Moment} {text : String} {paren : Token}
    (h : p.print? = some (text, paren)) :
    ∃ value rest, p.act = .step (.performAction .print (value :: rest) paren) ∧
      value.text = text := by
  simp only [print?] at h
  split at h
  · next value rest paren' hact =>
    obtain ⟨rfl, rfl⟩ := Prod.mk.inj (Option.some.inj h)
    exact ⟨value, rest, hact, rfl⟩
  · contradiction

end Moment

/-- The texts that are printed at some moments. -/
def textsOf (moments : List Moment) : List String := moments.filterMap Moment.text?

/-- The texts of moments come in their order. -/
theorem textsOf_append (moments rest : List Moment) :
    textsOf (moments ++ rest) = textsOf moments ++ textsOf rest := List.filterMap_append

namespace Step

/-- A step that prints nothing does the same whatever the sink is, and leaves it as it is. -/
theorem run_withSink {s : Step} {m : Machine} (h : Moment.print? ⟨.step s, m⟩ = none) (k : Sink) :
    s.run { m with sink := k } = Outcome.onMachine (fun n => { n with sink := k }) (s.run m) := by
  cases s with
  | ofExcept result => cases result <;> rfl
  | readVariable name =>
    simp only [run, Lox.readVariable]
    cases m.store.lookup m.current name.lexeme <;> rfl
  | declareVariable name value =>
    simp only [run, Lox.declareVariable]
    cases m.store.declare? m.current name.lexeme value <;> rfl
  | assignVariable name value =>
    simp only [run, Lox.assignVariable]
    cases m.store.assign? m.current name.lexeme value <;> rfl
  | makeFunction declaration => rfl
  | callee value count paren =>
    cases value with
    | callable ref =>
      simp only [run, Lox.callee]
      cases m.store.callable? ref with
      | none => rfl
      | some callable =>
        by_cases hcount : count = callable.arity
        · simp only [if_pos hcount]
          rfl
        · simp only [if_neg hcount]
          rfl
    | _ => rfl
  | performAction action arguments paren =>
    cases action with
    | nothing | clock => rfl
    | print =>
      cases arguments with
      | nil => rfl
      | cons value rest => contradiction
  | enter paren =>
    rw [run_enter, run_enter]
    by_cases hdepth : maxDepth ≤ m.depth
    · simp only [if_pos hdepth]
      rfl
    · simp only [if_neg hdepth]
      rfl

/-- A step that prints nothing leaves the sink alone. -/
theorem sink_run_of_print?_eq_none {s : Step} {m : Machine}
    (h : Moment.print? ⟨.step s, m⟩ = none) : (Outcome.machine (s.run m)).sink = m.sink := by
  have same := congrArg (fun o => (Outcome.machine o).sink) (run_withSink h m.sink)
  simp only [Outcome.machine_onMachine] at same
  exact same

/-- On a sink that never fails a print adds its text to the sink. -/
theorem sink_run (s : Step) {m : Machine} (hm : m.sink.NeverFails) :
    (Outcome.machine (s.run m)).sink = m.sink.printedAll (Moment.text? ⟨.step s, m⟩).toList := by
  rw [Moment.text?]
  cases hprint : Moment.print? ⟨.step s, m⟩ with
  | none => exact sink_run_of_print?_eq_none hprint
  | some print =>
    obtain ⟨value, rest, hact, htext⟩ := Moment.act_of_print? hprint
    rw [Act.step.inj hact]
    simp only [run, Lox.performAction, Sink.printFirst, hm.print, htext]
    rfl

end Step

/-- At each of the moments the sink is the one at the beginning with the texts before that moment
printed, and in the end with all of them. -/
structure PrintsIn (s : Sink) (moments : List Moment) (last : Sink) : Prop where
  before : ∀ earlier p later, moments = earlier ++ p :: later →
    p.machine.sink = s.printedAll (textsOf earlier)
  last : last = s.printedAll (textsOf moments)

namespace PrintsIn

variable {s t u : Sink} {moments rest : List Moment}

/-- No moments print nothing. -/
theorem nil (s : Sink) : PrintsIn s [] s :=
  ⟨fun _ _ _ h => absurd h.symm (List.append_ne_nil_of_right_ne_nil _ (List.cons_ne_nil _ _)), rfl⟩

/-- Texts that are printed in a row are printed in order. -/
theorem append (h : PrintsIn s moments t) (h' : PrintsIn t rest u) :
    PrintsIn s (moments ++ rest) u where
  before earlier p later heq := by
    rcases List.append_eq_append_iff.mp heq with ⟨more, rfl, hrest⟩ | ⟨more, hmoments, hp⟩
    · rw [textsOf_append, Sink.printedAll_append, ← h.last]
      exact h'.before more p later hrest
    · cases more with
      | nil =>
        rw [List.append_nil] at hmoments
        have hlater := h'.before [] p later hp.symm
        rwa [h.last, hmoments] at hlater
      | cons q more =>
        obtain ⟨rfl, -⟩ := List.cons_eq_cons.mp hp
        exact h.before earlier p more hmoments
  last := by rw [textsOf_append, Sink.printedAll_append, ← h.last, h'.last]

/-- One moment prints its text, if it has one. -/
theorem singleton {p : Moment} (hp : p.machine.sink = s)
    (ht : t = s.printedAll p.text?.toList) : PrintsIn s [p] t where
  before earlier q later heq := by
    cases earlier with
    | nil =>
      obtain ⟨rfl, -⟩ := List.cons_eq_cons.mp heq
      exact hp
    | cons r earlier =>
      obtain ⟨-, h⟩ := List.cons_eq_cons.mp heq
      exact absurd h.symm (List.append_ne_nil_of_right_ne_nil _ (List.cons_ne_nil _ _))
  last := by
    rw [ht]
    cases h : p.text? <;> simp [textsOf, h]

end PrintsIn

/-- The sink stays the same where a run enters a place, and where it leaves one. -/
theorem Place.sink_entered (place : Place) (m : Machine) : (place.entered m).sink = m.sink := by
  cases place <;> rfl

/-- To leave a place prints nothing. -/
theorem Place.sink_left (place : Place) (m n : Machine) : (place.left m n).sink = n.sink := by
  cases place <;> rfl

/-- A script prints what its moments say, if its tasks do. -/
theorem Script.prints {fuel : Nat} {inside : Task → Machine → List Moment}
    (parts : ∀ t m, m.sink.NeverFails →
      PrintsIn m.sink (inside t m) (Outcome.machine (t.run fuel m)).sink)
    (script : Script α) {m : Machine} (hm : m.sink.NeverFails) :
    PrintsIn m.sink (script.trace fuel inside m) (Outcome.machine (script.run fuel m)).sink := by
  induction script generalizing m with
  | done a => exact .nil m.sink
  | step s next ih =>
    have first : PrintsIn m.sink [⟨.step s, m⟩] (Outcome.machine (s.run m)).sink :=
      .singleton rfl (s.sink_run hm)
    rw [run_step, trace]
    cases hr : s.run m with
    | error e n => rwa [hr] at first
    | ok a n =>
      rw [hr] at first
      have hn : n.sink.NeverFails := first.last ▸ hm.printedAll _
      exact first.append (ih a hn)
  | part place t next ih =>
    have hentered := place.sink_entered m
    have first := parts t (place.entered m) (hentered ▸ hm)
    rw [hentered] at first
    rw [run_part, trace]
    cases hr : t.run fuel (place.entered m) with
    | error e n =>
      rw [hr, Outcome.machine, ← place.sink_left m n] at first
      exact first.append (.nil _)
    | ok a n =>
      rw [hr, Outcome.machine, ← place.sink_left m n] at first
      have hn : (place.left m n).sink.NeverFails := first.last ▸ hm.printedAll _
      exact first.append (ih a hn)

/-- A task prints what its moments say. -/
theorem Task.prints (fuel : Nat) (t : Task) {m : Machine} (hm : m.sink.NeverFails) :
    PrintsIn m.sink (t.trace fuel m) (Outcome.machine (t.run fuel m)).sink := by
  induction fuel generalizing t m with
  | zero =>
    rw [t.run_zero]
    exact .nil m.sink
  | succ fuel ih =>
    have first : PrintsIn m.sink [⟨.task t, m⟩] m.sink := .singleton rfl rfl
    rw [t.run_succ, trace]
    exact first.append (t.script.prints (fun t m hm => ih t hm) hm)

/-- What a program prints is what it leaves in the sink. -/
theorem prints_program (fuel : Nat) (statements : List Stmt) {m : Machine}
    (hm : m.sink.NeverFails) :
    PrintsIn m.sink (programTrace fuel statements m)
      (Outcome.machine (interpret fuel statements m)).sink := by
  rw [Script.run_ofProgram]
  exact (Script.ofProgram statements).prints (fun t _ hm => t.prints fuel hm) hm

end Lox
