import Lox.Machine.Session
import Lox.Proofs.Machine.Output

/-!
# Runs on a failing sink

A sink that fails from some write or some flush on lets a run go its way up to the first
print that is refused, and there the run ends. So what happens on it is what happens on a
sink that never fails, cut off at that print: no step is taken that would not have been
taken, and none after it.
-/

namespace Lox

/-- How many attempts of a sink succeed, and what the ones that fail are reported as. -/
structure Limits where
  writes : Option Nat
  flushes : Option Nat
  writeError : String
  flushError : String

/-- A sink with other limits. -/
def Sink.under (l : Limits) (s : Sink) : Sink :=
  { s with
    writeLimit := l.writes
    flushLimit := l.flushes
    writeError := l.writeError
    flushError := l.flushError }

def Machine.under (l : Limits) (m : Machine) : Machine := { m with sink := m.sink.under l }

def Moment.under (l : Limits) (p : Moment) : Moment := { p with machine := p.machine.under l }

/-- What a print is refused with, if it is. -/
def Limits.refusal? (l : Limits) (s : Sink) (text : String) : Option String :=
  if !text.isEmpty && !Sink.within l.writes s.writes then some l.writeError
  else if Sink.within l.flushes s.flushes then none
  else some l.flushError

/-- The error that a run ends with at a moment because of the limits, if it does. -/
def Moment.refusal? (l : Limits) (p : Moment) : Option RuntimeError :=
  p.print?.bind fun (text, paren) =>
    (l.refusal? p.machine.sink text).map fun message => (Fault.native message).atToken paren

/-! ### One step -/

section

variable {l : Limits}

/-- Under limits a print fails with what it is refused with, and only then. -/
theorem Sink.print_under_result (s : Sink) (text : String) :
    ((s.under l).print text).1 =
      match l.refusal? s text with
      | none => .ok ()
      | some message => .error message := by
  cases hempty : text.isEmpty <;> cases hwrite : within l.writes s.writes <;>
    cases hflush : within l.flushes s.flushes <;>
    simp only [Sink.print, Sink.under, Sink.flush, Limits.refusal?, hempty, hwrite, hflush,
      Bool.not_true, Bool.not_false, Bool.and_true, Bool.and_false, Bool.false_eq_true, if_true,
      if_false]

/-- A text whose write is not refused is written, also if the flush after it is. -/
theorem Sink.print_under_sink {s : Sink} {text : String}
    (h : text.isEmpty ∨ within l.writes s.writes) :
    ((s.under l).print text).2 = (s.printed text).under l := by
  by_cases hempty : text.isEmpty
  · have hsame : s.written ++ text = s.written := by
      rw [String.isEmpty_iff.mp hempty, String.append_empty]
    simp only [Sink.print, Sink.printed, Sink.under, Sink.flush, if_pos hempty, hsame]
  · have hwrite : within l.writes s.writes = true := h.resolve_left hempty
    simp only [Sink.print, Sink.printed, Sink.under, Sink.flush, if_neg hempty, hwrite, if_true]

/-- A limited sink takes a text that it does not refuse as the other sink does. -/
theorem Sink.print_under {s : Sink} {text : String} (h : l.refusal? s text = none) :
    (s.under l).print text = (.ok (), (s.printed text).under l) := by
  have hwrite : text.isEmpty ∨ within l.writes s.writes := by
    simp only [Limits.refusal?] at h
    split at h
    · contradiction
    · next hwrite =>
      by_cases hempty : text.isEmpty
      · exact .inl hempty
      · exact .inr (by simpa [hempty] using hwrite)
  refine Prod.ext ?_ (print_under_sink hwrite)
  rw [print_under_result, h]

/-- Where the limits do not matter, a step does the same under them. -/
theorem Step.run_under {s : Step} {m : Machine} (hm : m.sink.NeverFails)
    (h : Moment.refusal? l ⟨.step s, m⟩ = none) :
    s.run (m.under l) = Outcome.onMachine (Machine.under l) (s.run m) := by
  cases hprint : Moment.print? ⟨.step s, m⟩ with
  | none =>
    have hsink := sink_run_of_print?_eq_none hprint
    rw [Machine.under, run_withSink hprint]
    cases hr : s.run m <;>
      simp only [hr, Outcome.machine] at hsink <;>
      simp only [Outcome.onMachine, Machine.under, hsink]
  | some print =>
    obtain ⟨value, rest, hact, htext⟩ := Moment.act_of_print? hprint
    obtain rfl := Act.step.inj hact
    have hpasses : (m.sink.under l).print value.text =
        (.ok (), (m.sink.printed value.text).under l) :=
      Sink.print_under (Option.map_eq_none_iff.mp h)
    simp only [run, Lox.performAction, Sink.printFirst, Machine.under, hpasses, hm.print]
    rfl

/-- A print that is refused ends the run with the error that it is refused with. -/
theorem Step.run_under_refused {s : Step} {m : Machine} {e : RuntimeError}
    (h : Moment.refusal? l ⟨.step s, m⟩ = some e) :
    ∃ n, s.run (m.under l) = .error (.error e) n := by
  obtain ⟨⟨text, paren⟩, hprint, hrefused⟩ := Option.bind_eq_some_iff.mp h
  obtain ⟨message, hmessage, rfl⟩ := Option.map_eq_some_iff.mp hrefused
  obtain ⟨value, rest, hact, rfl⟩ := Moment.act_of_print? hprint
  obtain rfl := Act.step.inj hact
  have herror := Sink.print_under_result (l := l) m.sink value.text
  rw [hmessage] at herror
  simp only [run, Lox.performAction, Sink.printFirst, Machine.under]
  generalize (m.sink.under l).print value.text = r at herror ⊢
  obtain ⟨result, sink⟩ := r
  cases herror
  exact ⟨_, rfl⟩

end

/-! ### Whole runs -/

/-- The machine after the step that is about to be taken. -/
def Moment.next (p : Moment) : Machine :=
  match p.act with
  | .task _ => p.machine
  | .step s => Outcome.machine (s.run p.machine)

/-- Two machines that differ only in what is restored when a run ends. -/
structure Machine.SameWorld (m n : Machine) : Prop where
  store : m.store = n.store
  sink : m.sink = n.sink
  clock : m.clock = n.clock
  readings : m.readings = n.readings

/-- What becomes of a run, given with its moments, under limits: the same, or at the first print
that is refused it ends, and the moments after that are missing. -/
inductive Truncates (l : Limits) (o : Outcome α) (moments : List Moment) (o' : Outcome α)
    (moments' : List Moment) : Prop where
  | whole : (∀ p ∈ moments, p.refusal? l = none) → o' = o.onMachine (Machine.under l) →
      moments' = moments.map (Moment.under l) → Truncates l o moments o' moments'
  | cut : moments = before ++ p :: after → (∀ q ∈ before, q.refusal? l = none) →
      p.refusal? l = some e → o' = .error (.error e) n → n.SameWorld (p.under l).next →
      moments' = (before ++ [p]).map (Moment.under l) → Truncates l o moments o' moments'

namespace Truncates

variable {l : Limits} {o o' : Outcome α} {moments moments' : List Moment}

/-- What follows on a result is truncated if it has not been truncated before. -/
theorem andThen (h : Truncates l o moments o' moments') {f : α → Run β}
    {g : α → Machine → List Moment}
    (hf : ∀ a n, o = .ok a n → Truncates l (f a n) (g a n) (f a (n.under l)) (g a (n.under l))) :
    Truncates l (o.andThen f) (moments ++ o.moments g) (o'.andThen f)
      (moments' ++ o'.moments g) := by
  cases h with
  | whole hall ho' hmoments =>
    subst ho' hmoments
    cases o with
    | error e n =>
      refine .whole (List.forall_mem_append.mpr ⟨hall, fun _ hp => nomatch hp⟩) rfl ?_
      simp only [Outcome.onMachine, Outcome.moments, List.append_nil]
    | ok a n =>
      simp only [Outcome.onMachine, Outcome.andThen, Outcome.moments]
      cases hf a n rfl with
      | whole hlater hend hmoments =>
        refine .whole (List.forall_mem_append.mpr ⟨hall, hlater⟩) hend ?_
        rw [hmoments, List.map_append]
      | cut hsplit hbefore hp hend hworld hmoments =>
        have hsplit' := congrArg (moments ++ ·) hsplit
        simp only [← List.append_assoc] at hsplit'
        refine .cut hsplit' (List.forall_mem_append.mpr ⟨hall, hbefore⟩) hp hend hworld ?_
        rw [hmoments, List.append_assoc, ← List.map_append]
  | cut hsplit hbefore hp hend hworld hmoments =>
    subst hend
    have hsplit' := congrArg (· ++ o.moments g) hsplit
    simp only [List.append_assoc, List.cons_append] at hsplit'
    refine .cut hsplit' hbefore hp rfl hworld ?_
    rw [hmoments]
    exact List.append_nil _

/-- A task is cut short in its place as it is outside. -/
theorem left (place : Place) (m : Machine) (h : Truncates l o moments o' moments') :
    Truncates l (o.onMachine (place.left m)) moments (o'.onMachine (place.left (m.under l)))
      moments' := by
  cases h with
  | whole hall ho' hmoments =>
    refine .whole hall ?_ hmoments
    rw [ho', Outcome.onMachine_onMachine, Outcome.onMachine_onMachine]
    cases place <;> rfl
  | cut hsplit hbefore hp hend hworld hmoments =>
    refine .cut hsplit hbefore hp (congrArg _ hend) ?_ hmoments
    cases place <;> exact ⟨hworld.store, hworld.sink, hworld.clock, hworld.readings⟩

end Truncates

variable (l : Limits)

/-- To enter a place has nothing to do with the limits of the sink. -/
theorem Place.entered_under (place : Place) (m : Machine) :
    place.entered (m.under l) = (place.entered m).under l := by
  cases place <;> rfl

/-- A step is cut short where it prints what is refused. -/
theorem Step.truncates (s : Step) {m : Machine} (hm : m.sink.NeverFails) :
    Truncates l (s.run m) [⟨.step s, m⟩] (s.run (m.under l)) [⟨.step s, m.under l⟩] := by
  cases h : Moment.refusal? l ⟨.step s, m⟩ with
  | none => exact .whole (List.forall_mem_singleton.mpr h) (Step.run_under hm h) rfl
  | some e =>
    obtain ⟨n, hn⟩ := Step.run_under_refused h
    refine .cut (List.nil_append _).symm (fun _ hq => nomatch hq) h hn ?_ rfl
    simp only [Moment.next, Moment.under, hn, Outcome.machine]
    exact ⟨rfl, rfl, rfl, rfl⟩

/-- A script is cut short where one of its steps is, if its tasks are. -/
theorem Script.truncates {fuel : Nat}
    (parts : ∀ (t : Task) (m : Machine), m.sink.NeverFails →
      Truncates l (t.run fuel m) (t.trace fuel m) (t.run fuel (m.under l))
        (t.trace fuel (m.under l)))
    (script : Script α) {m : Machine} (hm : m.sink.NeverFails) :
    Truncates l (script.run fuel m) (script.trace fuel (Task.trace fuel) m)
      (script.run fuel (m.under l)) (script.trace fuel (Task.trace fuel) (m.under l)) := by
  induction script generalizing m with
  | done a => exact .whole (fun _ hp => nomatch hp) rfl rfl
  | step s next ih =>
    rw [run_step, run_step, trace, trace]
    refine (s.truncates l hm).andThen fun a n hr => ih a ?_
    have hsink := s.sink_run hm
    rw [hr] at hsink
    exact hsink ▸ hm.printedAll _
  | part place t next ih =>
    have hentered : (place.entered m).sink.NeverFails := place.sink_entered m ▸ hm
    have first := (parts t (place.entered m) hentered).left place m
    rw [run_part, run_part, trace, trace, place.entered_under]
    refine first.andThen fun a n hr => ih a ?_
    have hsink := (t.prints fuel hentered).last
    have hleft := Outcome.machine_onMachine (place.left m) (t.run fuel (place.entered m))
    rw [hr] at hleft
    rw [show n = _ from hleft, place.sink_left, hsink]
    exact hentered.printedAll _

/-- A task is cut short where the first text is refused. -/
theorem Task.truncates (fuel : Nat) (t : Task) {m : Machine} (hm : m.sink.NeverFails) :
    Truncates l (t.run fuel m) (t.trace fuel m) (t.run fuel (m.under l))
      (t.trace fuel (m.under l)) := by
  induction fuel generalizing t m with
  | zero =>
    rw [t.run_zero]
    exact .whole (fun _ hp => nomatch hp) rfl rfl
  | succ fuel ih =>
    have first : Truncates l (.ok () m) [⟨.task t, m⟩] (.ok () (m.under l))
        [⟨.task t, m.under l⟩] :=
      .whole (List.forall_mem_singleton.mpr rfl) rfl rfl
    rw [t.run_succ, trace, trace]
    exact first.andThen (f := fun _ => t.script.run fuel)
      fun _ n hn => (EStateM.Result.ok.inj hn).2 ▸ t.script.truncates l (fun t m hm => ih t hm) hm

/-- A program runs under limits as it does without, or up to the first print that is refused. -/
theorem truncates_program (fuel : Nat) (statements : List Stmt) {m : Machine}
    (hm : m.sink.NeverFails) :
    Truncates l (interpret fuel statements m) (programTrace fuel statements m)
      (interpret fuel statements (m.under l)) (programTrace fuel statements (m.under l)) := by
  rw [Script.run_ofProgram]
  exact (Script.ofProgram statements).truncates l (fun t _ hm => t.truncates l fuel hm) hm

/-! ### The first attempt that fails -/

/-- What is written at a moment: there is no write for an empty text. -/
def Moment.write? (p : Moment) : Option String := p.text?.filter (!·.isEmpty)

/-- Of the moments that print those with a text write it. -/
theorem filterMap_write? (moments : List Moment) :
    moments.filterMap Moment.write? = Sink.nonempty (textsOf moments) := by
  rw [Sink.nonempty, textsOf, List.filter_filterMap]
  rfl

/-- Among many attempts there is one with any smaller number of attempts before it. -/
theorem exists_attempt {α β : Type} (f : α → Option β) {k : Nat} {as : List α}
    (h : k < (as.filterMap f).length) :
    ∃ before a after, as = before ++ a :: after ∧ (f a).isSome ∧
      (before.filterMap f).length = k := by
  induction as generalizing k with
  | nil => exact absurd h (Nat.not_lt_zero k)
  | cons a as ih =>
    cases hf : f a with
    | none =>
      rw [List.filterMap_cons_none hf] at h
      obtain ⟨before, b, after, rfl, hb, hk⟩ := ih h
      exact ⟨a :: before, b, after, rfl, hb, by rwa [List.filterMap_cons_none hf]⟩
    | some b =>
      cases k with
      | zero => exact ⟨[], a, as, rfl, by rw [hf]; rfl, rfl⟩
      | succ k =>
        rw [List.filterMap_cons_some hf, List.length_cons] at h
        obtain ⟨before, c, after, rfl, hc, hk⟩ := ih (Nat.lt_of_succ_lt_succ h)
        refine ⟨a :: before, c, after, rfl, hc, ?_⟩
        rw [List.filterMap_cons_some hf, List.length_cons, hk]

section

variable {l : Limits} {attempt? : Moment → Option String} {k : Nat} {moments : List Moment}
  (counts : ∀ before p after, moments = before ++ p :: after →
    ((p.refusal? l).isSome ↔ (attempt? p).isSome ∧ k ≤ (before.filterMap attempt?).length))
include counts

/-- Nothing is refused where there are no more attempts than succeed. -/
theorem refusal?_eq_none_of_length_le (h : (moments.filterMap attempt?).length ≤ k) :
    ∀ p ∈ moments, p.refusal? l = none := by
  intro p hp
  obtain ⟨before, after, rfl⟩ := List.append_of_mem hp
  refine Option.not_isSome_iff_eq_none.mp fun hrefused => ?_
  obtain ⟨hattempt, hle⟩ := (counts before p after rfl).mp hrefused
  obtain ⟨text, htext⟩ := Option.isSome_iff_exists.mp hattempt
  rw [List.filterMap_append, List.filterMap_cons_some htext, List.length_append,
    List.length_cons] at h
  omega

/-- Something is where there are more. -/
theorem exists_refusal?_of_lt_length (h : k < (moments.filterMap attempt?).length) :
    ∃ p ∈ moments, (p.refusal? l).isSome := by
  obtain ⟨before, p, after, rfl, hattempt, hk⟩ := exists_attempt attempt? h
  have hrefused := (counts before p after rfl).mpr ⟨hattempt, Nat.le_of_eq hk.symm⟩
  exact ⟨p, List.mem_append_right before List.mem_cons_self, hrefused⟩

/-- As many attempts as succeed come before the first one that is refused. -/
theorem length_of_first_refusal {before after : List Moment} {p : Moment}
    (heq : moments = before ++ p :: after) (hbefore : ∀ q ∈ before, q.refusal? l = none)
    (hp : (p.refusal? l).isSome) : (before.filterMap attempt?).length = k := by
  obtain ⟨-, hle⟩ := (counts before p after heq).mp hp
  refine Nat.le_antisymm (Nat.le_of_not_lt fun hlt => ?_) hle
  obtain ⟨first, q, rest, rfl, hattempt, hk⟩ := exists_attempt attempt? hlt
  rw [List.append_assoc, List.cons_append] at heq
  have hrefused := (counts first q _ heq).mpr ⟨hattempt, Nat.le_of_eq hk.symm⟩
  rw [hbefore q (List.mem_append_right first List.mem_cons_self)] at hrefused
  contradiction

end

section

variable {s : Sink} {moments : List Moment} {last : Sink} (prints : PrintsIn s moments last)
  (k : Nat) (writeError flushError : String)
include prints

/-- A write is refused if too many writes come before it. -/
theorem PrintsIn.refusal?_writes (before : List Moment) (p : Moment) (after : List Moment)
    (heq : moments = before ++ p :: after) :
    (p.refusal? ⟨some (s.writes + k), none, writeError, flushError⟩).isSome ↔
      p.write?.isSome ∧ k ≤ (before.filterMap Moment.write?).length := by
  have hwrites : p.machine.sink.writes = s.writes + (before.filterMap Moment.write?).length := by
    rw [prints.before before p after heq, Sink.writes_printedAll, filterMap_write?]
  rw [Moment.refusal?, Moment.write?, Moment.text?]
  cases p.print? with
  | none => simp
  | some print =>
    by_cases hempty : print.1 = "" <;>
      simp [Limits.refusal?, Sink.within, hwrites, hempty, Option.filter]

/-- A flush is refused if too many flushes come before it. -/
theorem PrintsIn.refusal?_flushes (before : List Moment) (p : Moment) (after : List Moment)
    (heq : moments = before ++ p :: after) :
    (p.refusal? ⟨none, some (s.flushes + k), writeError, flushError⟩).isSome ↔
      p.text?.isSome ∧ k ≤ (before.filterMap Moment.text?).length := by
  have hflushes : p.machine.sink.flushes = s.flushes + (before.filterMap Moment.text?).length := by
    rw [prints.before before p after heq, Sink.flushes_printedAll, textsOf]
  rw [Moment.refusal?, Moment.text?]
  cases p.print? with
  | none => simp
  | some print => simp [Limits.refusal?, Sink.within, hflushes]

end

/-- Where only writes fail, a text that is refused is not empty, and it is not written. -/
theorem Limits.refusal?_writing {s : Sink} {limit : Nat}
    {text writeError flushError reason : String}
    (h : Limits.refusal? ⟨some limit, none, writeError, flushError⟩ s text = some reason) :
    text ≠ "" ∧ reason = writeError ∧
      ((s.under ⟨some limit, none, writeError, flushError⟩).print text).2.written = s.written := by
  simp only [refusal?] at h
  split at h
  · next hwrite =>
    rw [Bool.and_eq_true, Bool.not_eq_true', Bool.not_eq_true'] at hwrite
    refine ⟨fun hempty => ?_, (Option.some.inj h).symm, ?_⟩
    · rw [hempty] at hwrite
      exact absurd hwrite.1 (by decide)
    · simp only [Sink.print, Sink.under, hwrite, Bool.false_eq_true, if_false]
  · contradiction

/-- Where only flushes fail, a text that is refused is written. -/
theorem Limits.refusal?_flushing {s : Sink} {limit : Nat}
    {text writeError flushError reason : String}
    (h : Limits.refusal? ⟨none, some limit, writeError, flushError⟩ s text = some reason) :
    reason = flushError ∧
      ((s.under ⟨none, some limit, writeError, flushError⟩).print text).2.written =
        s.written ++ text := by
  have hwrite : Sink.within none s.writes = true := rfl
  refine ⟨?_, by rw [Sink.print_under_sink (.inr hwrite)]; rfl⟩
  simp only [refusal?, hwrite, Bool.not_true, Bool.and_false, Bool.false_eq_true, if_false] at h
  split at h
  · contradiction
  · exact (Option.some.inj h).symm

/-- The attempts before a moment are the first ones of all. -/
theorem filterMap_eq_take {α β : Type} (f : α → Option β) {as before after : List α} {k : Nat}
    (heq : as = before ++ after) (hk : (before.filterMap f).length = k) :
    before.filterMap f = (as.filterMap f).take k := by
  rw [heq, List.filterMap_append, ← hk, List.take_left]

/-- A print, refused or not, changes nothing but the sink. -/
theorem Moment.next_of_print {p : Moment} {text : String} {paren : Token}
    (h : p.print? = some (text, paren)) :
    p.next.store = p.machine.store ∧ p.next.readings = p.machine.readings ∧
      p.next.sink = (p.machine.sink.print text).2 := by
  obtain ⟨value, rest, hact, rfl⟩ := act_of_print? h
  simp only [next, hact, Step.run, performAction, Sink.printFirst]
  cases p.machine.sink.print value.text with
  | mk result sink => cases result <;> exact ⟨rfl, rfl, rfl⟩

namespace Machine

/-- How a source text ends on a sink with limits, where the print of a text after some moments is
the first to be refused: at the parenthesis of that print, with nothing done after it. -/
structure FailsAt (l : Limits) (fuel : Nat) (source : String) (m : Machine) (before : List Moment)
    (text : String) (paren : Token) (message written : String) : Prop where
  exists_moment : ∃ p after last,
    programTrace fuel (Grammar.parseSource source).statements m = before ++ p :: after ∧
      p.print? = some (text, paren) ∧
      programTrace fuel (Grammar.parseSource source).statements (m.under l) =
        (before ++ [p]).map (Moment.under l) ∧
      (m.under l).run fuel source =
        some (⟨[], some ((Fault.native message).atToken paren)⟩, last) ∧
      last.sink.written = written ∧ last.store = p.machine.store ∧
      last.readings = p.machine.readings

variable {source : String} {fuel : Nat} {m n : Machine} {d : Diagnostics}

/-- What a source text without errors does is what its statements do. -/
theorem run_of_clean (clean : (Grammar.parseSource source).errors = []) :
    m.run fuel source =
      match Lox.interpret fuel (Grammar.parseSource source).statements m with
      | .ok _ n => some (⟨[], none⟩, n)
      | .error (.error e) n => some (⟨[], some e⟩, n)
      | .error .outOfFuel _ => none := by
  simp only [run, runParse, clean, List.isEmpty_nil, if_true, interpret]
  generalize Lox.interpret fuel (Grammar.parseSource source).statements m = o
  cases o with
  | ok a n => rfl
  | error e n => cases e <;> rfl

/-- The machine that it leaves behind is theirs. -/
theorem machine_of_run (clean : (Grammar.parseSource source).errors = [])
    (h : m.run fuel source = some (d, n)) :
    Outcome.machine (Lox.interpret fuel (Grammar.parseSource source).statements m) = n := by
  rw [run_of_clean clean] at h
  generalize Lox.interpret fuel (Grammar.parseSource source).statements m = o at h
  cases o with
  | ok a o => exact (Prod.mk.inj (Option.some.inj h)).2
  | error e o =>
    cases e with
    | error e => exact (Prod.mk.inj (Option.some.inj h)).2
    | outOfFuel => contradiction

/-- Where nothing is refused, a source text runs under limits as it does without. -/
theorem run_under (clean : (Grammar.parseSource source).errors = []) (l : Limits)
    (hm : m.sink.NeverFails) (h : m.run fuel source = some (d, n))
    (hall : ∀ p ∈ programTrace fuel (Grammar.parseSource source).statements m,
      p.refusal? l = none) :
    (m.under l).run fuel source = some (d, n.under l) := by
  rw [run_of_clean clean] at h ⊢
  cases truncates_program l fuel (Grammar.parseSource source).statements hm with
  | whole _ hend _ =>
    rw [hend]
    generalize Lox.interpret fuel (Grammar.parseSource source).statements m = o at h ⊢
    cases o with
    | ok a o =>
      cases h
      rfl
    | error e o =>
      cases e with
      | error e =>
        cases h
        rfl
      | outOfFuel => contradiction
  | @cut _ p _ _ _ hsplit _ hp _ _ _ =>
    rw [hall p (hsplit ▸ List.mem_append_right _ List.mem_cons_self)] at hp
    contradiction

/-- Where something is, it ends at the first print that is refused. -/
theorem run_under_refused (clean : (Grammar.parseSource source).errors = []) (l : Limits)
    (hm : m.sink.NeverFails)
    (hsome : ∃ p ∈ programTrace fuel (Grammar.parseSource source).statements m,
      (p.refusal? l).isSome) :
    ∃ before p after text paren message,
      programTrace fuel (Grammar.parseSource source).statements m = before ++ p :: after ∧
      (∀ q ∈ before, q.refusal? l = none) ∧ (p.refusal? l).isSome ∧
      p.print? = some (text, paren) ∧ l.refusal? p.machine.sink text = some message ∧
      m.FailsAt l fuel source before text paren message
        ((p.machine.sink.under l).print text).2.written := by
  cases truncates_program l fuel (Grammar.parseSource source).statements hm with
  | whole hall _ _ =>
    obtain ⟨p, hp, hrefused⟩ := hsome
    rw [hall p hp] at hrefused
    contradiction
  | @cut before p after e last hsplit hbefore hp hend hworld hmoments =>
    obtain ⟨⟨text, paren⟩, hprint, hrefused⟩ := Option.bind_eq_some_iff.mp hp
    obtain ⟨message, hmessage, rfl⟩ := Option.map_eq_some_iff.mp hrefused
    obtain ⟨hstore, hreadings, hsink⟩ := Moment.next_of_print (p := p.under l) hprint
    refine ⟨before, p, after, text, paren, message, hsplit, hbefore, by rw [hp]; rfl, hprint,
      hmessage, ⟨p, after, last, hsplit, hprint, hmoments, ?_, ?_, ?_, ?_⟩⟩
    · rw [run_of_clean clean, hend]
    · rw [hworld.sink, hsink]
      rfl
    · exact hworld.store.trans hstore
    · exact hworld.readings.trans hreadings

/-- The first write that is refused is the one after the first `k`. -/
theorem failsAt_writing (clean : (Grammar.parseSource source).errors = [])
    (hm : m.sink.NeverFails) (k : Nat) (writeError flushError : String) {texts : List String}
    (htexts : texts = textsOf (programTrace fuel (Grammar.parseSource source).statements m))
    (hlt : k < (Sink.nonempty texts).length) :
    ∃ before text paren, text ≠ "" ∧ (Sink.nonempty (textsOf before)).length = k ∧
      m.FailsAt ⟨some (m.sink.writes + k), none, writeError, flushError⟩ fuel source before text
        paren writeError (m.sink.written ++ String.join ((Sink.nonempty texts).take k)) := by
  have prints := prints_program fuel (Grammar.parseSource source).statements hm
  have counts := prints.refusal?_writes k writeError flushError
  rw [htexts, ← filterMap_write?] at hlt ⊢
  obtain ⟨before, p, after, text, paren, reason, hsplit, hbefore, hsome, _, hrefused, hfails⟩ :=
    run_under_refused clean _ hm (exists_refusal?_of_lt_length counts hlt)
  obtain ⟨hempty, rfl, hkept⟩ := Limits.refusal?_writing hrefused
  have hk := length_of_first_refusal counts hsplit hbefore hsome
  refine ⟨before, text, paren, hempty, by rw [← filterMap_write?, hk], ?_⟩
  have hwritten := Sink.written_printedAll m.sink (textsOf before)
  rw [← prints.before before p after hsplit, ← hkept] at hwritten
  rw [← filterMap_eq_take _ hsplit hk, filterMap_write?, Sink.join_nonempty, ← hwritten]
  exact hfails

/-- The first flush that is refused is the one after the first `k`, and its text has been
written. -/
theorem failsAt_flushing (clean : (Grammar.parseSource source).errors = [])
    (hm : m.sink.NeverFails) (k : Nat) (writeError flushError : String) {texts : List String}
    (htexts : texts = textsOf (programTrace fuel (Grammar.parseSource source).statements m))
    (hlt : k < texts.length) :
    ∃ before text paren, (textsOf before).length = k ∧
      m.FailsAt ⟨none, some (m.sink.flushes + k), writeError, flushError⟩ fuel source before text
        paren flushError (m.sink.written ++ String.join (texts.take (k + 1))) := by
  have prints := prints_program fuel (Grammar.parseSource source).statements hm
  have counts := prints.refusal?_flushes k writeError flushError
  rw [htexts] at hlt ⊢
  obtain ⟨before, p, after, text, paren, reason, hsplit, hbefore, hsome, hprint, hrefused,
      hfails⟩ :=
    run_under_refused clean _ hm (exists_refusal?_of_lt_length counts hlt)
  obtain ⟨rfl, hkept⟩ := Limits.refusal?_flushing hrefused
  have hk : (textsOf before).length = k := length_of_first_refusal counts hsplit hbefore hsome
  refine ⟨before, text, paren, hk, ?_⟩
  have htext : textsOf [p] = [text] := by simp [textsOf, Moment.text?, hprint]
  have hsplit' := hsplit
  rw [← List.singleton_append, ← List.append_assoc] at hsplit'
  have hlength : (textsOf (before ++ [p])).length = k + 1 := by
    rw [textsOf_append, htext, List.length_append, hk, List.length_singleton]
  have htake := filterMap_eq_take Moment.text? hsplit' hlength
  have hwritten := Sink.written_printedAll m.sink (textsOf before)
  rw [← prints.before before p after hsplit] at hwritten
  have hjoin : m.sink.written ++ String.join (textsOf (before ++ [p])) =
      p.machine.sink.written ++ text := by
    rw [textsOf_append, htext, String.join_append, ← String.append_assoc, ← hwritten]
    simp
  rw [textsOf, ← htake, ← textsOf, hjoin, ← hkept]
  exact hfails

/-- A failing sink only truncates. A source text without errors whose run on a sink that never fails
comes to an end prints some texts. On a sink whose writes fail after the first `k`, or whose flushes
do, the run is the same if there are no more attempts than that. Otherwise it ends with the error of
the sink at the parenthesis of the print that makes the next attempt, and what it has done before is
what the other run has done before that print. Written are the first `k` texts that are not empty,
or, where a flush fails, the first `k` texts and the one that has not been flushed. -/
theorem failing_sink_truncates (clean : (Grammar.parseSource source).errors = [])
    (hm : m.sink.NeverFails) (h : m.run fuel source = some (d, n)) (k : Nat)
    (writeError flushError : String) :
    let texts := textsOf (programTrace fuel (Grammar.parseSource source).statements m)
    let writing : Limits := ⟨some (m.sink.writes + k), none, writeError, flushError⟩
    let flushing : Limits := ⟨none, some (m.sink.flushes + k), writeError, flushError⟩
    n.sink.written = m.sink.written ++ String.join texts ∧
    ((Sink.nonempty texts).length ≤ k →
      (m.under writing).run fuel source = some (d, n.under writing)) ∧
    (k < (Sink.nonempty texts).length → ∃ before text paren,
      text ≠ "" ∧ (Sink.nonempty (textsOf before)).length = k ∧
      m.FailsAt writing fuel source before text paren writeError
        (m.sink.written ++ String.join ((Sink.nonempty texts).take k))) ∧
    (texts.length ≤ k →
      (m.under flushing).run fuel source = some (d, n.under flushing)) ∧
    (k < texts.length → ∃ before text paren,
      (textsOf before).length = k ∧
      m.FailsAt flushing fuel source before text paren flushError
        (m.sink.written ++ String.join (texts.take (k + 1)))) := by
  intro texts writing flushing
  have prints := prints_program fuel (Grammar.parseSource source).statements hm
  have countsWrites := prints.refusal?_writes k writeError flushError
  have countsFlushes := prints.refusal?_flushes k writeError flushError
  refine ⟨?_, fun hle => ?_, failsAt_writing clean hm k writeError flushError rfl,
    fun hle => ?_, failsAt_flushing clean hm k writeError flushError rfl⟩
  · rw [← machine_of_run clean h, prints.last, Sink.written_printedAll]
  · rw [← filterMap_write?] at hle
    exact run_under clean writing hm h (refusal?_eq_none_of_length_le countsWrites hle)
  · exact run_under clean flushing hm h (refusal?_eq_none_of_length_le countsFlushes hle)

/-- Four prints, one of them of an empty text. After one write that succeeds the next one fails;
after two flushes that do, the flush of the third text. -/
theorem failing_sink_truncates_four :
    let m := initial .unlimited id
    let source := "print(1); print(\"\"); print(2); print(3);"
    (Grammar.parseSource source).errors = [] ∧ m.sink.NeverFails ∧
    ∃ d n, m.run 30 source = some (d, n) ∧ n.sink.written = "123" ∧
    (∃ before text paren, (Sink.nonempty (textsOf before)).length = 1 ∧
      m.FailsAt ⟨some 1, none, "broken pipe", ""⟩ 30 source before text paren "broken pipe" "1") ∧
    (∃ before text paren, (textsOf before).length = 2 ∧
      m.FailsAt ⟨none, some 2, "", "no space left"⟩ 30 source before text paren "no space left"
        "12") ∧
    (m.under ⟨some 3, none, "broken pipe", ""⟩).run 30 source =
      some (d, n.under ⟨some 3, none, "broken pipe", ""⟩) := by
  intro m source
  have clean : (Grammar.parseSource source).errors = [] := List.isEmpty_iff.mp (by decide +kernel)
  have hm : m.sink.NeverFails := ⟨rfl, rfl⟩
  have ends : (m.run 30 source).isSome := by decide +kernel
  have h : m.run 30 source = some ((m.run 30 source).get ends) := (Option.some_get ends).symm
  have texts : textsOf (programTrace 30 (Grammar.parseSource source).statements m) =
      ["1", "", "2", "3"] := by decide +kernel
  obtain ⟨written, -, write, -, -⟩ := failing_sink_truncates clean hm h 1 "broken pipe" ""
  obtain ⟨-, -, -, -, flush⟩ := failing_sink_truncates clean hm h 2 "" "no space left"
  obtain ⟨-, same, -⟩ := failing_sink_truncates clean hm h 3 "broken pipe" ""
  rw [texts] at written write flush same
  refine ⟨clean, hm, _, _, h, written, ?_, flush (by decide), same (by decide)⟩
  obtain ⟨before, text, paren, -, hk, hfails⟩ := write (by decide)
  exact ⟨before, text, paren, hk, hfails⟩

end Machine

end Lox
