import Mathlib.Data.Nat.Pairing
import Lox.Machine.Session
import Lox.Proofs.Grammar.Joining
import Lox.Proofs.Machine.Blame
import Lox.Proofs.Machine.Uniformity

/-!
# A session and a script

Texts that are run one after another do what they would do joined by line breaks and
run at once. Only the line of a runtime error is another: in the joined text its token
is further down, by the lines of the texts before it.

A runtime error keeps of the token to blame only its line. Which token that is shows when
tokens are moved down, each as far as one likes: the error is moved like that one.
-/

namespace Lox

/-- What can be seen of a callable: its name, its arity and its text. -/
def Callable.outline (c : Callable) : String × Nat × String := (c.name, c.arity, c.text)

/-- Like callables have one outline. -/
theorem Callable.Alike.outline {R : Token → Token → Prop} (hR : Relabels R) {c c' : Callable}
    (h : c.Alike R c') : c'.outline = c.outline := by
  rw [Callable.outline, h.name hR, h.arity, h.text hR]
  rfl

/-- Runtime errors that blame the same fault on tokens that correspond. -/
inductive RuntimeError.Alike (R : Token → Token → Prop) : RuntimeError → RuntimeError → Prop where
  | mk (f : Fault) : R t t' → RuntimeError.Alike R (f.atToken t) (f.atToken t')

namespace Machine

open Grammar Source

/-- Runs source texts one after another, up to the first that ends in a runtime error. -/
def runSession (fuel : Nat) : List String → Machine → Option (Option RuntimeError × Machine)
  | [], m => some (none, m)
  | source :: rest, m =>
    match m.run fuel source with
    | some (⟨_, none⟩, m) => runSession fuel rest m
    | some (⟨_, some error⟩, m) => some (some error, m)
    | none => none

/-- Whether nothing is wrong with a text, so that it is run. -/
def isRunnable (source : String) : Bool := (parseSource source).errors.isEmpty

/-- The token to blame for the fault that several texts end with, run one after another on a
machine: the one at place `j` of the text at place `i`. It fits the fault, and however the tokens of
the texts are moved down, the fault is the same and is reported on the line to which this one is
moved. -/
structure FailingToken (fuel : Nat) (texts : List String) (m : Machine) (f : Fault) (i j : Nat)
    (t : Token) : Prop where
  token : tokenAt? texts i j = some t
  fits : f.Fits t
  moves : ∀ down : Nat → Nat → Nat, ∃ n,
    m.interpret fuel (movedProgram down texts) = some (some ⟨f, t.line + down i j⟩, n)

/-- A runtime error of several texts, and the same one where they are joined: the same fault, at the
same token, as many lines further down as there are before its text. -/
inductive MovedError (fuel : Nat) (texts : List String) (m : Machine) :
    RuntimeError → RuntimeError → Prop where
  | mk : FailingToken fuel texts m f i j t →
      MovedError fuel texts m (f.atToken t) ⟨f, t.line + linesOf (texts.take i)⟩

/-- The end of a session of texts without errors, and the same end of the joined texts run at
once. -/
structure SameEnd (fuel : Nat) (texts : List String) (m : Machine)
    (session : Option RuntimeError × Machine) (script : Diagnostics × Machine) : Prop where
  /-- The session runs the tokens of the texts where they are. -/
  session_run : m.interpret fuel (movedProgram (fun _ _ => 0) texts) = some session
  /-- The script runs the same tokens, each further down by the lines of the texts before its
  own. -/
  script_run : m.interpret fuel (movedProgram (fun i _ => linesOf (texts.take i)) texts) =
    some (script.1.runtimeError, script.2)
  syntaxErrors : script.1.syntaxErrors = []
  sink : script.2.sink = session.2.sink
  globals : ∀ name, script.2.global? name = session.2.global? name
  callables : ∀ ref,
    (script.2.store.callable? ref).map Callable.outline =
      (session.2.store.callable? ref).map Callable.outline
  runtimeError : Option.Rel (MovedError fuel texts m) session.1 script.1.runtimeError

/-- A text with an error changes nothing. -/
theorem run_of_not_isRunnable {source : String} (h : isRunnable source = false) (fuel : Nat)
    (m : Machine) : m.run fuel source = some (⟨(parseSource source).errors, none⟩, m) := by
  unfold isRunnable at h
  rw [run, runParse, h, if_neg Bool.false_ne_true]

/-- A source that can be run ends as its statements do. -/
theorem run_of_isRunnable {source : String} (h : isRunnable source = true) (fuel : Nat)
    (m : Machine) :
    m.run fuel source =
      (m.interpret fuel (parseSource source).statements).map fun r => (⟨[], r.1⟩, r.2) := by
  unfold isRunnable at h
  rw [run, runParse, if_pos h]
  cases m.interpret fuel (parseSource source).statements with
  | none => rfl
  | some r => rfl

/-- Statements after others run where those have ended. -/
theorem interpret_append (fuel : Nat) (ss rest : List Stmt) (m : Machine) :
    m.interpret fuel (ss ++ rest) =
      match m.interpret fuel ss with
      | some (none, m) => m.interpret fuel rest
      | ended => ended := by
  have split : Lox.interpret fuel (ss ++ rest) =
      Lox.interpret fuel ss >>= fun _ => Lox.interpret fuel rest := by
    induction ss with
    | nil => rfl
    | cons s ss ih =>
      simp only [List.cons_append, Lox.interpret, ih, bind_assoc]
  simp only [interpret, split, bind, EStateM.bind]
  cases Lox.interpret fuel ss m with
  | ok _ m => rfl
  | error e m => cases e <;> rfl

/-- A session runs the statements of the texts in which nothing is wrong. -/
theorem runSession_eq (fuel : Nat) (pieces : List String) (m : Machine) :
    runSession fuel pieces m =
      m.interpret fuel
        ((pieces.filter isRunnable).flatMap fun piece => (parseSource piece).statements) := by
  induction pieces generalizing m with
  | nil => rfl
  | cons piece rest ih =>
    rw [runSession]
    by_cases hrun : isRunnable piece = true
    · rw [run_of_isRunnable hrun, List.filter_cons_of_pos hrun, List.flatMap_cons, interpret_append]
      rcases m.interpret fuel (parseSource piece).statements with _ | ⟨_ | error, m⟩
      · rfl
      · exact ih m
      · rfl
    · rw [run_of_not_isRunnable (Bool.eq_false_iff.mpr hrun), List.filter_cons_of_neg hrun]
      exact ih m

/-- A machine on which nothing has run holds nothing that has a line. -/
theorem initial_alike (R : Token → Token → Prop) (sink : Sink) (clock : Nat → Nat) :
    (initial sink clock).Alike R (initial sink clock) where
  store := ⟨rfl, .cons (.native "clock" 0 .clock) (.cons (.native "print" 1 .print) .nil)⟩
  current := rfl
  depth := rfl
  sink := rfl
  clock := rfl
  readings := rfl

/-- What a reference leads to looks the same on alike machines. -/
theorem Alike.outline {R : Token → Token → Prop} (hR : Relabels R) {m m' : Machine}
    (h : m.Alike R m') (ref : CallableRef) :
    (m'.store.callable? ref).map Callable.outline =
      (m.store.callable? ref).map Callable.outline := by
  have found := h.store.callable? ref
  generalize m.store.callable? ref = c at found
  generalize m'.store.callable? ref = c' at found
  cases found with
  | none => rfl
  | some hc => exact congrArg some (hc.outline hR)

/-- Alike programs end alike on alike machines. -/
theorem interpret_alike {R : Token → Token → Prop} (hR : Relabels R) (fuel : Nat)
    {ss ss' : List Stmt} (h : Stmt.AllAlike R ss ss') {m m' : Machine} (hm : m.Alike R m') :
    Option.Rel (fun r r' => Option.Rel (RuntimeError.Alike R) r.1 r'.1 ∧ r.2.Alike R r'.2)
      (m.interpret fuel ss) (m'.interpret fuel ss') := by
  have ends := uniform_interpret hR fuel h m m' hm
  simp only [interpret]
  generalize Lox.interpret fuel ss m = o at ends ⊢
  generalize Lox.interpret fuel ss' m' = o' at ends ⊢
  cases ends with
  | ok _ hn => exact .some ⟨.none, hn⟩
  | error he hn =>
    cases he with
    | error f ht => exact .some ⟨.some (.mk f ht), hn⟩
    | outOfFuel => exact .none

/-- A program that ends with a runtime error has failed with it. -/
theorem interpret_failed {fuel : Nat} {ss : List Stmt} {m n : Machine} {e : RuntimeError}
    (h : m.interpret fuel ss = some (some e, n)) :
    Lox.interpret fuel ss m = .error (.error e) n := by
  rw [interpret] at h
  cases hr : Lox.interpret fuel ss m with
  | ok _ k =>
    rw [hr] at h
    cases h
  | error halt k =>
    rw [hr] at h
    cases halt with
    | outOfFuel => cases h
    | error e' =>
      cases h
      rfl

/-! ### The token to blame -/

/-- There is no other token to blame. -/
theorem FailingToken.unique {fuel : Nat} {texts : List String} {m : Machine} {f f' : Fault}
    {i i' j j' : Nat} {t t' : Token} (h : FailingToken fuel texts m f i j t)
    (h' : FailingToken fuel texts m f' i' j' t') : f = f' ∧ i = i' ∧ j = j' ∧ t = t' := by
  -- The errors are the same where nothing is moved, and where only the first token is.
  let down a b := if a = i ∧ b = j then 1 else 0
  obtain ⟨n, here⟩ := h.moves fun _ _ => 0
  obtain ⟨n', here'⟩ := h'.moves fun _ _ => 0
  obtain ⟨k, below⟩ := h.moves down
  obtain ⟨k', below'⟩ := h'.moves down
  have same := here.symm.trans here'
  have moved := below.symm.trans below'
  simp only [Option.some.injEq, Prod.mk.injEq, RuntimeError.mk.injEq] at same moved
  obtain ⟨⟨hf, hline⟩, -⟩ := same
  obtain ⟨⟨-, hmoved⟩, -⟩ := moved
  have first : down i j = 1 := if_pos ⟨rfl, rfl⟩
  have place : i' = i ∧ j' = j := by
    by_contra other
    have second : down i' j' = 0 := if_neg other
    omega
  obtain ⟨rfl, rfl⟩ := place
  exact ⟨hf, rfl, rfl, Option.some.inj (h.token.symm.trans h'.token)⟩

/-- Moved so far down, no two tokens of texts are on the same line. -/
def apart (texts : List String) (i j : Nat) : Nat := (linesOf texts + 1) * Nat.pair i j

section

variable {texts : List String} {i i' j j' : Nat} {t t' : Token}

/-- A line tells which of the tokens that have been moved apart is on it. -/
theorem token_of_apart (h : tokenAt? texts i j = some t) (h' : tokenAt? texts i' j' = some t')
    (same : t.line + apart texts i j = t'.line + apart texts i' j') :
    i = i' ∧ j = j' ∧ t = t' := by
  have quotient {i j : Nat} {t : Token} (h : tokenAt? texts i j = some t) :
      (t.line + apart texts i j) / (linesOf texts + 1) = Nat.pair i j := by
    rw [apart, Nat.add_mul_div_left _ _ (Nat.succ_pos _),
      Nat.div_eq_of_lt (Nat.lt_succ_of_le (line_tokenAt?_le h)), Nat.zero_add]
  obtain ⟨rfl, rfl⟩ := Nat.pair_eq_pair.mp ((quotient h).symm.trans (same ▸ quotient h'))
  exact ⟨rfl, rfl, Option.some.inj (h.symm.trans h')⟩

/-- The statements of moved texts are well formed, of their tokens. -/
theorem wellFormed_movedProgram (down : Nat → Nat → Nat) :
    ∀ s ∈ movedProgram down texts, s.WellFormed fun t => Carries texts down down t t := by
  intro s hs
  obtain ⟨statements, hstatements, hs⟩ := List.mem_flatten.mp hs
  obtain ⟨i, hi, rfl⟩ := List.mem_mapIdx.mp hstatements
  refine Stmt.allWellFormed_iff.mp (parse_gathers fun t ht => ?_).1 s hs
  obtain ⟨j, hj, rfl⟩ := List.mem_mapIdx.mp ht
  refine .mk ?_
  rw [tokenAt?, List.getElem?_eq_getElem hi, Option.bind_some, List.getElem?_eq_getElem hj]

/-- A fault fits a token wherever it is. -/
theorem fits_of_later {f : Fault} {lines : Nat} (h : f.Fits (t.later lines)) : f.Fits t := by
  cases h with
  | numberOperand hk => exact .numberOperand hk
  | numberOperands hk => exact .numberOperands hk
  | addends hk => exact .addends hk
  | divisionByZero hk => exact .divisionByZero hk
  | undefinedVariable hk => exact Fault.Fits.undefinedVariable (t := t) hk
  | redeclared hk => exact Fault.Fits.redeclared (t := t) hk
  | notCallable hk => exact .notCallable hk
  | arityMismatch expected got hk => exact .arityMismatch expected got hk
  | stackOverflow hk => exact .stackOverflow hk
  | native message hk => exact .native message hk

end

section

variable {fuel : Nat} {texts : List String} {sink : Sink} {clock : Nat → Nat} {e : RuntimeError}
  {n : Machine}

/-- Texts that fail where their tokens are moved in one way fail so where they are moved in another,
at the same token. -/
theorem failed_moved {down : Nat → Nat → Nat}
    (failed : (initial sink clock).interpret fuel (movedProgram down texts) = some (some e, n))
    (down' : Nat → Nat → Nat) :
    ∃ f i j t n', tokenAt? texts i j = some t ∧ e = ⟨f, t.line + down i j⟩ ∧
      (initial sink clock).interpret fuel (movedProgram down' texts) =
        some (some ⟨f, t.line + down' i j⟩, n') := by
  have ends := interpret_alike (relabels_carries texts down down') fuel
    (alike_movedProgram down down' texts) (initial_alike _ sink clock)
  rw [failed] at ends
  generalize (initial sink clock).interpret fuel (movedProgram down' texts) = r' at ends ⊢
  cases ends with
  | @some _ r' h =>
    obtain ⟨error', n'⟩ := r'
    obtain ⟨herror, -⟩ := h
    cases herror with
    | some h =>
      cases h with
      | mk f carried =>
        cases carried with
        | mk ht => exact ⟨f, _, _, _, n', ht, rfl, rfl⟩

/-- Where texts fail there is a token to blame. -/
theorem exists_failingToken
    (failed : (initial sink clock).interpret fuel (movedProgram (fun _ _ => 0) texts) =
      some (some e, n)) :
    ∃ f i j t, FailingToken fuel texts (initial sink clock) f i j t ∧ e = f.atToken t := by
  -- The token shows where all of them are on lines of their own.
  obtain ⟨f, i, j, t, k, ht, rfl, apartFailed⟩ := failed_moved failed (apart texts)
  refine ⟨f, i, j, t, ⟨ht, ?_, fun down => ?_⟩, rfl⟩
  · have sound : (wellFormedRuns fun t => Carries texts (apart texts) (apart texts) t t).invariant
        (initial sink clock) := Store.FunctionsAre.initial
    obtain ⟨t', f', carried, fits, same⟩ := blamed_interpret fuel
      (wellFormed_movedProgram (apart texts)) sound (interpret_failed apartFailed)
    cases carried with
    | @mk i' j' u hu =>
      obtain ⟨rfl, hline⟩ := RuntimeError.mk.inj same
      obtain ⟨rfl, rfl, rfl⟩ := token_of_apart ht hu hline
      exact fits_of_later fits
  · obtain ⟨f', i', j', t', n', ht', same, movedFailed⟩ := failed_moved apartFailed down
    obtain ⟨rfl, hline⟩ := RuntimeError.mk.inj same
    obtain ⟨rfl, rfl, rfl⟩ := token_of_apart ht ht' hline
    exact ⟨n', movedFailed⟩

/-- A session and a script of the same texts end alike. -/
theorem sameEnd_of_runs {r r' : Option RuntimeError × Machine}
    (session : (initial sink clock).interpret fuel (movedProgram (fun _ _ => 0) texts) = some r)
    (script : (initial sink clock).interpret fuel
      (movedProgram (fun i _ => linesOf (texts.take i)) texts) = some r') :
    SameEnd fuel texts (initial sink clock) r (⟨[], r'.1⟩, r'.2) := by
  have hR := relabels_carries texts (fun _ _ => 0) fun i _ => linesOf (texts.take i)
  have ends := interpret_alike hR fuel (alike_movedProgram _ _ texts) (initial_alike _ sink clock)
  rw [session, script] at ends
  cases ends with
  | some h =>
    obtain ⟨herror, hm⟩ := h
    refine ⟨session, script, rfl, hm.sink, fun name => hm.store.lookup _ name, hm.outline hR, ?_⟩
    obtain ⟨error, n⟩ := r
    obtain ⟨error', n'⟩ := r'
    cases error with
    | none =>
      cases herror
      exact .none
    | some e =>
      obtain ⟨f, i, j, t, token, rfl⟩ := exists_failingToken session
      obtain ⟨k, moved⟩ := token.moves fun i _ => linesOf (texts.take i)
      cases script.symm.trans moved
      exact .some (.mk token)

end

/-- Whatever the pieces of a session, it ends as a script of those in which nothing is wrong. The
others change nothing. -/
theorem session_script (fuel : Nat) (sink : Sink) (clock : Nat → Nat) (pieces : List String) :
    (∀ piece ∈ pieces.filter (!isRunnable ·), ∀ m : Machine,
      m.run fuel piece = some (⟨(parseSource piece).errors, none⟩, m)) ∧
    Option.Rel (SameEnd fuel (pieces.filter isRunnable) (initial sink clock))
      (runSession fuel pieces (initial sink clock))
      ((initial sink clock).run fuel ("\n".intercalate (pieces.filter isRunnable))) := by
  constructor
  · intro piece hpiece m
    have hnot := (List.mem_filter.mp hpiece).2
    exact run_of_not_isRunnable (by simpa using hnot) fuel m
  · rw [runSession_eq, ← movedProgram_here]
    have clean : ∀ text ∈ pieces.filter isRunnable, (parseSource text).errors = [] :=
      fun text ht => List.isEmpty_iff.mp (List.mem_filter.mp ht).2
    generalize pieces.filter isRunnable = texts at clean ⊢
    have joined := parseSource_intercalate clean
    have hrun : isRunnable ("\n".intercalate texts) = true := by
      rw [isRunnable, joined]
      rfl
    rw [run_of_isRunnable hrun, joined]
    have ends := interpret_alike (relabels_carries texts _ _) fuel
      (alike_movedProgram (fun _ _ => 0) (fun i _ => linesOf (texts.take i)) texts)
      (initial_alike _ sink clock)
    generalize session : (initial sink clock).interpret fuel (movedProgram _ texts) = r at ends ⊢
    generalize script : (initial sink clock).interpret fuel (movedProgram _ texts) = r' at ends ⊢
    cases ends with
    | none => exact .none
    | some _ => exact .some (sameEnd_of_runs session script)

/-- The same tokens are in two texts; it is the function of the second one that fails, two lines
further down where the texts are joined. The text between them cannot be parsed. -/
example :
    let pieces := ["fun f(x) \x7b\n return -x; \x7d", "f(", "fun g(x) \x7b\n return -x; \x7d",
      "g(nil);"]
    let script := "\n".intercalate (pieces.filter isRunnable)
    (runSession 30 pieces (initial .unlimited id)).map (·.1) =
        some (some ⟨.numberOperand, 2⟩) ∧
      ((initial .unlimited id).run 30 script).map (·.1.runtimeError) =
        some (some ⟨.numberOperand, 4⟩) := by
  decide +kernel

end Machine

end Lox
