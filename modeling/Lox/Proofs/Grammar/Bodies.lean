import Lox.Proofs.Grammar.Outlines

/-!
# How many bodies are open

A parser knows at every moment how many bodies of functions are open around the place that it has
come to, and how many bodies of loops inside the innermost of them, whatever the tokens are. A body
is open while its parser is running. When that ends, with something read or with an error that is
caught nearby or far outside, the two depths are what they were before the body.
-/

namespace Lox.Grammar

open Concrete (Body inLoop contextOf)

/-! ### Moving on -/

/-- The state in which a parser ends, with something read or without. -/
def stateAfter : EStateM.Result Failure State α → State
  | .ok _ t | .error _ t => t

/-- A parser that moves on over tokens and notes errors, and changes nothing else, however it
ends. -/
def Moving (p : Parser α) : Prop := ∀ s : State, ∃ ts, s.Moves (stateAfter (p s)) ts

/-- There is one state in which a parser ends. -/
theorem EndsAt.stateAfter_eq {s t : State} {result : EStateM.Result Failure State α}
    (h : EndsAt s result t) : stateAfter result = t := by
  obtain ⟨a, rfl⟩ | ⟨message, rfl⟩ := h.ends <;> rfl

/-- A parser that goes forward moves on and changes nothing else. -/
theorem Forward.moving {p : Parser α} (h : Forward p) : Moving p := by
  intro s
  obtain ⟨t, ends⟩ := h s
  exact ends.stateAfter_eq ▸ ends.moves

theorem Moving.of_ok {p : Parser α} (h : Moving p) {s t : State} {a : α} (hr : p s = .ok a t) :
    ∃ ts, s.Moves t ts := by
  obtain ⟨ts, moves⟩ := h s
  rw [hr] at moves
  exact ⟨ts, moves⟩

/-- Parsers in a row move on if each of them does. -/
theorem Moving.bind {p : Parser α} {f : α → Parser β} (hp : Moving p) (hf : ∀ a, Moving (f a)) :
    Moving (p >>= f) := by
  intro s
  obtain ⟨ts, moves⟩ := hp s
  simp only [Bind.bind, EStateM.bind]
  cases hr : p s with
  | error e t =>
    rw [hr] at moves
    exact ⟨ts, moves⟩
  | ok a t =>
    rw [hr] at moves
    obtain ⟨us, moves'⟩ := hf a t
    exact ⟨ts ++ us, moves.trans moves'⟩

theorem moving_pure (a : α) : Moving (pure a : Parser α) := fun s => ⟨[], .refl s⟩

theorem moving_throw (failure : Failure) : Moving (throw failure : Parser α) := fun s =>
  ⟨[], .refl s⟩

/-- A repeated step moves on, however often it is taken. -/
theorem Moving.iterate {step : α → Parser (α ⊕ β)} (h : ∀ a, Moving (step a)) (a : α) :
    Moving (iterate a step) := by
  have repeated (bound : List Token) : ∀ a, Moving (repeatStep step bound a) := by
    induction bound with
    | nil =>
      intro a
      rw [repeatStep]
      refine (h a).bind fun r => ?_
      cases r with
      | inl next => exact moving_throw _
      | inr result => exact moving_pure result
    | cons token bound ih =>
      intro a
      rw [repeatStep]
      refine (h a).bind fun r => ?_
      cases r with
      | inl next => exact ih next
      | inr result => exact moving_pure result
  exact fun s => repeated s.rest a s

/-- An error that is caught leaves the state as it is. -/
theorem stateAfter_attempt (p : Parser α) (s : State) :
    stateAfter (attempt p s) = stateAfter (p s) := by
  unfold attempt
  cases p s with
  | ok a t => rfl
  | error e t => cases e <;> rfl

/-- A parser ends outside of the body that it has read. -/
theorem stateAfter_within (body : Option Body) (p : Parser α) (s : State) :
    stateAfter (within body p s) = left s body (stateAfter (p (entered body s))) := by
  rw [within_apply]
  cases p (entered body s) <;> rfl

/-- What a body has added to the depths is taken off again when it is left. -/
theorem State.Moves.left {s t : State} {ts : List Token} {body : Option Body}
    (h : (entered body s).Moves t ts) : s.Moves (left s body t) ts := by
  cases body with
  | none => exact h
  | some body =>
    cases body with
    | loop =>
      exact ⟨h.rest, h.eof, by simp only [Grammar.left, h.loops, entered, Nat.add_sub_cancel],
        h.functions, h.errors⟩
    | function =>
      exact ⟨h.rest, h.eof, rfl,
        by simp only [Grammar.left, h.functions, entered, Nat.add_sub_cancel], h.errors⟩

/-- What moves on inside a body moves on outside of it too. -/
theorem Moving.within {p : Parser α} (h : Moving p) (body : Option Body) :
    Moving (within body p) := by
  intro s
  obtain ⟨ts, moves⟩ := h (entered body s)
  rw [stateAfter_within]
  exact ⟨ts, moves.left⟩

theorem Moving.attempt {p : Parser α} (h : Moving p) : Moving (attempt p) := fun s =>
  stateAfter_attempt p s ▸ h s

/-- A step is always taken. -/
theorem Primitive.run_ok (p : Primitive α) (s : State) : ∃ a t, p.run s = .ok a t := by
  cases p with
  | accept kinds =>
    rw [run, acceptAny?_apply]
    split <;> exact ⟨_, _, rfl⟩
  | reportIf wrong token message =>
    simp only [run, Grammar.reportIf]
    split <;> exact ⟨_, _, rfl⟩
  | reportExcess limit count message =>
    simp only [run, Grammar.reportExcess]
    split <;> exact ⟨_, _, rfl⟩
  | _ => exact ⟨_, _, rfl⟩

/-- A step goes forward. -/
theorem Primitive.forward (p : Primitive α) : Forward p.run := by
  cases p with
  | accept kinds => exact forward_acceptAny? kinds
  | report token message => exact fun s => ⟨_, ⟨[], .report s _⟩, .inl ⟨(), rfl⟩⟩
  | reportIf wrong token message => exact forward_reportIf wrong token message
  | reportExcess limit count message =>
    intro s
    simp only [run, Grammar.reportExcess]
    split
    · exact ⟨_, ⟨[], .report s _⟩, .inl ⟨(), rfl⟩⟩
    · exact ⟨s, ⟨[], .refl s⟩, .inl ⟨(), rfl⟩⟩
  | recover error =>
    intro s
    obtain ⟨skipped, hskipped, -⟩ := skipStatement_drops s.rest
    refine ⟨{ s with errors := s.errors.push error, rest := skipStatement s.rest }, ?_,
      .inl ⟨(), rfl⟩⟩
    exact ⟨skipped, hskipped, rfl, rfl, rfl, [error], by simp⟩
  | _ => exact fun s => ⟨s, ⟨[], .refl s⟩, .inl ⟨_, rfl⟩⟩

/-- So does all that outlines are made of. -/
theorem Outline.moving (caller : Rule ρ) (o : Outline α) : Moving (o.run caller) := by
  induction o with
  | done result =>
    cases result with
    | ok a => exact moving_pure a
    | error error => exact moving_throw _
  | step p next ih => exact p.forward.moving.bind ih
  | call rule next ih => exact ((rule.forward.moving.within (caller.bodyOf rule)).attempt).bind ih
  | loop turn start next ihTurn ih => exact (Moving.iterate ihTurn start).bind ih

/-! ### Where a parse comes to -/

/-- A rule that is being read, and the state in which its parser started. -/
structure Call where
  {α : Type}
  rule : Rule α
  start : State

/-- The bodies that are open in calls in progress, the innermost first: of two calls, one for the
other, the later one may be of a body. -/
def bodies : List Call → List Body
  | callee :: caller :: calls =>
    (caller.rule.bodyOf callee.rule).toList ++ bodies (caller :: calls)
  | _ => []

/-- The call that all others are in. -/
def wholeProgram (tokens : List Token) : Call := ⟨.program, .ofTokens tokens⟩

/-- Where the parse of tokens comes to: the calls in progress, the innermost first, what is still to
be done of that one, and the state. -/
inductive ComesTo (tokens : List Token) : List Call → {α : Type} → Outline α → State → Prop where
  | start : ComesTo tokens [wholeProgram tokens] Rule.program.outline (.ofTokens tokens)
  /-- A step has been taken. -/
  | step {p : Primitive β} {next : β → Outline α} :
      ComesTo tokens calls (.step p next) s → p.run s = .ok b t → ComesTo tokens calls (next b) t
  /-- A rule is begun, in its body if it is one. -/
  | enter {rule : Rule β} {next : Except SyntaxError β → Outline α} :
      ComesTo tokens (caller :: calls) (.call rule next) s →
      ComesTo tokens (⟨rule, entered (caller.rule.bodyOf rule) s⟩ :: caller :: calls) rule.outline
        (entered (caller.rule.bodyOf rule) s)
  /-- A rule has been read, or has ended with an error, and its body is left. -/
  | leave {rule : Rule β} {next : Except SyntaxError β → Outline α} :
      ComesTo tokens (caller :: calls) (.call rule next) s →
      attempt (within (caller.rule.bodyOf rule) rule.parser) s = .ok r t →
      ComesTo tokens (caller :: calls) (next r) t
  /-- A loop of the parser is at its next turn. -/
  | turn {turn : β → Outline (β ⊕ γ)} {next : γ → Outline α} :
      ComesTo tokens calls (.loop turn b next) s → ComesTo tokens calls (turn b) s
  /-- The loop goes on after a turn. -/
  | again {turn : β → Outline (β ⊕ γ)} {next : γ → Outline α} :
      ComesTo tokens (caller :: calls) (.loop turn b next) s →
      (turn b).run caller.rule s = .ok (.inl b') t →
      ComesTo tokens (caller :: calls) (.loop turn b' next) t
  /-- The loop has ended. -/
  | exit {turn : β → Outline (β ⊕ γ)} {next : γ → Outline α} :
      ComesTo tokens (caller :: calls) (.loop turn b next) s →
      (turn b).run caller.rule s = .ok (.inr c) t → ComesTo tokens (caller :: calls) (next c) t

/-- The states of a parse, with the calls in progress: wherever it comes to, and where a rule has
ended, with an error or without one, and its body has not yet been left. -/
inductive During (tokens : List Token) : List Call → State → Prop where
  | comes {o : Outline α} : ComesTo tokens calls o s → During tokens calls s
  | ended {rule : Rule β} {next : Except SyntaxError β → Outline α} :
      ComesTo tokens (caller :: calls) (.call rule next) s →
      During tokens (⟨rule, entered (caller.rule.bodyOf rule) s⟩ :: caller :: calls)
        (stateAfter (rule.parser (entered (caller.rule.bodyOf rule) s)))

/-- What holds throughout a parse if it holds at the start: moving on keeps it, and so does entering
a body, with one call more in progress. -/
structure Persists (I : List Call → State → Prop) : Prop where
  moves : ∀ {calls s t ts}, I calls s → s.Moves t ts → I calls t
  enters : ∀ {α : Type} {caller calls s} (rule : Rule α), I (caller :: calls) s →
    I (⟨rule, entered (caller.rule.bodyOf rule) s⟩ :: caller :: calls)
      (entered (caller.rule.bodyOf rule) s)

section

variable {tokens : List Token} {caller : Call} {calls : List Call} {s : State}

/-- What persists holds wherever the parse comes to. -/
theorem Persists.comesTo {I : List Call → State → Prop} (inv : Persists I)
    (start : I [wholeProgram tokens] (.ofTokens tokens)) {o : Outline α}
    (h : ComesTo tokens calls o s) : I calls s := by
  induction h with
  | start => exact start
  | @step _ _ _ _ _ _ p _ _ hr ih =>
    obtain ⟨ts, moves⟩ := p.forward.moving.of_ok hr
    exact inv.moves ih moves
  | enter _ ih => exact inv.enters _ ih
  | @leave _ _ caller _ _ _ _ rule _ _ hr ih =>
    obtain ⟨ts, moves⟩ :=
      (rule.forward.moving.within (caller.rule.bodyOf rule)).attempt.of_ok hr
    exact inv.moves ih moves
  | turn _ ih => exact ih
  | again _ hr ih | exit _ hr ih =>
    obtain ⟨ts, moves⟩ := (Outline.moving _ _).of_ok hr
    exact inv.moves ih moves

/-- It holds where a body has not yet been left, too. -/
theorem Persists.during {I : List Call → State → Prop} (inv : Persists I)
    (start : I [wholeProgram tokens] (.ofTokens tokens)) (h : During tokens calls s) :
    I calls s := by
  cases h with
  | comes h => exact inv.comesTo start h
  | @ended _ _ caller calls s rule _ h =>
    obtain ⟨ts, moves⟩ := rule.forward.moving (entered (caller.rule.bodyOf rule) s)
    exact inv.moves (inv.enters rule (inv.comesTo start h)) moves

/-- Two parsers in a row give something only if the first one does, and the second one after it. -/
theorem bind_eq_ok {p : Parser α} {f : α → Parser β} {s t : State} {b : β}
    (h : (p >>= f) s = .ok b t) : ∃ a u, p s = .ok a u ∧ f a u = .ok b t := by
  simp only [Bind.bind, EStateM.bind] at h
  cases hp : p s with
  | error e u =>
    rw [hp] at h
    contradiction
  | ok a u =>
    rw [hp] at h
    exact ⟨a, u, rfl, h⟩

/-- Where a loop of the parser gives something, the parse comes to what follows the loop. -/
theorem ComesTo.repeated {turn : β → Outline (β ⊕ γ)} {next : γ → Outline α} {b : β}
    (h : ComesTo tokens (caller :: calls) (.loop turn b next) s) {c : γ} {t : State}
    (hr : iterate b (fun b => (turn b).run caller.rule) s = .ok c t) :
    ComesTo tokens (caller :: calls) (next c) t := by
  simp only [iterate] at hr
  -- However many tokens the loop may use up.
  generalize s.rest = bound at hr
  induction bound generalizing b s with
  | nil =>
    rw [repeatStep] at hr
    obtain ⟨r, u, ht, hr⟩ := bind_eq_ok hr
    cases r with
    | inl b' => contradiction
    | inr c' =>
      cases hr
      exact h.exit ht
  | cons token bound ih =>
    rw [repeatStep] at hr
    obtain ⟨r, u, ht, hr⟩ := bind_eq_ok hr
    cases r with
    | inl b' => exact ih (h.again ht) hr
    | inr c' =>
      cases hr
      exact h.exit ht

/-- Where an outline gives something, the parse comes to the end of the outline. -/
theorem ComesTo.done {o : Outline α} (h : ComesTo tokens (caller :: calls) o s) {a : α} {t : State}
    (hr : o.run caller.rule s = .ok a t) :
    ComesTo tokens (caller :: calls) (.done (.ok a)) t := by
  induction o generalizing s with
  | done result =>
    cases result with
    | error error => contradiction
    | ok b =>
      cases hr
      exact h
  | step p next ih =>
    obtain ⟨b, u, hp, hr⟩ := bind_eq_ok hr
    exact ih b (h.step hp) hr
  | call rule next ih =>
    obtain ⟨r, u, hc, hr⟩ := bind_eq_ok hr
    exact ih r (h.leave hc) hr
  | loop turn start next _ ih =>
    obtain ⟨c, u, hl, hr⟩ := bind_eq_ok hr
    exact ih c (h.repeated hl) hr

/-- The parse comes to the end of the program, with the statements and errors that it gives. -/
theorem comesTo_parsed (tokens : List Token) :
    ∃ t, ComesTo tokens [wholeProgram tokens] (.done (.ok (parse tokens).statements)) t ∧
      t.errors.toList = (parse tokens).errors := by
  obtain ⟨t, read, errors⟩ := parse_unbounded tokens
  have followed : Rule.program.outline.run .program (.ofTokens tokens) =
      .ok (parse tokens).statements t := by
    rw [Rule.run_outline]
    exact read
  exact ⟨t, ComesTo.start.done followed, errors⟩

/-- A rule that is begun as a body or as none is ended, with something read or with an error that
whatever has called for it can catch, and moves on. -/
theorem exists_returned (body : Option Body) (rule : Rule α) (s : State) :
    ∃ r t ts, attempt (within body rule.parser) s = .ok r t ∧ s.Moves t ts := by
  obtain ⟨t, ⟨ts, moves⟩, ends⟩ := rule.forward (entered body s)
  obtain ⟨a, h⟩ | ⟨message, h⟩ := ends
  · exact ⟨.ok a, _, ts, by simp only [attempt, within_apply, h], moves.left⟩
  · exact ⟨.error (.atToken t.peek message), _, ts, by simp only [attempt, within_apply, h],
      moves.left⟩

end

/-! ### Counting bodies -/

/-- How many bodies of functions are open. -/
def functionsOpen (around : List Body) : Nat := around.count .function

/-- How many bodies of loops are open inside the innermost body of a function. -/
def loopsOpen (around : List Body) : Nat := (around.takeWhile (· ≠ .function)).count .loop

/-- The depth that counts bodies of a kind. -/
def State.depthOf (s : State) : Body → Nat
  | .loop => s.loops
  | .function => s.functions

/-- The state has the depths of what is open around it. -/
structure State.Counts (s : State) (around : List Body) : Prop where
  functions : s.functions = functionsOpen around
  loops : s.loops = loopsOpen around

namespace State.Counts

variable {s t : State} {around : List Body}

/-- Tokens that are passed by open and close nothing. -/
theorem moves {ts : List Token} (h : s.Counts around) (hm : s.Moves t ts) : t.Counts around :=
  ⟨hm.functions.trans h.functions, hm.loops.trans h.loops⟩

/-- In the body of a loop there is one loop more. -/
theorem loop (h : s.Counts around) : (entered (some .loop) s).Counts (.loop :: around) where
  functions := by simpa [functionsOpen, entered] using h.functions
  loops := by simpa [loopsOpen, entered] using h.loops

/-- In the body of a function there is one function more, and no loop. -/
theorem function (h : s.Counts around) :
    (entered (some .function) s).Counts (.function :: around) where
  functions := by simpa [functionsOpen, entered] using h.functions
  loops := by simp [loopsOpen, entered]

/-- The innermost body is among those that are counted. -/
theorem depthOf_pos {body : Body} (h : s.Counts (body :: around)) : 0 < s.depthOf body := by
  cases body with
  | loop => simp [State.depthOf, h.loops, loopsOpen]
  | function => simp [State.depthOf, h.functions, functionsOpen]

/-- What a jump is checked against is what is open around it. -/
theorem context_eq (h : s.Counts around) : s.context = contextOf around := by
  have function : s.functions ≠ 0 ↔ .function ∈ around := by
    rw [h.functions, functionsOpen, ← Nat.pos_iff_ne_zero, List.count_pos_iff]
  have loop : s.loops ≠ 0 ↔ .loop ∈ around.takeWhile (· ≠ .function) := by
    rw [h.loops, loopsOpen, ← Nat.pos_iff_ne_zero, List.count_pos_iff]
  simp only [State.context, contextOf, inLoop, function, loop]

end State.Counts

/-- Bodies are counted throughout a parse. -/
theorem persists_counts : Persists fun calls s => s.Counts (bodies calls) where
  moves h hm := h.moves hm
  enters {_ caller _ _} rule h := by
    rw [bodies]
    cases caller.rule.bodyOf rule with
    | none => exact h
    | some body =>
      cases body with
      | loop => exact h.loop
      | function => exact h.function

/-- A parse is never before what is being read. -/
theorem persists_suffix : Persists fun calls s => ∀ call ∈ calls, s.rest <:+ call.start.rest where
  moves h hm call hcall := (hm.rest ▸ List.suffix_append _ _).trans (h call hcall)
  enters {_ caller _ s} rule h := by
    have same : (entered (caller.rule.bodyOf rule) s).rest = s.rest := by
      rcases caller.rule.bodyOf rule with _ | _ | _ <;> rfl
    exact List.forall_mem_cons.mpr ⟨List.suffix_refl _, fun call hcall => same ▸ h call hcall⟩

/-- What there is to say of the depths when tokens are parsed. -/
structure CountsBodies (tokens : List Token) : Prop where
  /-- What a parser does is what its outline says: its steps, and the rules that it calls for. -/
  outlined : ∀ {α : Type} (rule : Rule α), rule.outline.run rule = rule.parser
  /-- The parse comes to an end, with the statements and the errors of the tokens. -/
  parsed : ∃ t, ComesTo tokens [wholeProgram tokens] (.done (.ok (parse tokens).statements)) t ∧
    t.errors.toList = (parse tokens).errors
  /-- At every moment the depths are the numbers of bodies that are open: of functions, and of loops
  inside the innermost of them. -/
  counts : ∀ calls s, During tokens calls s →
    s.functions = functionsOpen (bodies calls) ∧ s.loops = loopsOpen (bodies calls)
  /-- These are around the place: what has been called for has started there or before. -/
  around : ∀ calls s, During tokens calls s → ∀ call ∈ calls, s.rest <:+ call.start.rest
  /-- So a jump is checked against what is open around it. -/
  context : ∀ calls s, During tokens calls s → s.context = contextOf (bodies calls)
  /-- Wherever it starts, a parser ends with the depths that it has started with, whether it has
  read something or gives up. -/
  restores : ∀ {α : Type} (rule : Rule α) s, ∃ t, EndsAt s (rule.parser s) t ∧
    t.loops = s.loops ∧ t.functions = s.functions
  /-- Steps do not touch them. -/
  steps : ∀ {α : Type} (p : Primitive α) s, ∃ a t, p.run s = .ok a t ∧
    t.loops = s.loops ∧ t.functions = s.functions
  /-- So it is with all that is called for during the parse, after which it goes on, with an error
  as well. -/
  returns : ∀ {α β : Type} caller calls (rule : Rule β) (next : Except SyntaxError β → Outline α) s,
    ComesTo tokens (caller :: calls) (.call rule next) s →
    ∃ r t, attempt (within (caller.rule.bodyOf rule) rule.parser) s = .ok r t ∧
      ComesTo tokens (caller :: calls) (next r) t ∧ t.loops = s.loops ∧ t.functions = s.functions
  /-- When a body has ended it is left, and the depth that is counted down then is not zero. -/
  unwinds : ∀ {α β : Type} caller calls body (rule : Rule β)
    (next : Except SyntaxError β → Outline α) s,
    ComesTo tokens (caller :: calls) (.call rule next) s → caller.rule.bodyOf rule = some body →
    ∃ ended, stateAfter (rule.parser (entered (some body) s)) = ended ∧
      stateAfter (within (some body) rule.parser s) = left s (some body) ended ∧
      0 < ended.depthOf body
  /-- Nothing is open where a declaration of the program starts. -/
  topLevel : ∀ {α : Type} (next : Except SyntaxError Stmt → Outline α) s,
    ComesTo tokens [wholeProgram tokens] (.call .declaration next) s →
    s.loops = 0 ∧ s.functions = 0

/-- Whatever the tokens are, the depths are right at every moment of their parse. -/
theorem parse_countsBodies (tokens : List Token) : CountsBodies tokens := by
  have start : (State.ofTokens tokens).Counts (bodies [wholeProgram tokens]) := ⟨rfl, rfl⟩
  have counted (calls : List Call) (s : State) (h : During tokens calls s) :
      s.Counts (bodies calls) := persists_counts.during start h
  constructor
  case outlined => exact fun rule => rule.run_outline
  case parsed => exact comesTo_parsed tokens
  case counts => exact fun calls s h => ⟨(counted calls s h).functions, (counted calls s h).loops⟩
  case around =>
    exact fun calls s h => persists_suffix.during
      (List.forall_mem_singleton.mpr (List.suffix_refl _)) h
  case context => exact fun calls s h => (counted calls s h).context_eq
  case restores =>
    intro α rule s
    obtain ⟨t, ends⟩ := rule.forward s
    obtain ⟨ts, moves⟩ := ends.moves
    exact ⟨t, ends, moves.loops, moves.functions⟩
  case steps =>
    intro α p s
    obtain ⟨a, t, hr⟩ := p.run_ok s
    obtain ⟨ts, moves⟩ := p.forward.moving.of_ok hr
    exact ⟨a, t, hr, moves.loops, moves.functions⟩
  case returns =>
    intro α β caller calls rule next s h
    obtain ⟨r, t, ts, hr, moves⟩ := exists_returned (caller.rule.bodyOf rule) rule s
    exact ⟨r, t, hr, h.leave hr, moves.loops, moves.functions⟩
  case unwinds =>
    intro α β caller calls body rule next s h hbody
    have ended := counted _ _ (.ended h)
    rw [bodies, hbody] at ended
    exact ⟨_, rfl, stateAfter_within (some body) rule.parser s, ended.depthOf_pos⟩
  case topLevel =>
    intro α next s h
    exact ⟨(counted _ _ (.comes h)).loops, (counted _ _ (.comes h)).functions⟩

/-- The body of a loop fails in a function that is in another loop. -/
example :
    (parse (Source.scan ("while (a) \x7b fun f() \x7b while (b) ) c; break; return; \x7d " ++
      "continue; \x7d break; return;")).tokens).errors.map SyntaxError.text =
      ["[line 1] Error at ')': Expect expression.",
        "[line 1] Error at 'break': Cannot use 'break' outside of a loop.",
        "[line 1] Error at 'break': Cannot use 'break' outside of a loop.",
        "[line 1] Error at 'return': Cannot return from top-level code."] := by
  decide +kernel

end Lox.Grammar
