import Lox.Proofs.Grammar.Derivation

/-!
# What parsers do to the state

A parser moves past tokens and adds errors; it changes nothing else. If it gives up, it
does so with an error at the token it has come to, and never for the bound on nesting as
long as the bound is large enough for the tokens that are left. Where it adds no error,
what it gives is tied to the tokens it has moved past. Each way of composing parsers
keeps this.
-/

namespace Lox.Grammar

/-- From `s` on, `tokens` have been read to come to `t`. -/
structure State.Moves (s t : State) (tokens : List Token) : Prop where
  rest : s.rest = tokens ++ t.rest
  eof : t.eof = s.eof
  loops : t.loops = s.loops
  functions : t.functions = s.functions
  errors : ∃ new, t.errors.toList = s.errors.toList ++ new

namespace State.Moves

theorem refl (s : State) : s.Moves s [] := ⟨rfl, rfl, rfl, rfl, [], by simp⟩

/-- Moves add up, and so do the tokens that they pass. -/
theorem trans {s t u : State} {ts us : List Token} (h : s.Moves t ts) (h' : t.Moves u us) :
    s.Moves u (ts ++ us) where
  rest := by rw [h.rest, h'.rest, List.append_assoc]
  eof := h'.eof.trans h.eof
  loops := h'.loops.trans h.loops
  functions := h'.functions.trans h.functions
  errors := by
    obtain ⟨new, hn⟩ := h.errors
    obtain ⟨new', hn'⟩ := h'.errors
    exact ⟨new ++ new', by rw [hn', hn, List.append_assoc]⟩

/-- To move changes nothing about the bodies around. -/
theorem context {s t : State} {ts : List Token} (h : s.Moves t ts) : t.context = s.context := by
  simp only [State.context, h.loops, h.functions]

/-- What is passed and what is ahead afterwards was ahead before. -/
theorem length {s t : State} {ts : List Token} (h : s.Moves t ts) :
    ts.length + t.rest.length = s.rest.length := by
  rw [h.rest, List.length_append]

/-- If there is no new error at the end, there is none on the way. -/
theorem errors_eq {s t u : State} {ts us : List Token} (h : s.Moves t ts) (h' : t.Moves u us)
    (same : u.errors = s.errors) : t.errors = s.errors ∧ u.errors = t.errors := by
  obtain ⟨new, hn⟩ := h.errors
  obtain ⟨new', hn'⟩ := h'.errors
  rw [same, hn, List.append_assoc, List.self_eq_append_right, List.append_eq_nil_iff] at hn'
  have ht : t.errors = s.errors := Array.toList_inj.mp (by rw [hn, hn'.1, List.append_nil])
  exact ⟨ht, same.trans ht.symm⟩

/-- Errors that are added leave the place as it is. -/
theorem report (s : State) (error : SyntaxError) :
    s.Moves { s with errors := s.errors.push error } [] :=
  ⟨rfl, rfl, rfl, rfl, [error], by simp⟩

/-- Moving past the token ahead. -/
theorem advance {s : State} {token : Token} {rest : List Token} (h : s.rest = token :: rest) :
    s.Moves { s with rest := rest } [token] :=
  ⟨h, rfl, rfl, rfl, [], by simp⟩

end State.Moves

/-- An error more makes a different list of errors. -/
theorem push_ne_self (errors : Array SyntaxError) (error : SyntaxError) :
    errors.push error ≠ errors := by
  intro h
  have hs := congrArg Array.size h
  rw [Array.size_push] at hs
  omega

/-- What is known of tokens that have been read: what is open around them, what they have been read
as, and which tokens follow them. -/
abbrev Reading (α : Type) := Context → List Token → α → List Token → Prop

/-- How a parser may end that starts at `s`: it has moved on over at least as many tokens as `least`
tells, and if it added no error, its result is as `R` says; or it has moved on and gives up with an
error at the token it has come to. -/
def State.Reaches (s : State) (least : α → Nat) (R : Reading α) :
    EStateM.Result Failure State α → Prop
  | .ok a t =>
    ∃ ts, s.Moves t ts ∧ least a ≤ ts.length ∧ (t.errors = s.errors → R s.context ts a t.rest)
  | .error e t => (∃ message, e = .unexpected (.atToken t.peek message)) ∧ ∃ ts, s.Moves t ts

theorem State.Reaches.mono {s : State} {least fewer : α → Nat} {R Q : Reading α}
    {result : EStateM.Result Failure State α} (h : s.Reaches least R result)
    (hl : ∀ a, fewer a ≤ least a)
    (hR : ∀ ts a next, s.rest = ts ++ next → R s.context ts a next → Q s.context ts a next) :
    s.Reaches fewer Q result := by
  cases result with
  | error e t => exact h
  | ok a t =>
    obtain ⟨ts, moves, hk, hRa⟩ := h
    exact ⟨ts, moves, Nat.le_trans (hl a) hk, fun clean => hR _ _ _ moves.rest (hRa clean)⟩

theorem State.Reaches.map {s : State} {least : α → Nat} {total : β → Nat} {R : Reading α}
    {Q : Reading β} {p : Parser α} {f : α → β} (h : s.Reaches least R (p s))
    (hl : ∀ a, total (f a) ≤ least a)
    (hR : ∀ ts a next, R s.context ts a next → Q s.context ts (f a) next) :
    s.Reaches total Q ((f <$> p) s) := by
  simp only [Functor.map, EStateM.map]
  cases hr : p s with
  | error e t =>
    rw [hr] at h
    exact h
  | ok a t =>
    obtain ⟨ts, moves, hk, hRa⟩ := hr ▸ h
    exact ⟨ts, moves, Nat.le_trans (hl a) hk, fun clean => hR _ _ _ (hRa clean)⟩

/-- What a second parser reaches from where a first one has come to. -/
theorem State.Moves.reaches {s t : State} {us : List Token} {least total : α → Nat}
    {R Q : Reading α} {result : EStateM.Result Failure State α} (moves : s.Moves t us)
    (h : t.Reaches least R result) (hl : ∀ a, total a ≤ us.length + least a)
    (hR : t.errors = s.errors → ∀ ts a next, t.rest = ts ++ next → R t.context ts a next →
      Q s.context (us ++ ts) a next) :
    s.Reaches total Q result := by
  cases result with
  | error e u =>
    obtain ⟨located, ts, moves'⟩ := h
    exact ⟨located, us ++ ts, moves.trans moves'⟩
  | ok a u =>
    obtain ⟨ts, moves', hk, hRa⟩ := h
    refine ⟨us ++ ts, moves.trans moves', ?_, fun clean => ?_⟩
    · have := hl a
      rw [List.length_append]
      omega
    · obtain ⟨cleanFirst, cleanSecond⟩ := moves.errors_eq moves' clean
      exact hR cleanFirst ts a u.rest moves'.rest (hRa cleanSecond)

/-- A parser on at most `n` tokens, wherever it starts, ends as it may. -/
def Parses (n : Nat) (least : α → Nat) (p : Parser α) (R : Reading α) : Prop :=
  ∀ s : State, s.rest.length ≤ n → s.Reaches least R (p s)

namespace Parses

variable {n : Nat} {α β : Type} {least : α → Nat} {p : Parser α} {R : Reading α}

/-- What is known may be weakened. -/
theorem mono {m : Nat} {fewer : α → Nat} {Q : Reading α} (h : Parses n least p R) (hm : m ≤ n)
    (hl : ∀ a, fewer a ≤ least a) (hR : ∀ c ts a next, R c ts a next → Q c ts a next) :
    Parses m fewer p Q := fun s hs =>
  (h s (Nat.le_trans hs hm)).mono hl fun ts a next _ => hR s.context ts a next

theorem implies {Q : Reading α} (h : Parses n least p R)
    (hR : ∀ c ts a next, R c ts a next → Q c ts a next) : Parses n least p Q :=
  h.mono (Nat.le_refl n) (fun _ => Nat.le_refl _) hR

theorem pure {a : α} (hl : least a = 0) (hR : ∀ c next, R c [] a next) :
    Parses n least (Pure.pure a) R := by
  intro s _
  exact ⟨[], .refl s, Nat.le_of_eq hl, fun _ => hR _ _⟩

/-- What fails reads nothing. -/
theorem failHere (message : String) : Parses n least (failHere message) R := by
  intro s _
  exact ⟨⟨message, rfl⟩, [], .refl s⟩

/-- One parser after another: the second one is to know what the first one has read. -/
theorem bind {f : α → Parser β} {total : β → Nat} {Q : Reading β} (hp : Parses n least p R)
    (hf : ∀ a, least a ≤ n → Parses (n - least a) (fun b => total b - least a) (f a)
      fun c ts b next => ∀ us, R c us a (ts ++ next) → Q c (us ++ ts) b next) :
    Parses n total (p >>= f) Q := by
  intro s hs
  have first := hp s hs
  simp only [Bind.bind, EStateM.bind]
  cases hr : p s with
  | error e t =>
    rw [hr] at first
    exact first
  | ok a t =>
    obtain ⟨us, moves, hk, hRa⟩ := hr ▸ first
    have hlength := moves.length
    refine moves.reaches (hf a (by omega) t (by omega)) (by intro b; omega) ?_
    intro clean ts b next hrest hQ
    exact moves.context ▸ hQ us (by rw [moves.context, ← hrest]; exact hRa clean)

theorem map {f : α → β} {Q : Reading β} {total : β → Nat} (hp : Parses n least p R)
    (hl : ∀ a, total (f a) ≤ least a)
    (hQ : ∀ c ts a next, R c ts a next → Q c ts (f a) next) : Parses n total (f <$> p) Q :=
  fun s hs => (hp s hs).map hl (hQ s.context)

/-- What follows depends on whether a token of some kinds is ahead, which is then read. -/
theorem acceptAny? {kinds : List TokenKind} {f : Option Token → Parser α}
    (found : ∀ token, token.kind ∈ kinds → 1 ≤ n →
      Parses (n - 1) (fun a => least a - 1) (f (some token))
        fun c ts a next => R c (token :: ts) a next)
    (missing : Parses n least (f none) fun c ts a next =>
      (∀ t ∈ (ts ++ next).head?, t.kind ∉ kinds) → R c ts a next) :
    Parses n least (Grammar.acceptAny? kinds >>= f) R := by
  intro s hs
  have absent (h : ∀ t ∈ s.rest.head?, t.kind ∉ kinds) : s.Reaches least R (f none s) :=
    (missing s hs).mono (fun _ => Nat.le_refl _) fun ts a next hrest hR => hR (hrest ▸ h)
  simp only [Bind.bind, EStateM.bind, Grammar.acceptAny?]
  cases hr : s.rest with
  | nil => exact absent (by simp [hr])
  | cons token rest =>
    by_cases hk : token.kind ∈ kinds
    · have moved : s.Moves { s with rest := rest } [token] := .advance hr
      rw [hr, List.length_cons] at hs
      simp only [if_pos hk]
      refine moved.reaches (found token hk (by omega) _ (by simp only; omega)) ?_ ?_
      · intro a
        rw [List.length_singleton]
        omega
      · exact fun _ ts a next _ hR => hR
    · simp only [if_neg hk]
      exact absent (by simp [hr, hk])

/-- What follows depends on whether a token of one kind is ahead, which is then read. -/
theorem accept? {kind : TokenKind} {f : Option Token → Parser α}
    (found : ∀ token, token.kind = kind → 1 ≤ n →
      Parses (n - 1) (fun a => least a - 1) (f (some token))
        fun c ts a next => R c (token :: ts) a next)
    (missing : Parses n least (f none) fun c ts a next =>
      (∀ t ∈ (ts ++ next).head?, t.kind ≠ kind) → R c ts a next) :
    Parses n least (Grammar.accept? kind >>= f) R :=
  .acceptAny? (fun token h => found token (List.mem_singleton.mp h))
    (missing.implies fun _ _ _ _ hR h => hR fun t ht heq => h t ht (List.mem_singleton.mpr heq))

/-- A token that has to be ahead, and what follows it. -/
theorem expect {kind : TokenKind} {message : String} {f : Token → Parser α}
    (hf : ∀ token, token.kind = kind → 1 ≤ n → Parses (n - 1) (fun a => least a - 1) (f token)
      fun c ts a next => R c (token :: ts) a next) :
    Parses n least (Grammar.expect kind message >>= f) R := by
  rw [Grammar.expect, bind_assoc]
  exact .accept? hf fun s _ => ⟨⟨message, rfl⟩, [], .refl s⟩

/-- A token that has to be ahead. -/
theorem expect_self (kind : TokenKind) (message : String) :
    Parses n (fun _ => 1) (Grammar.expect kind message) fun _ ts token _ =>
      ts = [token] ∧ token.kind = kind :=
  .accept? (fun _ h _ => .pure rfl fun _ _ => ⟨rfl, h⟩) (.failHere message)

/-- Nothing is known of what has been read where an error is noted. -/
theorem report (token : Token) (message : String) :
    Parses n (fun _ => 0) (report token message) fun _ _ _ _ => False := fun s _ =>
  ⟨[], .report s _, Nat.zero_le _, fun clean => absurd clean (push_ne_self _ _)⟩

/-- What follows a check that adds an error if something is wrong with the state. -/
theorem reportIf {wrong : State → Bool} {token : Token} {message : String} {f : Unit → Parser α}
    (hf : Parses n least (f ()) fun c ts a next =>
      (∃ s : State, s.context = c ∧ wrong s = false) → R c ts a next) :
    Parses n least (Grammar.reportIf wrong token message >>= f) R := by
  intro s hs
  simp only [Bind.bind, EStateM.bind, Grammar.reportIf]
  cases hw : wrong s with
  | true =>
    refine (State.Moves.report s _).reaches (hf _ hs) (by intro a; omega) fun clean => ?_
    exact absurd clean (push_ne_self _ _)
  | false => exact (hf s hs).mono (fun _ => Nat.le_refl _) fun ts a next _ hR => hR ⟨s, rfl, hw⟩

/-- What follows a check that adds an error if there are too many items. -/
theorem reportExcess {limit count : Nat} {message : String} {f : Unit → Parser α}
    (hf : Parses n least (f ()) fun c ts a next => count < limit → R c ts a next) :
    Parses n least (Grammar.reportExcess limit count message >>= f) R := by
  intro s hs
  simp only [Bind.bind, EStateM.bind, Grammar.reportExcess]
  by_cases hw : limit ≤ count
  · rw [if_pos hw]
    refine (State.Moves.report s _).reaches (hf _ hs) (by intro a; omega) fun clean => ?_
    exact absurd clean (push_ne_self _ _)
  · rw [if_neg hw]
    exact (hf s hs).mono (fun _ => Nat.le_refl _) fun ts a next _ hR => hR (by omega)

/-- A phrase that is left out if a token of one kind is ahead. -/
theorem unlessAt (kind : TokenKind) {otherwise : α} {Q : Reading α} (hp : Parses n least p R)
    (hleast : least otherwise = 0) (habsent : ∀ c next, Q c [] otherwise next)
    (hQ : ∀ c ts a next, R c ts a next → Q c ts a next) :
    Parses n least (Grammar.unlessAt kind otherwise p) Q := by
  intro s hs
  simp only [Grammar.unlessAt, Bind.bind, EStateM.bind, isAt]
  by_cases h : s.isAt kind
  · rw [if_pos h]
    exact ⟨[], .refl s, Nat.le_of_eq hleast, fun _ => habsent _ _⟩
  · rw [if_neg h]
    exact hp.implies hQ s hs

/-- In the body of a loop one loop more is open. -/
theorem withinLoop (hp : Parses n least p R) :
    Parses n least (withinLoop p) fun c ts a next => R c.loop ts a next := by
  intro s hs
  have h := hp { s with loops := s.loops + 1 } hs
  simp only [Grammar.withinLoop, bracket]
  cases hr : p { s with loops := s.loops + 1 } with
  | error e t =>
    obtain ⟨located, ts, moves⟩ := hr ▸ h
    exact ⟨located, ts, moves.rest, moves.eof, by simp only [moves.loops, Nat.add_sub_cancel],
      moves.functions, moves.errors⟩
  | ok a t =>
    obtain ⟨ts, moves, hl, hR⟩ := hr ▸ h
    refine ⟨ts, ⟨moves.rest, moves.eof, by simp only [moves.loops, Nat.add_sub_cancel],
      moves.functions, moves.errors⟩, hl, fun clean => ?_⟩
    simpa only [State.context, Context.loop, ne_eq, Nat.add_eq_zero_iff, Nat.one_ne_zero, and_false,
      not_false_eq_true, decide_true] using hR clean

/-- In the body of a function no loop is open. -/
theorem withinFunction (hp : Parses n least p R) :
    Parses n least (withinFunction p) fun _ ts a next => R .function ts a next := by
  intro s hs
  have h := hp { s with loops := 0, functions := s.functions + 1 } hs
  simp only [Grammar.withinFunction, bracket]
  cases hr : p { s with loops := 0, functions := s.functions + 1 } with
  | error e t =>
    obtain ⟨located, ts, moves⟩ := hr ▸ h
    exact ⟨located, ts, moves.rest, moves.eof, rfl,
      by simp only [moves.functions, Nat.add_sub_cancel], moves.errors⟩
  | ok a t =>
    obtain ⟨ts, moves, hl, hR⟩ := hr ▸ h
    refine ⟨ts, ⟨moves.rest, moves.eof, rfl,
      by simp only [moves.functions, Nat.add_sub_cancel], moves.errors⟩, hl, fun clean => ?_⟩
    simpa only [State.context, Context.function, ne_eq, Nat.add_eq_zero_iff, Nat.one_ne_zero,
      and_false, not_false_eq_true, not_true_eq_false, decide_true, decide_false] using hR clean

/-- What a step of a repetition has to do with what `I` says of everything read so far: keep it, or
come to the result and to what `R` says. -/
def Continues (I : Reading α) (R : Reading β) (a : α) : Reading (α ⊕ β) := fun c ts r next =>
  ∀ us, I c us a (ts ++ next) →
    match r with
    | .inl a => I c (us ++ ts) a next
    | .inr b => R c (us ++ ts) b next

/-- A step that reads and goes on keeps an invariant of what has been read so far. -/
private theorem repeatStep {least : β → Nat} {step : α → Parser (α ⊕ β)} {I : Reading α}
    {R : Reading β}
    (hstep : ∀ a, Parses n (Sum.elim (fun _ => 1) least) (step a) (Continues I R a))
    (bound : List Token) (a : α) :
    Parses (min n bound.length) least (repeatStep step bound a)
      fun c ts b next => ∀ us, I c us a (ts ++ next) → R c (us ++ ts) b next := by
  have first (a : α) (m : Nat) := (hstep a).mono (Nat.min_le_left n m) (fun _ => Nat.le_refl _)
    fun _ _ _ _ h => h
  have result (m : Nat) (a : α) (b : β) : Parses m (fun b' => least b' - least b)
      (Pure.pure b : Parser β) fun c ts b next => ∀ us, Continues I R a c us (.inr b) (ts ++ next) →
        ∀ vs, I c vs a (us ++ ts ++ next) → R c (vs ++ (us ++ ts)) b next := by
    refine .pure (Nat.sub_self _) fun c next us h vs hI => ?_
    rw [List.append_nil] at hI ⊢
    exact h vs hI
  induction bound generalizing a with
  | nil =>
    rw [Grammar.repeatStep]
    refine (first a _).bind fun r hr => ?_
    cases r with
    | inl a' => exact absurd hr (by simp)
    | inr b => exact result _ a b
  | cons token bound ih =>
    rw [Grammar.repeatStep]
    refine (first a _).bind fun r hr => ?_
    cases r with
    | inl a' =>
      refine (ih a').mono ?_ ?_ fun c ts b next h us hus vs hI => ?_
      · simp only [Sum.elim_inl, List.length_cons]
        omega
      · simp only [Sum.elim_inl]
        omega
      · rw [List.append_assoc] at hI
        rw [← List.append_assoc]
        exact h (vs ++ us) (hus vs hI)
    | inr b => exact result _ a b

/-- A repetition keeps what each step keeps, whatever has been read before it. Its bound is never
reached, for there are no more steps than tokens. -/
theorem iterate {least : β → Nat} {step : α → Parser (α ⊕ β)} {I : Reading α} {R : Reading β}
    (hstep : ∀ a, Parses n (Sum.elim (fun _ => 1) least) (step a) (Continues I R a)) (a : α) :
    Parses n least (iterate a step)
      fun c ts b next => ∀ us, I c us a (ts ++ next) → R c (us ++ ts) b next :=
  fun s hs => repeatStep hstep s.rest a s (by omega)

/-- A repetition that nothing has been read before. -/
theorem iterate_start {least : β → Nat} {step : α → Parser (α ⊕ β)} {I : Reading α}
    {R : Reading β}
    (hstep : ∀ a, Parses n (Sum.elim (fun _ => 1) least) (step a) (Continues I R a)) {a : α}
    (start : ∀ c next, I c [] a next) : Parses n least (Grammar.iterate a step) R :=
  (iterate hstep a).implies fun _ _ _ _ h => h [] (start _ _)

/-- Items with commas between them, no more than there may be. -/
theorem commaSeparated (message : String) {item : Parser α} {phrase : Phrase α}
    (hitem : Parses n (fun _ => 1) item fun _ ts a _ => phrase ts a []) :
    Parses n (fun _ => 1) (commaSeparated maxArity message item) fun _ ts as _ =>
      Separated message phrase 0 ts as [] := by
  -- What is still to be read completes the items read so far.
  let I : Reading (Array α) := fun _ us items _ => ∀ ts as,
    Separated message phrase items.size ts as [] →
      Separated message phrase 0 (us ++ ts) (items.toList ++ as) []
  have noExcess {items : Array α} {ts : List Token} (h : items.size < maxArity) :
      excess items.size ts message = [] := by
    rw [excess, if_neg (by omega)]
  have items : Parses n (fun _ => 1) (Grammar.iterate #[] (separatedStep maxArity message item))
      fun _ us items _ => Separated message phrase 0 us items.toList [] := by
    refine iterate_start (I := I) (fun items => ?_) fun _ _ ts as h => by simpa using h
    refine .reportExcess (hitem.bind fun a hn => ?_)
    refine .accept? (fun comma hcomma _ => .pure rfl ?_) (.pure rfl ?_)
    · intro c next ts hts below us hI vs as hrest
      have h := Separated.comma hts hcomma (by simpa only [Array.size_push] using hrest)
      rw [noExcess below] at h
      simpa using hI _ _ h
    · intro c next _ ts hts below us hI
      have h : Separated message phrase items.size ts [a] (excess items.size ts message ++ []) :=
        .last hts
      rw [noExcess below] at h
      simpa using hI _ _ h
  exact items.bind fun items _ => .pure rfl fun c next us h => by simpa using h

end Parses

end Lox.Grammar
