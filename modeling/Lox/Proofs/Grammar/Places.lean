import Lox.Proofs.Grammar.Recovery
import Lox.Proofs.Grammar.Rules

/-!
# Places in the tokens

Seen from outside, a parser moves an index through the tokens that it was given, closed by an end
of the input. Every place that it comes to lies at the first such end or before it, so the token
there and the one before it can always be read, and what comes after the first end is never seen.
-/

namespace Lox.Grammar

/-- The tokens of a parse: an end of the input is put after them, on the line of the last one,
unless the last one is an end itself. -/
def closed (tokens : List Token) : List Token :=
  if tokens.getLast?.any (·.kind = .eof) then tokens
  else tokens ++ [.plain .eof "" ((tokens.getLast?.map Token.line).getD 1)]

/-- The index of the first token that ends the input. -/
def firstEnd (tokens : List Token) : Nat := tokens.findIdx (·.kind = .eof)

/-- The state is at the index `i` of the tokens: ahead are those from there to the first end. -/
structure State.At (s : State) (tokens : List Token) (i : Nat) : Prop where
  le : i ≤ firstEnd tokens
  rest : s.rest = (tokens.take (firstEnd tokens)).drop i
  eof : tokens[firstEnd tokens]? = some s.eof

/-! ### The start -/

/-- The tokens up to the first end of the input, and that end. -/
theorem State.ofTokens_split (tokens : List Token) :
    (∀ t ∈ (State.ofTokens tokens).rest, t.kind ≠ .eof) ∧
      (State.ofTokens tokens).eof.kind = .eof ∧
      ∃ after, closed tokens =
        (State.ofTokens tokens).rest ++ (State.ofTokens tokens).eof :: after := by
  cases hfound : tokens.find? (·.kind = .eof) with
  | some eof =>
    obtain ⟨heof, before, after, rfl, hbefore⟩ := List.find?_eq_some_iff_append.mp hfound
    have hnone : ∀ t ∈ before, t.kind ≠ .eof := fun t ht => by simpa using hbefore t ht
    have taken : (before ++ eof :: after).takeWhile (·.kind ≠ .eof) = before := by
      rw [List.takeWhile_append_of_pos fun t ht => by simpa using hnone t ht]
      simpa using heof
    simp only [State.ofTokens, taken, hfound, Option.getD_some]
    refine ⟨hnone, by simpa using heof, ?_⟩
    unfold closed
    split
    · exact ⟨after, rfl⟩
    · exact ⟨_, by rw [List.append_assoc, List.cons_append]⟩
  | none =>
    have hnone : ∀ t ∈ tokens, t.kind ≠ .eof := by simpa using hfound
    have taken : tokens.takeWhile (·.kind ≠ .eof) = tokens :=
      List.takeWhile_eq_self_iff.mpr fun t ht => by simpa using hnone t ht
    have unclosed : tokens.getLast?.any (·.kind = .eof) = false := by
      rw [Option.any_eq_false]
      exact fun t ht => by simpa using hnone t (List.mem_of_getLast? ht)
    simp only [State.ofTokens, taken, hfound, Option.getD_none]
    exact ⟨hnone, rfl, [], by simp [closed, unclosed]⟩

/-- The first end of the input is where the tokens before it end. -/
theorem firstEnd_append {before : List Token} {eof : Token} (hbefore : ∀ t ∈ before, t.kind ≠ .eof)
    (heof : eof.kind = .eof) (after : List Token) :
    firstEnd (before ++ eof :: after) = before.length := by
  rw [firstEnd, List.findIdx_append, if_neg, List.findIdx_cons]
  · simp [heof]
  · simpa using hbefore

/-- At the start the place is the first one. -/
theorem State.ofTokens_at (tokens : List Token) :
    (State.ofTokens tokens).At (closed tokens) 0 := by
  obtain ⟨hnone, heof, after, hclosed⟩ := State.ofTokens_split tokens
  have hfirst := firstEnd_append hnone heof after
  rw [← hclosed] at hfirst
  refine ⟨Nat.zero_le _, ?_, ?_⟩
  · rw [hfirst, hclosed, List.take_left, List.drop_zero]
  · rw [hfirst, hclosed, List.getElem?_append_right (Nat.le_refl _), Nat.sub_self,
      List.getElem?_cons_zero]

/-- What comes after an end of the input makes no difference. -/
theorem State.ofTokens_end {eof : Token} (heof : eof.kind = .eof) (before after : List Token) :
    State.ofTokens (before ++ eof :: after) = State.ofTokens (before ++ [eof]) := by
  have ends : decide (eof.kind ≠ .eof) = false := by simp [heof]
  have found : (before ++ eof :: after).find? (·.kind = .eof) =
      (before ++ [eof]).find? (·.kind = .eof) := by
    rw [List.find?_append, List.find?_append, List.find?_cons_of_pos, List.find?_cons_of_pos] <;>
      simp [heof]
  have ended : ((before ++ [eof]).find? (·.kind = .eof)).isSome := by simp [heof]
  obtain ⟨first, hfirst⟩ := Option.isSome_iff_exists.mp ended
  have taken : (before ++ eof :: after).takeWhile (·.kind ≠ .eof) =
      (before ++ [eof]).takeWhile (·.kind ≠ .eof) := by
    rw [List.takeWhile_append, List.takeWhile_append, List.takeWhile_cons, List.takeWhile_cons,
      ends, if_neg Bool.false_ne_true, if_neg Bool.false_ne_true]
  rw [State.ofTokens, State.ofTokens, taken, found, hfirst, Option.getD_some, Option.getD_some]

/-! ### Moving on -/

namespace State.At

variable {s t : State} {tokens ts : List Token} {i : Nat}

/-- The first end is one of the tokens. -/
theorem end_lt (h : s.At tokens i) : firstEnd tokens < tokens.length :=
  (List.getElem?_eq_some_iff.mp h.eof).1

/-- The end that a state keeps is one. -/
theorem eof_kind (h : s.At tokens i) : s.eof.kind = .eof := by
  obtain ⟨hlt, heq⟩ := List.getElem?_eq_some_iff.mp h.eof
  have found := List.findIdx_getElem (w := hlt)
  rw [← heq]
  exact of_decide_eq_true found

/-- What has been read and what is ahead are the tokens before the first end. -/
theorem length (h : s.At tokens i) : i + s.rest.length = firstEnd tokens := by
  have hle := h.le
  have hlt := h.end_lt
  rw [h.rest, List.length_drop, List.length_take]
  omega

/-- No token ahead ends the input. -/
theorem kind_ne (h : s.At tokens i) : ∀ t ∈ s.rest, t.kind ≠ .eof := by
  intro t ht
  have taken : t ∈ tokens.take (firstEnd tokens) := List.mem_of_mem_drop (h.rest ▸ ht)
  obtain ⟨j, hj, rfl⟩ := List.mem_take_iff_getElem.mp taken
  have earlier : j < firstEnd tokens := (Nat.lt_min.mp hj).1
  exact of_decide_eq_false (by simpa using List.not_of_lt_findIdx earlier)

/-- The token ahead is the one at the place. -/
theorem peek (h : s.At tokens i) : tokens[i]? = some s.peek := by
  have hlength := h.length
  cases hr : s.rest with
  | nil =>
    obtain rfl : i = firstEnd tokens := by simpa [hr] using hlength
    rw [State.peek, hr, List.headD_nil, h.eof]
  | cons token rest =>
    have head : (tokens.take (firstEnd tokens))[i]? = some token := by
      rw [← Nat.add_zero i, ← List.getElem?_drop, ← h.rest, hr, List.getElem?_cons_zero]
    have earlier : i < firstEnd tokens := by simp [hr] at hlength; omega
    rw [List.getElem?_take_of_lt earlier] at head
    rw [head, State.peek, hr, List.headD_cons]

/-- The end of the input is ahead when no token is left. -/
theorem peek_kind (h : s.At tokens i) : s.peek.kind = .eof ↔ s.rest = [] := by
  cases hr : s.rest with
  | nil => simp [State.peek, hr, h.eof_kind]
  | cons token rest =>
    have hne : token.kind ≠ .eof := h.kind_ne token (hr ▸ List.mem_cons_self)
    simp [State.peek, hr, hne]

/-- Where tokens have been moved past, the place is further on by their number. -/
theorem moves (h : s.At tokens i) (hm : s.Moves t ts) : t.At tokens (i + ts.length) where
  le := by
    have hs := h.length
    have ht := hm.length
    omega
  rest := by rw [← List.drop_drop, ← h.rest, hm.rest, List.drop_left]
  eof := by rw [hm.eof, h.eof]

end State.At

/-! ### Reading by index -/

/-- A place in a list of tokens. What is read from it is `none` where that is outside the list. -/
structure Cursor where
  tokens : List Token
  current : Nat

namespace Cursor

/-- The token at the place. -/
def peek? (c : Cursor) : Option Token := c.tokens[c.current]?

/-- The token before the place; at the first one, that token. -/
def previous? (c : Cursor) : Option Token := c.tokens[c.current - 1]?

/-- Whether the token at the place ends the input. -/
def isAtEnd? (c : Cursor) : Option Bool := return (← c.peek?).kind == .eof

/-- Whether the token at the place has the given kind and does not end the input. -/
def check? (c : Cursor) (kind : TokenKind) : Option Bool := do
  if ← c.isAtEnd? then return false
  return (← c.peek?).kind == kind

/-- Moves past a token, unless it ends the input, and gives the one before the place then. -/
def advance? (c : Cursor) : Option (Token × Cursor) := do
  let next : Cursor := if ← c.isAtEnd? then c else { c with current := c.current + 1 }
  return (← next.previous?, next)

/-- Moves past a token of one of the given kinds, and tells whether there is one. -/
def matchAny? (c : Cursor) : List TokenKind → Option (Bool × Cursor)
  | [] => return (false, c)
  | kind :: kinds => do
    if ← c.check? kind then return (true, (← c.advance?).2)
    c.matchAny? kinds

/-- Moves past a token of the given kind, or gives an error at the one that is there. -/
def consume? (c : Cursor) (kind : TokenKind) (message : String) :
    Option (Except SyntaxError (Token × Cursor)) := do
  if ← c.check? kind then return .ok (← c.advance?)
  return .error (.atToken (← c.peek?) message)

/-- The place after this one. -/
def next (c : Cursor) : Cursor := { c with current := c.current + 1 }

/-- What is read by index is what a parser reads, and nothing is read outside the tokens. -/
structure Reads (c : Cursor) (s : State) : Prop where
  peek : c.peek? = some s.peek
  previous : ∃ token, c.previous? = some token
  isAtEnd : c.isAtEnd? = some s.rest.isEmpty
  check (kind : TokenKind) : c.check? kind = some (s.isAt kind)
  advance : s.rest = token :: rest → c.advance? = some (token, c.next)
  advance_end : s.rest = [] → ∃ token, c.advance? = some (token, c)
  accepted : acceptAny? kinds s = .ok (some token) t →
    c.matchAny? kinds = some (true, c.next) ∧ c.next.previous? = some token
  declined : acceptAny? kinds s = .ok none t → c.matchAny? kinds = some (false, c)
  expected : expect kind message s = .ok token t →
    c.consume? kind message = some (.ok (token, c.next))
  missing : expect kind message s = .error (.unexpected error) t →
    c.consume? kind message = some (.error error)

end Cursor

namespace State.At

variable {s : State} {tokens : List Token} {i : Nat}

/-- The cursor is at the end where nothing is ahead. -/
theorem isAtEnd? (h : s.At tokens i) : Cursor.isAtEnd? ⟨tokens, i⟩ = some s.rest.isEmpty := by
  have hkind := h.peek_kind
  simp only [Cursor.isAtEnd?, Cursor.peek?, h.peek]
  cases hr : s.rest with
  | nil => simp [hkind.mpr hr]
  | cons token rest => simpa [hr] using hkind

/-- The kind at the cursor is that of the token ahead. -/
theorem check? (h : s.At tokens i) (kind : TokenKind) :
    Cursor.check? ⟨tokens, i⟩ kind = some (s.isAt kind) := by
  have peek := h.peek
  simp only [Cursor.check?, h.isAtEnd?, Cursor.peek?]
  cases hr : s.rest with
  | nil => simp [State.isAt, hr]
  | cons token rest => simp [State.isAt, State.peek, hr, peek]

/-- The cursor gives the token ahead and moves on by one. -/
theorem advance? {token : Token} {rest : List Token} (h : s.At tokens i)
    (hr : s.rest = token :: rest) :
    Cursor.advance? ⟨tokens, i⟩ = some (token, ⟨tokens, i + 1⟩) := by
  have peek := h.peek
  simp [Cursor.advance?, h.isAtEnd?, hr, Cursor.previous?, peek, State.peek]

/-- The token before the cursor can always be looked at. -/
theorem previous? (h : s.At tokens i) : ∃ token, Cursor.previous? ⟨tokens, i⟩ = some token := by
  have hle := h.le
  have hlt := h.end_lt
  exact ⟨_, List.getElem?_eq_getElem (by show i - 1 < tokens.length; omega)⟩

/-- The cursor moves on if the token ahead is of one of the kinds. -/
theorem matchAny? (h : s.At tokens i) (kinds : List TokenKind) :
    Cursor.matchAny? ⟨tokens, i⟩ kinds =
      some (if kinds.any s.isAt then (true, ⟨tokens, i + 1⟩) else (false, ⟨tokens, i⟩)) := by
  induction kinds with
  | nil => rfl
  | cons kind kinds ih =>
    rw [Cursor.matchAny?, h.check?]
    cases hat : s.isAt kind with
    | false => simpa [hat] using ih
    | true =>
      obtain ⟨rest, hr⟩ := State.rest_of_isAt hat
      simp [h.advance? hr, hat]

/-- The cursor gives the token ahead if it is the expected one, and otherwise blames it. -/
theorem consume? (h : s.At tokens i) (kind : TokenKind) (message : String) :
    Cursor.consume? ⟨tokens, i⟩ kind message =
      some (if s.isAt kind then .ok (s.peek, ⟨tokens, i + 1⟩)
        else .error (.atToken s.peek message)) := by
  rw [Cursor.consume?, h.check?]
  cases hat : s.isAt kind with
  | false => simp [Cursor.peek?, h.peek]
  | true =>
    obtain ⟨rest, hr⟩ := State.rest_of_isAt hat
    simp [h.advance? hr]

/-- Nothing is read outside the tokens at a place that a parser comes to. -/
theorem reads (h : s.At tokens i) : Cursor.Reads ⟨tokens, i⟩ s where
  peek := h.peek
  previous := h.previous?
  isAtEnd := h.isAtEnd?
  check := h.check?
  advance := h.advance?
  advance_end hr := by
    obtain ⟨token, previous⟩ := h.previous?
    exact ⟨token, by simp [Cursor.advance?, h.isAtEnd?, hr, previous]⟩
  accepted {kinds token t} accepted := by
    rw [acceptAny?_apply] at accepted
    rw [h.matchAny?]
    split at accepted
    · next hat =>
      cases accepted
      exact ⟨by rw [if_pos hat]; rfl, h.peek⟩
    · cases accepted
  declined {kinds t} declined := by
    rw [acceptAny?_apply] at declined
    rw [h.matchAny?]
    split at declined
    · cases declined
    · next hat => rw [if_neg hat]
  expected {kind message token t} expected := by
    rw [expect_apply] at expected
    rw [h.consume?]
    split at expected
    · next hat =>
      cases expected
      rw [if_pos hat]
      rfl
    · cases expected
  missing {kind message error t} missing := by
    rw [expect_apply] at missing
    rw [h.consume?]
    split at missing
    · cases missing
    · next hat =>
      cases missing
      rw [if_neg hat]

end State.At

/-- The parser takes in every list of tokens. Its parsers are the only ones that call one another as
the grammar says, and parse it to the first end of the input. From every place that they can come
to, reading stays inside the tokens, each of them ends at that place or a later one up to the first
end, and a declaration ends at a later one, unless the input ends there. What follows an end of the
input changes nothing. -/
theorem parse_total (tokens : List Token) :
    (∀ inner : Inner, inner.Recursive ↔ inner = .unbounded) ∧
      (∃ t, Rule.program.parser (State.ofTokens tokens) = .ok (parse tokens).statements t ∧
        t.errors.toList = (parse tokens).errors ∧
        (State.ofTokens tokens).At (closed tokens) 0 ∧
        t.At (closed tokens) (firstEnd (closed tokens))) ∧
      (∀ s i, s.At (closed tokens) i →
        i ≤ firstEnd (closed tokens) ∧ firstEnd (closed tokens) < (closed tokens).length ∧
        Cursor.Reads ⟨closed tokens, i⟩ s ∧
        (∀ (α : Type) (rule : Rule α), ∃ t j,
          EndsAt s (rule.parser s) t ∧ t.At (closed tokens) j ∧ i ≤ j) ∧
        (s.peek.kind ≠ .eof → ∃ d t j,
          Rule.declaration.parser s = .ok d t ∧ t.At (closed tokens) j ∧ i < j)) ∧
      ∀ before eof after, tokens = before ++ eof :: after → eof.kind = .eof →
        ∀ more, parse (before ++ eof :: more) = parse tokens := by
  refine ⟨fun inner => Inner.recursive_iff, ?_, fun s i h => ?_, ?_⟩
  · obtain ⟨t, read, errors⟩ := parse_unbounded tokens
    obtain ⟨slots, recovered, -⟩ := recovered_declarations read
    have atEnd : t.rest = [] := List.isEmpty_iff.mp recovered.stop_eq
    obtain ⟨t', ends⟩ := Rule.program.forward (State.ofTokens tokens)
    obtain ⟨⟨ts, moves⟩, rfl⟩ : (∃ ts, (State.ofTokens tokens).Moves t' ts) ∧ t = t' :=
      ⟨ends.moves, ends.eq_of_ok read⟩
    have start := State.ofTokens_at tokens
    have arrived := start.moves moves
    have last : 0 + ts.length = firstEnd (closed tokens) := by
      simpa [atEnd] using arrived.length
    exact ⟨t, read, errors, start, last ▸ arrived⟩
  · refine ⟨h.le, h.end_lt, h.reads, fun α rule => ?_, fun hp => ?_⟩
    · obtain ⟨t, ends⟩ := rule.forward s
      obtain ⟨ts, moves⟩ := ends.moves
      exact ⟨t, _, ends, h.moves moves, Nat.le_add_right _ _⟩
    · obtain ⟨d, t, ts, read, moves, hts⟩ := declaration_progress (mt h.peek_kind.mpr hp)
      exact ⟨d, t, _, read, h.moves moves, by omega⟩
  · rintro before eof after rfl heof more
    rw [parse, parse, State.ofTokens_end heof before after, State.ofTokens_end heof before more]

end Lox.Grammar
