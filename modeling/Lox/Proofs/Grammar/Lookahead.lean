import Lox.Proofs.Grammar.Derivation

/-!
# Looking ahead

With which tokens phrases start, and with which ones an expression before them would go
on. The parser decides by the token ahead, and these are all it needs to know.
-/

namespace Lox.Grammar

/-- The first one of these tokens is of one of the given kinds. -/
def Ahead (kinds : List TokenKind) (ts : List Token) : Prop :=
  ∃ t us, ts = t :: us ∧ t.kind ∈ kinds

namespace Ahead

variable {kinds : List TokenKind} {ts : List Token}

theorem cons {t : Token} (h : t.kind ∈ kinds) (us : List Token) : Ahead kinds (t :: us) :=
  ⟨t, us, rfl, h⟩

/-- There is a token ahead if its kind is known. -/
theorem ne_nil (h : Ahead kinds ts) : ts ≠ [] := by
  obtain ⟨t, us, rfl, _⟩ := h
  exact List.cons_ne_nil t us

/-- What follows the tokens does not change the first of them. -/
theorem append (h : Ahead kinds ts) (next : List Token) : Ahead kinds (ts ++ next) := by
  obtain ⟨t, us, rfl, ht⟩ := h
  exact .cons ht _

/-- The kinds allowed ahead may be more. -/
theorem mono {more : List TokenKind} (h : Ahead kinds ts) (hm : ∀ k ∈ kinds, k ∈ more) :
    Ahead more ts := by
  obtain ⟨t, us, rfl, ht⟩ := h
  exact .cons (hm _ ht) _

/-- No token of some other kind is the first one. -/
theorem not_mem {other : List TokenKind} (h : Ahead kinds ts) (ho : ∀ k ∈ kinds, k ∉ other) :
    ∀ t ∈ ts.head?, t.kind ∉ other := by
  obtain ⟨t, us, rfl, ht⟩ := h
  rintro t ⟨⟩
  exact ho _ ht

/-- A token ahead is of no kind but those. -/
theorem ne {other : TokenKind} (h : Ahead kinds ts) (ho : other ∉ kinds) :
    ∀ t ∈ ts.head?, t.kind ≠ other := by
  obtain ⟨t, us, rfl, ht⟩ := h
  rintro t ⟨⟩ rfl
  exact ho ht

end Ahead

/-- The level of the operation, assignment or call that a token goes on with after an operand. -/
def continuing? : TokenKind → Option Level
  | .equal => some .assignment
  | .orWord => some .disjunction
  | .andWord => some .conjunction
  | .bangEqual | .equalEqual => some .equality
  | .greater | .greaterEqual | .less | .lessEqual => some .comparison
  | .minus | .plus => some .term
  | .slash | .star => some .factor
  | .starStar => some .power
  | .leftParen => some .call
  | _ => none

namespace Level

/-- How tight a level binds. -/
def rank : Level → Nat
  | assignment => 0
  | disjunction => 1
  | conjunction => 2
  | equality => 3
  | comparison => 4
  | term => 5
  | factor => 6
  | power => 7
  | unary => 8
  | call => 9
  | primary => 10

/-- A tighter level does not rank lower. -/
theorem rank_le_tighter (l : Level) : l.rank ≤ l.tighter.rank := by
  cases l <;> decide

/-- An expression of a level before these tokens ends there. -/
def Stops (l : Level) (next : List Token) : Prop :=
  ∀ t ∈ next.head?, ∀ k ∈ continuing? t.kind, k.rank < l.rank

variable {l : Level} {next : List Token}

/-- What stops a level stops the tighter ones. -/
theorem Stops.tighter (h : l.Stops next) : l.tighter.Stops next := by
  intro t ht k hk
  exact Nat.lt_of_lt_of_le (h t ht k hk) l.rank_le_tighter

/-- A level stops at tokens that continue no expression. -/
theorem stops_of_ahead {kinds : List TokenKind} (h : Ahead kinds next)
    (hk : ∀ kind ∈ kinds, continuing? kind = none) : l.Stops next := by
  obtain ⟨t, us, rfl, ht⟩ := h
  rintro t ⟨⟩ k hc
  rw [hk _ ht] at hc
  contradiction

/-- A level stops at operators of looser levels. -/
theorem stops_of_some {t : Token} {k : Level} (h : continuing? t.kind = some k)
    (hk : k.rank < l.rank) : l.Stops (t :: next) := by
  rintro t ⟨⟩ k' hk'
  rw [h] at hk'
  cases hk'
  exact hk

/-- The operators of a level continue it and none that is tighter. -/
theorem continuing?_of_mem (l : Level) :
    ∀ kind ∈ l.leftOperators, continuing? kind = some l ∧ l.rank < l.tighter.rank := by
  cases l <;> decide

/-- The operands of a level stop at its operators. -/
theorem stops_operator {t : Token} (h : t.kind ∈ l.leftOperators) : l.tighter.Stops (t :: next) :=
  stops_of_some (continuing?_of_mem l _ h).1 (continuing?_of_mem l _ h).2

/-- Where an expression of a level ends, no operator of the level follows. -/
theorem Stops.not_operator (h : l.Stops next) : ∀ t ∈ next.head?, t.kind ∉ l.leftOperators := by
  intro t ht hk
  exact absurd (h t ht l (continuing?_of_mem l _ hk).1) (Nat.lt_irrefl _)

/-- Where an expression of a level ends, nothing follows that goes on with one of that level. -/
theorem Stops.ne_of_continuing {kind : TokenKind} (h : l.Stops next)
    (hk : continuing? kind = some l) : ∀ t ∈ next.head?, t.kind ≠ kind := by
  rintro t ht rfl
  exact absurd (h t ht l hk) (Nat.lt_irrefl _)

/-- The tokens with which an expression of a level starts. -/
def starts : Level → List TokenKind
  | call | primary => primaryStarts
  | _ => .bang :: .minus :: primaryStarts

/-- What a tighter expression starts with the looser one may start with. -/
theorem mem_starts_of_tighter (l : Level) : ∀ kind ∈ l.tighter.starts, kind ∈ l.starts := by
  cases l <;> decide

end Level

/-- A token that denotes a value starts an expression. -/
theorem Denotes.mem_primaryStarts {token : Token} {value : Value} (h : Denotes token value) :
    token.kind ∈ primaryStarts := by
  cases h with
  | falseWord h | trueWord h | nilWord h | number h | string h =>
    rw [h]
    decide

namespace DerivesExpr

variable {l : Level} {ts : List Token} {e : Expr} {errs : List SyntaxError}

/-- An expression starts with a token that its level may start with. -/
theorem ahead (h : DerivesExpr l ts e errs) : Ahead l.starts ts := by
  generalize hn : ts.length = n
  induction n using Nat.strongRecOn generalizing l ts e errs with
  | ind n shorter =>
    induction l using Level.induction with
    | step l ih =>
      -- What stands to the left of something is shorter and starts with the same token.
      have left {us vs : List Token} {t : Token} {e' : Expr} {errs' : List SyntaxError} {l' : Level}
          (hus : DerivesExpr l' us e' errs') (hts : ts = us ++ t :: vs) : Ahead l'.starts ts := by
        have hlength : us.length < n := by
          rw [← hn, hts, List.length_append, List.length_cons]
          omega
        exact hts ▸ (shorter _ hlength hus rfl).append _
      cases h with
      | tighter hl h => exact (ih hl h).mono l.mem_starts_of_tighter
      | assign hname => exact .cons (by rw [hname]; decide) _
      | assignOther htarget =>
        exact (left htarget rfl).mono (Level.mem_starts_of_tighter .assignment)
      | operation hleft => exact left hleft rfl
      | power hbase => exact (left hbase rfl).mono (Level.mem_starts_of_tighter .power)
      | unary hoperator => exact .cons (List.mem_append_left primaryStarts hoperator) _
      | call hcallee => exact left hcallee rfl
      | grouping hopening => exact .cons (by rw [hopening]; decide) _
      | literal hvalue => exact .cons hvalue.mem_primaryStarts _
      | «variable» hname => exact .cons (by rw [hname]; decide) _
      | lambda hkeyword => exact .cons (by rw [hkeyword]; decide) _

end DerivesExpr

/-- The tokens with which a statement that is no declaration starts. -/
def allStatementStarts : List TokenKind := statementStarts ++ Level.assignment.starts

/-- A statement starts with a token that statements may start with. -/
theorem DerivesStmt.ahead {c : Context} {dangling : Bool} {ts : List Token} {s : Stmt}
    {errs : List SyntaxError} (h : DerivesStmt c dangling ts s errs) :
    Ahead allStatementStarts ts := by
  cases h with
  | expression he => exact (he.ahead.mono fun _ hk => List.mem_append_right _ hk).append _
  | block hk | ifThen hk | ifElse hk | «while» hk | «for» hk | «break» hk | «continue» hk
  | «return» hk => exact .cons (by rw [hk]; decide) _

/-- The tokens with which a declaration or a statement starts. -/
def declarationStarts : List TokenKind := .funWord :: .varWord :: allStatementStarts

theorem DerivesDecl.ahead {c : Context} {ts : List Token} {s : Stmt} {errs : List SyntaxError}
    (h : DerivesDecl c ts s errs) : Ahead declarationStarts ts := by
  cases h with
  | function hk | var hk => exact .cons (by rw [hk]; decide) _
  | statement h =>
    exact h.ahead.mono fun _ hk => List.mem_cons_of_mem _ (List.mem_cons_of_mem _ hk)

end Lox.Grammar
