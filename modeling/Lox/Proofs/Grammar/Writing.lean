import Lox.Proofs.Grammar.Completeness

/-!
# Writing programs out

A tree that has the shape of a program is written out as tokens: those that it holds, and
any tokens of the right kinds for words, brackets and literals. However they are spelled
and wherever they stand, the parser gives the tree back.
-/

namespace Lox

/-- What a token of a written program has to be. -/
inductive Slot where
  /-- The token that the tree holds. -/
  | exactly (token : Token)
  /-- Any token of a kind. -/
  | any (kind : TokenKind)
  /-- Any token that denotes a number or a text. -/
  | denoting (literal : Literal)

namespace Slot

def kind : Slot → TokenKind
  | exactly token => token.kind
  | any kind => kind
  | denoting (.number _) => .number
  | denoting (.string _) => .string

/-- Whether a token is what a slot asks for. -/
def Fits : Slot → Token → Prop
  | exactly token, t => t = token
  | any kind, t => t.kind = kind
  | denoting literal, t => t.kind = (denoting literal).kind ∧ t.literal = some literal

/-- A token in its slot is of the kind of the slot. -/
theorem Fits.kind_eq {slot : Slot} {t : Token} (h : slot.Fits t) : t.kind = slot.kind := by
  cases slot with
  | exactly token => exact congrArg Token.kind h
  | any kind => exact h
  | denoting literal => exact h.1

end Slot

/-- Tokens, each of which fits its slot. -/
inductive Spells : List Slot → List Token → Prop where
  | nil : Spells [] []
  | cons : slot.Fits t → Spells slots ts → Spells (slot :: slots) (t :: ts)

namespace Spells

variable {slots slots' : List Slot} {ts : List Token}

@[simp] theorem nil_iff : Spells [] ts ↔ ts = [] :=
  ⟨fun h => by cases h; rfl, fun h => h ▸ .nil⟩

/-- A spelling starts with a token that fits the first slot. -/
theorem cons_iff {slot : Slot} :
    Spells (slot :: slots) ts ↔ ∃ t us, ts = t :: us ∧ slot.Fits t ∧ Spells slots us := by
  constructor
  · rintro ⟨⟩
    exact ⟨_, _, rfl, ‹_›, ‹_›⟩
  · rintro ⟨t, us, rfl, ht, hus⟩
    exact .cons ht hus

@[simp] theorem any_iff {kind : TokenKind} :
    Spells (.any kind :: slots) ts ↔ ∃ t us, ts = t :: us ∧ t.kind = kind ∧ Spells slots us :=
  cons_iff

@[simp] theorem exactly_iff {token : Token} :
    Spells (.exactly token :: slots) ts ↔ ∃ us, ts = token :: us ∧ Spells slots us := by
  rw [cons_iff]
  constructor
  · rintro ⟨t, us, rfl, ht, hus⟩
    exact ⟨us, congrArg (· :: us) ht, hus⟩
  · rintro ⟨us, rfl, hus⟩
    exact ⟨token, us, rfl, rfl, hus⟩

@[simp] theorem append_iff :
    Spells (slots ++ slots') ts ↔ ∃ us vs, ts = us ++ vs ∧ Spells slots us ∧ Spells slots' vs := by
  constructor
  · intro h
    induction slots generalizing ts with
    | nil => exact ⟨[], ts, rfl, .nil, h⟩
    | cons slot slots ih =>
      rw [List.cons_append, cons_iff] at h
      obtain ⟨t, us, rfl, ht, h⟩ := h
      obtain ⟨us, vs, rfl, hus, hvs⟩ := ih h
      exact ⟨t :: us, vs, rfl, .cons ht hus, hvs⟩
  · rintro ⟨us, vs, rfl, hus, hvs⟩
    induction hus with
    | nil => exact hvs
    | cons ht _ ih => exact .cons ht ih

/-- What is said of the kinds of the slots holds of the tokens. -/
theorem forall_kind {P : TokenKind → Prop} (h : Spells slots ts)
    (hk : ∀ slot ∈ slots, P slot.kind) : ∀ t ∈ ts, P t.kind := by
  induction h with
  | nil => exact fun t ht => nomatch ht
  | cons ht _ ih =>
    obtain ⟨hfirst, hrest⟩ := List.forall_mem_cons.mp hk
    exact List.forall_mem_cons.mpr ⟨ht.kind_eq ▸ hfirst, ih hrest⟩

theorem head?_kind {P : TokenKind → Prop} (h : Spells slots ts)
    (hk : ∀ slot ∈ slots.head?, P slot.kind) : ∀ t ∈ ts.head?, P t.kind := by
  cases h with
  | nil => exact fun t ht => nomatch ht
  | cons ht _ =>
    rintro t ⟨⟩
    exact ht.kind_eq ▸ hk _ rfl

end Spells

/-- A program can always be spelled. -/
theorem exists_spells (slots : List Slot) : ∃ ts, Spells slots ts := by
  induction slots with
  | nil => exact ⟨[], .nil⟩
  | cons slot slots ih =>
    obtain ⟨ts, hts⟩ := ih
    have fitting : ∃ t, slot.Fits t := by
      cases slot with
      | exactly token => exact ⟨token, rfl⟩
      | any kind => exact ⟨.plain kind "" 0, rfl⟩
      | denoting literal => exact ⟨⟨(Slot.denoting literal).kind, "", some literal, 0⟩, rfl, rfl⟩
    obtain ⟨t, ht⟩ := fitting
    exact ⟨t :: ts, .cons ht hts⟩

/-- The slot of a literal. Callables have none of their own. -/
def Value.slot : Value → Slot
  | .nil | .callable _ => .any .nilWord
  | .bool true => .any .trueWord
  | .bool false => .any .falseWord
  | .number value => .denoting (.number value)
  | .string text => .denoting (.string text)

mutual

def Expr.slots : Expr → List Slot
  | .assign name value => .exactly name :: .any .equal :: value.slots
  | .binary left operator right | .logical left operator right =>
    left.slots ++ .exactly operator :: right.slots
  | .grouping inner => .any .leftParen :: (inner.slots ++ [.any .rightParen])
  | .literal value => [value.slot]
  | .unary operator operand => .exactly operator :: operand.slots
  | .variable name => [.exactly name]
  | .call callee paren [] => callee.slots ++ [.any .leftParen, .exactly paren]
  | .call callee paren (first :: rest) =>
    callee.slots ++ .any .leftParen :: (first.slots ++ (Expr.moreSlots rest ++ [.exactly paren]))
  | .lambda function => .any .funWord :: function.slots

/-- Arguments after the first one, each with a comma before it. -/
def Expr.moreSlots : List Expr → List Slot
  | [] => []
  | e :: rest => .any .comma :: (e.slots ++ Expr.moreSlots rest)

def Stmt.slots : Stmt → List Slot
  | .block statements => .any .leftBrace :: (Stmt.allSlots statements ++ [.any .rightBrace])
  | .expression value => value.slots ++ [.any .semicolon]
  | .var name none => [.any .varWord, .exactly name, .any .semicolon]
  | .var name (some value) =>
    .any .varWord :: .exactly name :: .any .equal :: (value.slots ++ [.any .semicolon])
  | .ifElse condition thenBranch none =>
    .any .ifWord :: .any .leftParen :: (condition.slots ++ .any .rightParen :: thenBranch.slots)
  | .ifElse condition thenBranch (some elseBranch) =>
    .any .ifWord :: .any .leftParen :: (condition.slots ++ .any .rightParen ::
      (thenBranch.slots ++ .any .elseWord :: elseBranch.slots))
  | .while condition body =>
    .any .whileWord :: .any .leftParen :: (condition.slots ++ .any .rightParen :: body.slots)
  | .break => [.any .breakWord, .any .semicolon]
  | .continue => [.any .continueWord, .any .semicolon]
  | .function declaration =>
    .any .funWord :: ((declaration.name.map Slot.exactly).toList ++ declaration.slots)
  | .return none => [.any .returnWord, .any .semicolon]
  | .return (some value) => .any .returnWord :: (value.slots ++ [.any .semicolon])
  | .empty => []

def Stmt.allSlots : List Stmt → List Slot
  | [] => []
  | s :: rest => s.slots ++ Stmt.allSlots rest

/-- The parameters and the body of a function. -/
def FunctionDecl.slots : FunctionDecl → List Slot
  | .mk _ params body =>
    .any .leftParen :: ((params.map Slot.exactly).intersperse (.any .comma) ++
      .any .rightParen :: .any .leftBrace :: (Stmt.allSlots body ++ [.any .rightBrace]))

end

namespace Stmt

/-- Whether a statement ends in an `if` without `else`. -/
def dangling : Stmt → Bool
  | .ifElse _ _ none => true
  | .ifElse _ _ (some elseBranch) => elseBranch.dangling
  | .while _ body => body.dangling
  | _ => false

def isDeclaration : Stmt → Bool
  | .var _ _ | .function _ => true
  | _ => false

/-- Whether an expression stands as a statement that starts with the word `fun`. -/
def startsWithFun (s : Stmt) : Bool :=
  match s with
  | .expression _ => s.slots.head?.any (·.kind = .funWord)
  | _ => false

/-- A statement that is not to be taken for a declaration does not start with `fun`. -/
theorem head?_slots {s : Stmt} (hd : s.isDeclaration = false) (hf : s.startsWithFun = false) :
    ∀ slot ∈ s.slots.head?, slot.kind ≠ .funWord := by
  cases s with
  | expression value =>
    intro slot hslot hk
    simp only [startsWithFun, Option.any_eq_false, decide_eq_false_iff_not] at hf
    exact hf slot hslot hk
  | var => contradiction
  | function => contradiction
  | ifElse condition thenBranch elseBranch =>
    cases elseBranch <;> rintro slot ⟨⟩ ⟨⟩
  | «return» value => cases value <;> rintro slot ⟨⟩ ⟨⟩
  | empty => exact fun slot h => nomatch h
  | _ => rintro slot ⟨⟩ ⟨⟩

end Stmt

namespace Grammar

/-- The level of an operator between operands that are always evaluated. -/
def binaryLevel? : TokenKind → Option Level
  | .bangEqual | .equalEqual => some .equality
  | .greater | .greaterEqual | .less | .lessEqual => some .comparison
  | .minus | .plus => some .term
  | .slash | .star => some .factor
  | .starStar => some .power
  | _ => none

def logicalLevel? : TokenKind → Option Level
  | .orWord => some .disjunction
  | .andWord => some .conjunction
  | _ => none

/-- The levels of the two operands of an operation. -/
def Level.operands : Level → Level × Level
  | .power => (.unary, .power)
  | l => (l, l.tighter)

end Grammar

open Grammar

mutual

/-- Whether an expression has the shape of one of a level, and its parts those of their levels. -/
def Expr.fits (l : Level) : Expr → Bool
  | .assign name value =>
    l.rank ≤ Level.assignment.rank && name.kind = .identifier && value.fits .assignment
  | .binary left operator right =>
    match binaryLevel? operator.kind with
    | some k => l.rank ≤ k.rank && left.fits k.operands.1 && right.fits k.operands.2
    | none => false
  | .logical left operator right =>
    match logicalLevel? operator.kind with
    | some k => l.rank ≤ k.rank && left.fits k.operands.1 && right.fits k.operands.2
    | none => false
  | .grouping inner => inner.fits .assignment
  | .literal (.callable _) => false
  | .literal _ => true
  | .unary operator operand =>
    l.rank ≤ Level.unary.rank && operator.kind ∈ [.bang, .minus] && operand.fits .unary
  | .variable name => name.kind = .identifier
  | .call callee paren arguments =>
    l.rank ≤ Level.call.rank && callee.fits .call && paren.kind = .rightParen &&
      arguments.length ≤ maxArity && Expr.allFit arguments
  | .lambda function => function.name.isNone && function.fits

def Expr.allFit : List Expr → Bool
  | [] => true
  | e :: rest => e.fits .assignment && Expr.allFit rest

/-- Whether a statement has the shape of one in a program: jumps stand in what they jump out of,
branches and bodies are no declarations, and no `else` would go to another `if`. -/
def Stmt.fits (c : Context) : Stmt → Bool
  | .block statements => Stmt.allFit c statements
  | .expression value => value.fits .assignment
  | .var name none => name.kind = .identifier
  | .var name (some value) => name.kind = .identifier && value.fits .assignment
  | .ifElse condition thenBranch none =>
    condition.fits .assignment && thenBranch.fits c && !thenBranch.isDeclaration
  | .ifElse condition thenBranch (some elseBranch) =>
    condition.fits .assignment && thenBranch.fits c && !thenBranch.isDeclaration &&
      !thenBranch.dangling && elseBranch.fits c && !elseBranch.isDeclaration
  | .while condition body =>
    condition.fits .assignment && body.fits c.loop && !body.isDeclaration
  | .break | .continue => c.inLoop
  | .function declaration =>
    declaration.name.any (·.kind = .identifier) && declaration.fits
  | .return none => c.inFunction
  | .return (some value) => c.inFunction && value.fits .assignment
  | .empty => false

/-- Whether statements have the shape of those of a program or a block. -/
def Stmt.allFit (c : Context) : List Stmt → Bool
  | [] => true
  | s :: rest => s.fits c && !s.startsWithFun && Stmt.allFit c rest

def FunctionDecl.fits : FunctionDecl → Bool
  | .mk _ params body =>
    params.all (·.kind = .identifier) && params.length ≤ maxArity && Stmt.allFit .function body

end

namespace Grammar

/-- Levels are told apart by their ranks. -/
theorem Level.rank_injective {l k : Level} (h : l.rank = k.rank) : l = k := by
  revert h
  cases l <;> cases k <;> decide

/-- The next tighter level ranks one higher. -/
theorem Level.rank_tighter {l : Level} (h : l ≠ .primary) : l.tighter.rank = l.rank + 1 := by
  revert h
  cases l <;> decide

/-- No level ranks above primary expressions. -/
theorem Level.rank_le_primary (l : Level) : l.rank ≤ Level.primary.rank := by
  cases l <;> decide

/-- What binds tight enough stands wherever something looser does. -/
theorem DerivesExpr.loosen {l k : Level} {ts : List Token} {e : Expr} {errs : List SyntaxError}
    (h : DerivesExpr k ts e errs) (hl : l.rank ≤ k.rank) : DerivesExpr l ts e errs := by
  induction l using Level.induction with
  | step l ih =>
    by_cases hlk : l = k
    · exact hlk ▸ h
    · have hlt : l.rank < k.rank :=
        Nat.lt_of_le_of_ne hl fun heq => hlk (Level.rank_injective heq)
      have hp : l ≠ .primary := by
        rintro rfl
        cases k <;> contradiction
      exact .tighter hp (ih hp (by rw [Level.rank_tighter hp]; exact hlt))

theorem binaryLevel?_eq_some {kind : TokenKind} {k : Level} (h : binaryLevel? kind = some k) :
    k = .power ∧ kind = .starStar ∨
      kind ∈ k.leftOperators ∧ k.operation = .binary ∧ k.operands = (k, k.tighter) := by
  revert h
  cases kind <;> rintro ⟨⟩
  case starStar => exact .inl ⟨rfl, rfl⟩
  all_goals exact .inr ⟨by decide, rfl, rfl⟩

theorem logicalLevel?_eq_some {kind : TokenKind} {k : Level} (h : logicalLevel? kind = some k) :
    kind ∈ k.leftOperators ∧ k.operation = .logical ∧ k.operands = (k, k.tighter) := by
  revert h
  cases kind <;> rintro ⟨⟩
  all_goals exact ⟨by decide, rfl, rfl⟩

section

variable {operator : Token} {k : Level} {ts us : List Token} {left right : Expr}

/-- A binary operator between operands of its level is derived. -/
theorem derives_binary (hk : binaryLevel? operator.kind = some k)
    (hl : DerivesExpr k.operands.1 ts left []) (hr : DerivesExpr k.operands.2 us right []) :
    DerivesExpr k (ts ++ operator :: us) (.binary left operator right) [] := by
  rcases binaryLevel?_eq_some hk with ⟨rfl, ho⟩ | ⟨ho, hnode, hoperands⟩
  · exact .power hl ho hr
  · rw [hoperands] at hl hr
    have h := DerivesExpr.operation hl ho hr
    rwa [hnode] at h

theorem derives_logical (hk : logicalLevel? operator.kind = some k)
    (hl : DerivesExpr k.operands.1 ts left []) (hr : DerivesExpr k.operands.2 us right []) :
    DerivesExpr k (ts ++ operator :: us) (.logical left operator right) [] := by
  obtain ⟨ho, hnode, hoperands⟩ := logicalLevel?_eq_some hk
  rw [hoperands] at hl hr
  have h := DerivesExpr.operation hl ho hr
  rwa [hnode] at h

end

/-- The token of a literal. -/
theorem derives_literal {l : Level} {value : Value} {ts : List Token}
    (hv : (Expr.literal value).fits l) (hs : Spells [value.slot] ts) :
    DerivesExpr .primary ts (.literal value) [] := by
  rw [Spells.cons_iff] at hs
  obtain ⟨t, _, rfl, ht, h⟩ := hs
  rw [Spells.nil_iff.mp h]
  have denotes : Denotes t value := by
    cases value with
    | nil => exact .nilWord ht
    | bool value =>
      cases value with
      | false => exact .falseWord ht
      | true => exact .trueWord ht
    | number value =>
      have hvalue : literalValue t = .number value := by rw [literalValue, ht.2]
      exact hvalue ▸ .number ht.1
    | string text =>
      have hvalue : literalValue t = .string text := by rw [literalValue, ht.2]
      exact hvalue ▸ .string ht.1
    | callable ref => exact absurd hv (by simp [Expr.fits])
  exact .literal denotes

namespace Separated

variable {message : String} {item : Phrase α} {i : Nat} {ts us : List Token} {a : α} {as : List α}

/-- The last item, if it has few enough before it. -/
theorem last_within (ha : item ts a []) (hi : i < maxArity) :
    Separated message item i ts [a] [] := by
  have h : Separated message item i ts [a] (excess i ts message ++ []) := .last ha
  rwa [excess, if_neg (by omega)] at h

/-- One item more in front of others, if it has few enough before it. -/
theorem comma_within {comma : Token} (ha : item ts a []) (hc : comma.kind = .comma)
    (hi : i < maxArity) (h : Separated message item (i + 1) us as []) :
    Separated message item i (ts ++ comma :: us) (a :: as) [] := by
  have h := Separated.comma ha hc h
  rwa [excess, if_neg (by omega)] at h

end Separated

/-- Parameters with commas between them. -/
theorem derives_params {params : List Token} {ts : List Token}
    (hp : ∀ name ∈ params, name.kind = .identifier) (hn : params.length ≤ maxArity)
    (hs : Spells ((params.map Slot.exactly).intersperse (.any .comma)) ts) :
    Listed "Can't have more than 255 parameters." Parameter ts params [] := by
  have separated (i : Nat) (first : Token) (rest : List Token) {ts : List Token}
      (hp : ∀ name ∈ first :: rest, name.kind = .identifier) (hn : i + rest.length < maxArity)
      (hs : Spells (((first :: rest).map Slot.exactly).intersperse (.any .comma)) ts) :
      Separated "Can't have more than 255 parameters." Parameter i ts (first :: rest) [] := by
    induction rest generalizing i first ts with
    | nil =>
      simp only [List.map_cons, List.map_nil, List.intersperse, Spells.exactly_iff,
        Spells.nil_iff] at hs
      obtain ⟨_, rfl, rfl⟩ := hs
      exact .last_within (.name (hp first (List.mem_singleton_self first))) (by omega)
    | cons second rest ih =>
      simp only [List.map_cons, List.intersperse, Spells.exactly_iff, Spells.any_iff] at hs
      obtain ⟨_, rfl, comma, us, rfl, hc, hus⟩ := hs
      obtain ⟨hfirst, hp⟩ := List.forall_mem_cons.mp hp
      rw [List.length_cons] at hn
      exact .comma_within (.name hfirst) hc (by omega) (ih (i + 1) second hp (by omega) hus)
  cases params with
  | nil =>
    rw [List.map_nil, List.intersperse, Spells.nil_iff] at hs
    rw [hs]
    exact .none
  | cons first rest =>
    rw [List.length_cons] at hn
    exact .some (separated 0 first rest hp (by omega) hs)

end Grammar

theorem FunctionDecl.eq_mk (f : FunctionDecl) : f = .mk f.name f.params f.body := by
  cases f
  rfl

mutual

/-- An expression that fits is derived from every spelling of its slots. -/
theorem Expr.derives : ∀ (e : Expr) {l : Level} {ts : List Token}, e.fits l → Spells e.slots ts →
    DerivesExpr l ts e []
  | .assign name value, l, ts, hf, hs => by
    simp only [Expr.fits, Bool.and_eq_true, decide_eq_true_eq] at hf
    simp only [Expr.slots, Spells.exactly_iff, Spells.any_iff] at hs
    obtain ⟨⟨hl, hname⟩, hvalue⟩ := hf
    obtain ⟨_, rfl, equals, us, rfl, heq, hus⟩ := hs
    exact .loosen (.assign hname heq (value.derives hvalue hus)) hl
  | .binary left operator right, l, ts, hf, hs => by
    simp only [Expr.slots, Spells.append_iff, Spells.exactly_iff] at hs
    obtain ⟨us, _, rfl, hus, vs, rfl, hvs⟩ := hs
    rw [Expr.fits] at hf
    split at hf
    · next k hk =>
      simp only [Bool.and_eq_true, decide_eq_true_eq] at hf
      obtain ⟨⟨hl, hleft⟩, hright⟩ := hf
      exact .loosen (derives_binary hk (left.derives hleft hus) (right.derives hright hvs)) hl
    · contradiction
  | .logical left operator right, l, ts, hf, hs => by
    simp only [Expr.slots, Spells.append_iff, Spells.exactly_iff] at hs
    obtain ⟨us, _, rfl, hus, vs, rfl, hvs⟩ := hs
    rw [Expr.fits] at hf
    split at hf
    · next k hk =>
      simp only [Bool.and_eq_true, decide_eq_true_eq] at hf
      obtain ⟨⟨hl, hleft⟩, hright⟩ := hf
      exact .loosen (derives_logical hk (left.derives hleft hus) (right.derives hright hvs)) hl
    · contradiction
  | .grouping inner, l, ts, hf, hs => by
    rw [Expr.fits] at hf
    simp only [Expr.slots, Spells.append_iff, Spells.any_iff, Spells.nil_iff] at hs
    obtain ⟨opening, _, rfl, ho, us, _, rfl, hus, closing, _, rfl, hc, rfl⟩ := hs
    exact .loosen (.grouping ho (inner.derives hf hus) hc) l.rank_le_primary
  | .literal value, l, ts, hf, hs => .loosen (derives_literal hf hs) l.rank_le_primary
  | .unary operator operand, l, ts, hf, hs => by
    simp only [Expr.fits, Bool.and_eq_true, decide_eq_true_eq] at hf
    simp only [Expr.slots, Spells.exactly_iff] at hs
    obtain ⟨⟨hl, ho⟩, hoperand⟩ := hf
    obtain ⟨us, rfl, hus⟩ := hs
    exact .loosen (.unary ho (operand.derives hoperand hus)) hl
  | .variable name, l, ts, hf, hs => by
    rw [Expr.fits, decide_eq_true_eq] at hf
    simp only [Expr.slots, Spells.exactly_iff, Spells.nil_iff] at hs
    obtain ⟨_, rfl, rfl⟩ := hs
    exact derives_variable hf l
  | .call callee paren [], l, ts, hf, hs => by
    simp only [Expr.fits, Bool.and_eq_true, decide_eq_true_eq] at hf
    simp only [Expr.slots, Spells.append_iff, Spells.any_iff, Spells.exactly_iff,
      Spells.nil_iff] at hs
    obtain ⟨⟨⟨⟨hl, hcallee⟩, hparen⟩, _⟩, _⟩ := hf
    obtain ⟨us, _, rfl, hus, opening, _, rfl, ho, _, rfl, rfl⟩ := hs
    exact .loosen (.call (callee.derives hcallee hus) ho .none hparen) hl
  | .call callee paren (first :: rest), l, ts, hf, hs => by
    simp only [Expr.fits, Expr.allFit, Bool.and_eq_true, decide_eq_true_eq, List.length_cons] at hf
    simp only [Expr.slots, Spells.append_iff, Spells.any_iff, Spells.exactly_iff,
      Spells.nil_iff] at hs
    obtain ⟨⟨⟨⟨hl, hcallee⟩, hparen⟩, hn⟩, hfirst, hrest⟩ := hf
    obtain ⟨us, _, rfl, hus, opening, _, rfl, ho, vs, _, rfl, hvs, ws, _, rfl, hws, _, rfl, rfl⟩ :=
      hs
    have arguments := Expr.derives_more rest 0 (by omega) (first.derives hfirst hvs) hrest hws
    rw [← List.append_assoc vs]
    exact .loosen (.call (callee.derives hcallee hus) ho (.some arguments) hparen) hl
  | .lambda function, l, ts, hf, hs => by
    simp only [Expr.fits, Bool.and_eq_true, Option.isNone_iff_eq_none] at hf
    simp only [Expr.slots, Spells.any_iff] at hs
    obtain ⟨keyword, us, rfl, hk, hus⟩ := hs
    have h := DerivesExpr.lambda hk (function.derives hf.2 hus)
    rw [← hf.1, ← function.eq_mk] at h
    exact .loosen h l.rank_le_primary

/-- Arguments after one that has been written. -/
theorem Expr.derives_more : ∀ (rest : List Expr) (i : Nat) {e : Expr} {us ts : List Token},
    i + rest.length < maxArity → DerivesExpr .assignment us e [] → Expr.allFit rest →
    Spells (Expr.moreSlots rest) ts →
    Separated "Can't have more than 255 arguments." (DerivesExpr .assignment) i (us ++ ts)
      (e :: rest) []
  | [], i, e, us, ts, hi, he, hf, hs => by
    rw [Expr.moreSlots, Spells.nil_iff] at hs
    rw [hs, List.append_nil]
    exact .last_within he hi
  | next :: rest, i, e, us, ts, hi, he, hf, hs => by
    simp only [Expr.allFit, Bool.and_eq_true] at hf
    simp only [Expr.moreSlots, Spells.any_iff, Spells.append_iff] at hs
    rw [List.length_cons] at hi
    obtain ⟨comma, _, rfl, hc, vs, ws, rfl, hvs, hws⟩ := hs
    exact .comma_within he hc (by omega)
      (Expr.derives_more rest (i + 1) (by omega) (next.derives hf.1 hvs) hf.2 hws)

theorem Stmt.derives : ∀ (s : Stmt) {c : Context} {ts : List Token}, s.fits c →
    s.isDeclaration = false → Spells s.slots ts → DerivesStmt c s.dangling ts s []
  | .block statements, c, ts, hf, _, hs => by
    rw [Stmt.fits] at hf
    simp only [Stmt.slots, Spells.append_iff, Spells.any_iff, Spells.nil_iff] at hs
    obtain ⟨opening, _, rfl, ho, us, _, rfl, hus, closing, _, rfl, hc, rfl⟩ := hs
    exact .block ho (Stmt.derives_all statements hf hus) hc
  | .expression value, c, ts, hf, _, hs => by
    rw [Stmt.fits] at hf
    simp only [Stmt.slots, Spells.append_iff, Spells.any_iff, Spells.nil_iff] at hs
    obtain ⟨us, _, rfl, hus, semicolon, _, rfl, hsemi, rfl⟩ := hs
    exact .expression (value.derives hf hus) hsemi
  | .ifElse condition thenBranch none, c, ts, hf, _, hs => by
    simp only [Stmt.fits, Bool.and_eq_true, Bool.not_eq_true'] at hf
    simp only [Stmt.slots, Spells.append_iff, Spells.any_iff] at hs
    obtain ⟨⟨hcondition, hthen⟩, hdecl⟩ := hf
    obtain ⟨keyword, _, rfl, hk, opening, _, rfl, ho, us, _, rfl, hus, closing, vs, rfl, hc, hvs⟩ :=
      hs
    exact .ifThen hk ho (condition.derives hcondition hus) hc (thenBranch.derives hthen hdecl hvs)
  | .ifElse condition thenBranch (some elseBranch), c, ts, hf, _, hs => by
    simp only [Stmt.fits, Bool.and_eq_true, Bool.not_eq_true'] at hf
    simp only [Stmt.slots, Spells.append_iff, Spells.any_iff] at hs
    obtain ⟨⟨⟨⟨⟨hcondition, hthen⟩, hdecl⟩, hclosed⟩, helse⟩, hdecl'⟩ := hf
    obtain ⟨keyword, _, rfl, hk, opening, _, rfl, ho, us, _, rfl, hus, closing, _, rfl, hc,
      vs, _, rfl, hvs, elseWord, ws, rfl, he, hws⟩ := hs
    have hthen := thenBranch.derives hthen hdecl hvs
    rw [hclosed] at hthen
    exact .ifElse hk ho (condition.derives hcondition hus) hc hthen he
      (elseBranch.derives helse hdecl' hws)
  | .while condition body, c, ts, hf, _, hs => by
    simp only [Stmt.fits, Bool.and_eq_true, Bool.not_eq_true'] at hf
    simp only [Stmt.slots, Spells.append_iff, Spells.any_iff] at hs
    obtain ⟨⟨hcondition, hbody⟩, hdecl⟩ := hf
    obtain ⟨keyword, _, rfl, hk, opening, _, rfl, ho, us, _, rfl, hus, closing, vs, rfl, hc, hvs⟩ :=
      hs
    exact .while hk ho (condition.derives hcondition hus) hc (body.derives hbody hdecl hvs)
  | .break, c, ts, hf, _, hs => by
    rw [Stmt.fits] at hf
    simp only [Stmt.slots, Spells.any_iff, Spells.nil_iff] at hs
    obtain ⟨keyword, _, rfl, hk, semicolon, _, rfl, hsemi, rfl⟩ := hs
    have h := DerivesStmt.break (c := c) hk hsemi
    rwa [hf] at h
  | .continue, c, ts, hf, _, hs => by
    rw [Stmt.fits] at hf
    simp only [Stmt.slots, Spells.any_iff, Spells.nil_iff] at hs
    obtain ⟨keyword, _, rfl, hk, semicolon, _, rfl, hsemi, rfl⟩ := hs
    have h := DerivesStmt.continue (c := c) hk hsemi
    rwa [hf] at h
  | .return none, c, ts, hf, _, hs => by
    rw [Stmt.fits] at hf
    simp only [Stmt.slots, Spells.any_iff, Spells.nil_iff] at hs
    obtain ⟨keyword, _, rfl, hk, semicolon, _, rfl, hsemi, rfl⟩ := hs
    have h := DerivesStmt.return (c := c) hk .absent hsemi
    rwa [hf] at h
  | .return (some value), c, ts, hf, _, hs => by
    simp only [Stmt.fits, Bool.and_eq_true] at hf
    simp only [Stmt.slots, Spells.append_iff, Spells.any_iff, Spells.nil_iff] at hs
    obtain ⟨keyword, _, rfl, hk, us, _, rfl, hus, semicolon, _, rfl, hsemi, rfl⟩ := hs
    have h := DerivesStmt.return (c := c) hk (.present (value.derives hf.2 hus)) hsemi
    rwa [hf.1] at h

/-- Statements in a place where declarations may stand. -/
theorem Stmt.derives_all : ∀ (statements : List Stmt) {c : Context} {ts : List Token},
    Stmt.allFit c statements → Spells (Stmt.allSlots statements) ts →
    DerivesDecls c ts statements []
  | [], c, ts, _, hs => by
    rw [Stmt.allSlots, Spells.nil_iff] at hs
    exact hs ▸ .nil
  | s :: rest, c, ts, hf, hs => by
    simp only [Stmt.allFit, Bool.and_eq_true, Bool.not_eq_true'] at hf
    simp only [Stmt.allSlots, Spells.append_iff] at hs
    obtain ⟨us, vs, rfl, hus, hvs⟩ := hs
    obtain ⟨⟨hf, hfun⟩, hrest⟩ := hf
    suffices h : DerivesDecl c us s [] from .cons h (Stmt.derives_all rest hrest hvs)
    cases hd : s.isDeclaration with
    | false =>
      have hstart := hus.head?_kind (P := (· ≠ .funWord)) (Stmt.head?_slots hd hfun)
      exact .statement (s.derives hf hd hus) hstart
    | true =>
      cases s with
      | var name initializer =>
        cases initializer with
        | none =>
          rw [Stmt.fits, decide_eq_true_eq] at hf
          simp only [Stmt.slots, Spells.any_iff, Spells.exactly_iff, Spells.nil_iff] at hus
          obtain ⟨keyword, _, rfl, hk, _, rfl, semicolon, _, rfl, hsemi, rfl⟩ := hus
          exact .var hk (.plain hf hsemi)
        | some value =>
          simp only [Stmt.fits, Bool.and_eq_true, decide_eq_true_eq] at hf
          simp only [Stmt.slots, Spells.any_iff, Spells.exactly_iff, Spells.append_iff,
            Spells.nil_iff] at hus
          obtain ⟨keyword, _, rfl, hk, _, rfl, equals, _, rfl, heq, ws, _, rfl, hws, semicolon, _,
            rfl, hsemi, rfl⟩ := hus
          exact .var hk (.initialized hf.1 heq (value.derives hf.2 hws) hsemi)
      | function declaration =>
        simp only [Stmt.fits, Bool.and_eq_true] at hf
        cases hname : declaration.name with
        | none => exact absurd hf.1 (by simp [hname])
        | some name =>
          simp only [Stmt.slots, hname, Option.map_some, Option.toList_some,
            List.singleton_append, Spells.any_iff, Spells.exactly_iff] at hus
          obtain ⟨keyword, _, rfl, hk, ws, rfl, hws⟩ := hus
          have h := DerivesDecl.function (c := c) hk (by simpa [hname] using hf.1)
            (declaration.derives hf.2 hws)
          rwa [← hname, ← declaration.eq_mk] at h
      | _ => contradiction

theorem FunctionDecl.derives : ∀ (f : FunctionDecl) {ts : List Token}, f.fits →
    Spells f.slots ts → DerivesFunction ts (f.params, f.body) []
  | .mk name params body, ts, hf, hs => by
    simp only [FunctionDecl.fits, Bool.and_eq_true, List.all_eq_true, decide_eq_true_eq] at hf
    simp only [FunctionDecl.slots, Spells.append_iff, Spells.any_iff, Spells.nil_iff] at hs
    obtain ⟨⟨hp, hn⟩, hbody⟩ := hf
    obtain ⟨opening, _, rfl, ho, us, _, rfl, hus, closing, _, rfl, hc, leftBrace, _, rfl, hl,
      vs, _, rfl, hvs, rightBrace, _, rfl, hr, rfl⟩ := hs
    exact .mk ho (derives_params hp hn hus) hc hl (Stmt.derives_all body hbody hvs) hr

end

/-- None of the slots asks for the token that ends the input. -/
def NoEnd (slots : List Slot) : Prop := ∀ slot ∈ slots, slot.kind ≠ .eof

namespace NoEnd

variable {slots slots' : List Slot} {token : Token} {kind : TokenKind}

@[simp] theorem nil : NoEnd [] := fun _ h => nomatch h

@[simp] theorem any_cons : NoEnd (.any kind :: slots) ↔ kind ≠ .eof ∧ NoEnd slots :=
  List.forall_mem_cons

@[simp] theorem exactly_cons : NoEnd (.exactly token :: slots) ↔ token.kind ≠ .eof ∧ NoEnd slots :=
  List.forall_mem_cons

@[simp] theorem append : NoEnd (slots ++ slots') ↔ NoEnd slots ∧ NoEnd slots' :=
  List.forall_mem_append

end NoEnd

/-- Among parameters there is no end of the input. -/
theorem noEnd_params {params : List Token} (hp : ∀ name ∈ params, name.kind = .identifier) :
    NoEnd ((params.map Slot.exactly).intersperse (.any .comma)) := by
  induction params with
  | nil => exact .nil
  | cons first rest ih =>
    obtain ⟨hfirst, hrest⟩ := List.forall_mem_cons.mp hp
    cases rest with
    | nil => simp [hfirst]
    | cons second rest => simpa [hfirst] using ih hrest

mutual

/-- The slots of an expression hold no end of the input. -/
theorem Expr.noEnd_slots : ∀ (e : Expr) {l : Level}, e.fits l → NoEnd e.slots
  | .assign name value, l, hf => by
    simp only [Expr.fits, Bool.and_eq_true, decide_eq_true_eq] at hf
    simp [Expr.slots, hf.1.2, value.noEnd_slots hf.2]
  | .binary left operator right, l, hf => by
    rw [Expr.fits] at hf
    split at hf
    · next k hk =>
      simp only [Bool.and_eq_true] at hf
      have hoperator : operator.kind ≠ .eof := fun he => by simp [he, binaryLevel?] at hk
      simp [Expr.slots, hoperator, left.noEnd_slots hf.1.2, right.noEnd_slots hf.2]
    · contradiction
  | .logical left operator right, l, hf => by
    rw [Expr.fits] at hf
    split at hf
    · next k hk =>
      simp only [Bool.and_eq_true] at hf
      have hoperator : operator.kind ≠ .eof := fun he => by simp [he, logicalLevel?] at hk
      simp [Expr.slots, hoperator, left.noEnd_slots hf.1.2, right.noEnd_slots hf.2]
    · contradiction
  | .grouping inner, l, hf => by
    rw [Expr.fits] at hf
    simp [Expr.slots, inner.noEnd_slots hf]
  | .literal value, l, _ => by
    rw [Expr.slots, NoEnd, List.forall_mem_singleton]
    rcases value with _ | (_ | _) | _ | _ | _ <;> exact fun h => nomatch h
  | .unary operator operand, l, hf => by
    simp only [Expr.fits, Bool.and_eq_true, decide_eq_true_eq] at hf
    have hoperator : operator.kind ≠ .eof := fun he => by simp [he] at hf
    simp [Expr.slots, hoperator, operand.noEnd_slots hf.2]
  | .variable name, l, hf => by
    rw [Expr.fits, decide_eq_true_eq] at hf
    simp [Expr.slots, hf]
  | .call callee paren [], l, hf => by
    simp only [Expr.fits, Bool.and_eq_true, decide_eq_true_eq] at hf
    simp [Expr.slots, hf.1.1.2, callee.noEnd_slots hf.1.1.1.2]
  | .call callee paren (first :: rest), l, hf => by
    simp only [Expr.fits, Expr.allFit, Bool.and_eq_true, decide_eq_true_eq] at hf
    simp [Expr.slots, hf.1.1.2, callee.noEnd_slots hf.1.1.1.2, first.noEnd_slots hf.2.1,
      Expr.noEnd_moreSlots rest hf.2.2]
  | .lambda function, l, hf => by
    simp only [Expr.fits, Bool.and_eq_true] at hf
    simp [Expr.slots, function.noEnd_slots hf.2]

theorem Expr.noEnd_moreSlots : ∀ (rest : List Expr), Expr.allFit rest → NoEnd (Expr.moreSlots rest)
  | [], _ => .nil
  | next :: rest, hf => by
    simp only [Expr.allFit, Bool.and_eq_true] at hf
    simp [Expr.moreSlots, next.noEnd_slots hf.1, Expr.noEnd_moreSlots rest hf.2]

theorem Stmt.noEnd_slots : ∀ (s : Stmt) {c : Context}, s.fits c → NoEnd s.slots
  | .block statements, c, hf => by
    rw [Stmt.fits] at hf
    simp [Stmt.slots, Stmt.noEnd_allSlots statements hf]
  | .expression value, c, hf => by
    rw [Stmt.fits] at hf
    simp [Stmt.slots, value.noEnd_slots hf]
  | .var name none, c, hf => by
    rw [Stmt.fits, decide_eq_true_eq] at hf
    simp [Stmt.slots, hf]
  | .var name (some value), c, hf => by
    simp only [Stmt.fits, Bool.and_eq_true, decide_eq_true_eq] at hf
    simp [Stmt.slots, hf.1, value.noEnd_slots hf.2]
  | .ifElse condition thenBranch none, c, hf => by
    simp only [Stmt.fits, Bool.and_eq_true] at hf
    simp [Stmt.slots, condition.noEnd_slots hf.1.1, thenBranch.noEnd_slots hf.1.2]
  | .ifElse condition thenBranch (some elseBranch), c, hf => by
    simp only [Stmt.fits, Bool.and_eq_true] at hf
    obtain ⟨⟨⟨⟨⟨hcondition, hthen⟩, _⟩, _⟩, helse⟩, _⟩ := hf
    simp [Stmt.slots, condition.noEnd_slots hcondition, thenBranch.noEnd_slots hthen,
      elseBranch.noEnd_slots helse]
  | .while condition body, c, hf => by
    simp only [Stmt.fits, Bool.and_eq_true] at hf
    simp [Stmt.slots, condition.noEnd_slots hf.1.1, body.noEnd_slots hf.1.2]
  | .break, c, hf => by simp [Stmt.slots]
  | .continue, c, hf => by simp [Stmt.slots]
  | .function declaration, c, hf => by
    simp only [Stmt.fits, Bool.and_eq_true] at hf
    cases hname : declaration.name with
    | none => simp [Stmt.slots, hname, declaration.noEnd_slots hf.2]
    | some name =>
      have hkind : name.kind = .identifier := by simpa [hname] using hf.1
      simp [Stmt.slots, hname, hkind, declaration.noEnd_slots hf.2]
  | .return none, c, hf => by simp [Stmt.slots]
  | .return (some value), c, hf => by
    simp only [Stmt.fits, Bool.and_eq_true] at hf
    simp [Stmt.slots, value.noEnd_slots hf.2]
  | .empty, c, hf => .nil

theorem Stmt.noEnd_allSlots : ∀ (statements : List Stmt) {c : Context}, Stmt.allFit c statements →
    NoEnd (Stmt.allSlots statements)
  | [], c, _ => .nil
  | s :: rest, c, hf => by
    simp only [Stmt.allFit, Bool.and_eq_true] at hf
    simp [Stmt.allSlots, s.noEnd_slots hf.1.1, Stmt.noEnd_allSlots rest hf.2]

theorem FunctionDecl.noEnd_slots : ∀ (f : FunctionDecl), f.fits → NoEnd f.slots
  | .mk name params body, hf => by
    simp only [FunctionDecl.fits, Bool.and_eq_true, List.all_eq_true, decide_eq_true_eq] at hf
    simp [FunctionDecl.slots, noEnd_params hf.1.1, Stmt.noEnd_allSlots body hf.2]

end

/-- The parser gives back every tree that has the shape of a program, however its tokens are
spelled. -/
theorem parse_slots {statements : List Stmt} (hf : Stmt.allFit .top statements) {ts : List Token}
    (hs : Spells (Stmt.allSlots statements) ts) {eof : Token} (heof : eof.kind = .eof) :
    parse (ts ++ [eof]) = ⟨statements, []⟩ := by
  have hts := hs.forall_kind (P := (· ≠ .eof)) (Stmt.noEnd_allSlots statements hf)
  exact parse_complete hts heof (Stmt.derives_all statements hf hs)

theorem parse_slots_loop :
    let x := Token.plain .identifier "x" 1
    let minus := Token.plain .minus "-" 1
    let power := Token.plain .starStar "**" 1
    let statements : List Stmt :=
      [.while (.variable x) (.ifElse (.variable x)
        (.expression (.assign x (.binary (.unary minus (.variable x)) power (.literal .nil))))
        (some .break))]
    let ts : List Token :=
      [.plain .whileWord "while" 1, .plain .leftParen "(" 1, x, .plain .rightParen ")" 1,
        .plain .ifWord "if" 2, .plain .leftParen "(" 2, x, .plain .rightParen ")" 2, x,
        .plain .equal "=" 2, minus, x, power, .plain .nilWord "nil" 2, .plain .semicolon ";" 2,
        .plain .elseWord "else" 3, .plain .breakWord "break" 3, .plain .semicolon ";" 3]
    let eof := Token.plain .eof "" 3
    Stmt.allFit .top statements ∧ Spells (Stmt.allSlots statements) ts ∧ eof.kind = .eof ∧
      parse (ts ++ [eof]) = ⟨statements, []⟩ := by
  intro x minus power statements ts eof
  have hf : Stmt.allFit .top statements := by decide +kernel
  have hs : Spells (Stmt.allSlots statements) ts := by
    repeat' first | exact .nil | refine .cons rfl ?_
  exact ⟨hf, hs, rfl, parse_slots hf hs rfl⟩

end Lox
