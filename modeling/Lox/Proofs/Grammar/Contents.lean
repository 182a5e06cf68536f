import Lox.Proofs.Grammar.Lookahead
import Lox.Proofs.Grammar.Writing
import Lox.Proofs.Tree.Literals

/-!
# What trees are made of

A tree that is derived from tokens holds only those tokens, each one in a place where its
kind may stand, and only the literals that they denote. No callable is among them, lambdas
are without a name and other functions have one.
-/

namespace Lox

variable (T : Token → Prop)

/-- Whether a literal is one of the language, or denoted by a token. -/
def Value.MadeOf : Value → Prop
  | .nil | .bool _ => True
  | .number value => ∃ t, T t ∧ t.literal = some (.number value)
  | .string text => ∃ t, T t ∧ t.literal = some (.string text)
  | .callable _ => False

/-- Whether a token is a name. -/
def Token.IsName (t : Token) : Prop := T t ∧ t.kind = .identifier

mutual

/-- Whether an expression is made of tokens with a property, each in a place for its kind. -/
def Expr.MadeOf : Expr → Prop
  | .assign name value => name.IsName T ∧ value.MadeOf
  | .binary left operator right =>
    (T operator ∧ (Grammar.binaryLevel? operator.kind).isSome) ∧ left.MadeOf ∧ right.MadeOf
  | .logical left operator right =>
    (T operator ∧ (Grammar.logicalLevel? operator.kind).isSome) ∧ left.MadeOf ∧ right.MadeOf
  | .grouping inner => inner.MadeOf
  | .literal value => value.MadeOf T
  | .unary operator operand => (T operator ∧ operator.kind ∈ [.bang, .minus]) ∧ operand.MadeOf
  | .variable name => name.IsName T
  | .call callee paren arguments =>
    callee.MadeOf ∧ (T paren ∧ paren.kind = .rightParen) ∧ Expr.AllMadeOf arguments
  | .lambda function => function.name = none ∧ function.MadeOf

def Expr.AllMadeOf : List Expr → Prop
  | [] => True
  | e :: rest => e.MadeOf ∧ Expr.AllMadeOf rest

/-- Whether a statement is made of tokens with a property, and none is missing in it. -/
def Stmt.MadeOf : Stmt → Prop
  | .block statements => Stmt.AllMadeOf statements
  | .expression value => value.MadeOf
  | .var name none => name.IsName T
  | .var name (some value) => name.IsName T ∧ value.MadeOf
  | .ifElse condition thenBranch none => condition.MadeOf ∧ thenBranch.MadeOf
  | .ifElse condition thenBranch (some elseBranch) =>
    condition.MadeOf ∧ thenBranch.MadeOf ∧ elseBranch.MadeOf
  | .while condition body => condition.MadeOf ∧ body.MadeOf
  | .break | .continue | .return none => True
  | .function declaration => (∃ name ∈ declaration.name, name.IsName T) ∧ declaration.MadeOf
  | .return (some value) => value.MadeOf
  | .empty => False

def Stmt.AllMadeOf : List Stmt → Prop
  | [] => True
  | s :: rest => s.MadeOf ∧ Stmt.AllMadeOf rest

/-- Whether the parameters and the body of a function are. -/
def FunctionDecl.MadeOf : FunctionDecl → Prop
  | .mk _ params body => (∀ name ∈ params, name.IsName T) ∧ Stmt.AllMadeOf body

end

variable {T}

namespace Grammar

/-- A token that denotes a value has made it. -/
theorem Denotes.madeOf {token : Token} {value : Value} (ht : T token) (h : Denotes token value) :
    value.MadeOf T := by
  have literal : (literalValue token).MadeOf T := by
    unfold literalValue
    split
    · next value hvalue => exact ⟨token, ht, hvalue⟩
    · next text htext => exact ⟨token, ht, htext⟩
    · trivial
  cases h with
  | number => exact literal
  | string => exact literal
  | _ => trivial

/-- The operators of a level have it. -/
theorem isSome_level {l : Level} : ∀ kind ∈ l.leftOperators,
    if l = .disjunction ∨ l = .conjunction then (logicalLevel? kind).isSome
    else (binaryLevel? kind).isSome := by
  cases l <;> decide

/-- Operands are made into an operation by one of its operators. -/
theorem madeOf_operation {l : Level} {left right : Expr} {operator : Token}
    (ho : operator.kind ∈ l.leftOperators) (ht : T operator) (hleft : left.MadeOf T)
    (hright : right.MadeOf T) : (l.operation left operator right).MadeOf T := by
  cases l <;> exact ⟨⟨ht, isSome_level _ ho⟩, hleft, hright⟩

/-- What a loop with three clauses stands for is made of its parts. -/
theorem madeOf_forLoop {initializer : Option Stmt} {condition increment : Option Expr} {body : Stmt}
    (hi : ∀ s ∈ initializer, s.MadeOf T) (hc : ∀ e ∈ condition, e.MadeOf T)
    (hs : ∀ e ∈ increment, e.MadeOf T) (hb : body.MadeOf T) :
    (forLoop initializer condition increment body).MadeOf T := by
  cases initializer <;> cases condition <;> cases increment <;>
    simp_all [forLoop, Stmt.MadeOf, Stmt.AllMadeOf, Expr.MadeOf, Value.MadeOf]

/-- A return is made of its value. -/
theorem madeOf_return {value : Option Expr} (hv : ∀ e ∈ value, e.MadeOf T) :
    (Stmt.return value).MadeOf T := by
  cases value with
  | none => trivial
  | some e => exact hv e rfl

/-- The trees of phrases of fewer than `n` tokens are made of them. -/
structure MadeBelow (T : Token → Prop) (n : Nat) : Prop where
  expression : ∀ {l ts e errs}, DerivesExpr l ts e errs → ts.length < n → (∀ t ∈ ts, T t) →
    e.MadeOf T
  statement : ∀ {c dangling ts s errs}, DerivesStmt c dangling ts s errs → ts.length < n →
    (∀ t ∈ ts, T t) → s.MadeOf T
  declarations : ∀ {c ts body errs}, DerivesDecls c ts body errs → ts.length < n →
    (∀ t ∈ ts, T t) → Stmt.AllMadeOf T body

namespace MadeBelow

variable {n : Nat} {ts : List Token} {errs : List SyntaxError}

/-- Arguments after the first are made of their tokens. -/
theorem separated (h : MadeBelow T n) {message : String} {i : Nat} {arguments : List Expr}
    (hs : Separated message (DerivesExpr .assignment) i ts arguments errs) (hn : ts.length < n)
    (hT : ∀ t ∈ ts, T t) : Expr.AllMadeOf T arguments := by
  induction hs with
  | last he => exact ⟨h.expression he hn hT, trivial⟩
  | comma he _ _ ih =>
    rw [List.length_append, List.length_cons] at hn
    simp only [List.forall_mem_append, List.forall_mem_cons] at hT
    exact ⟨h.expression he (by omega) hT.1, ih (by omega) hT.2.2⟩

/-- Arguments are made of their tokens. -/
theorem listed (h : MadeBelow T n) {message : String} {arguments : List Expr}
    (hs : Listed message (DerivesExpr .assignment) ts arguments errs) (hn : ts.length < n)
    (hT : ∀ t ∈ ts, T t) : Expr.AllMadeOf T arguments := by
  cases hs with
  | none => trivial
  | some hs => exact h.separated hs hn hT

/-- Parameters are names among their tokens. -/
theorem parameters {message : String} {params : List Token}
    (hs : Listed message Parameter ts params errs) (hT : ∀ t ∈ ts, T t) :
    ∀ name ∈ params, name.IsName T := by
  have separated {i : Nat} {ts params errs} (hs : Separated message Parameter i ts params errs)
      (hT : ∀ t ∈ ts, T t) : ∀ name ∈ params, name.IsName T := by
    induction hs with
    | last hname =>
      cases hname with
      | name hkind => exact List.forall_mem_singleton.mpr ⟨hT _ List.mem_cons_self, hkind⟩
    | comma hname _ _ ih =>
      simp only [List.forall_mem_append, List.forall_mem_cons] at hT
      cases hname with
      | name hkind =>
        exact List.forall_mem_cons.mpr ⟨⟨hT.1 _ List.mem_cons_self, hkind⟩, ih hT.2.2⟩
  cases hs with
  | none => exact fun name h => nomatch h
  | some hs => exact separated hs hT

/-- A function is made of its tokens. -/
theorem function (h : MadeBelow T n) {name : Option Token} {params : List Token} {body : List Stmt}
    (hf : DerivesFunction ts (params, body) errs) (hn : ts.length ≤ n) (hT : ∀ t ∈ ts, T t) :
    (FunctionDecl.mk name params body).MadeOf T := by
  cases hf with
  | mk _ hparams _ _ hbody _ =>
    simp only [List.length_cons, List.length_append] at hn
    simp only [List.forall_mem_append, List.forall_mem_cons] at hT
    obtain ⟨_, hts, _, _, hus, _⟩ := hT
    exact ⟨parameters hparams hts, h.declarations hbody (by omega) hus⟩

/-- The declaration of a variable is made of its tokens. -/
theorem var (h : MadeBelow T n) {s : Stmt} (hv : DerivesVar ts s errs) (hn : ts.length ≤ n)
    (hT : ∀ t ∈ ts, T t) : s.MadeOf T := by
  cases hv with
  | plain hname => exact ⟨hT _ List.mem_cons_self, hname⟩
  | initialized hname _ hvalue _ =>
    simp only [List.length_cons, List.length_append] at hn
    simp only [List.forall_mem_append, List.forall_mem_cons] at hT
    exact ⟨⟨hT.1, hname⟩, h.expression hvalue (by omega) hT.2.2.1⟩

/-- An expression is made of its tokens, if all that is shorter is. -/
theorem expression_le (h : MadeBelow T n) {l : Level} {e : Expr} (he : DerivesExpr l ts e errs)
    (hn : ts.length ≤ n) (hT : ∀ t ∈ ts, T t) : e.MadeOf T := by
  induction l using Level.induction with
  | step l ih =>
    cases he with
    | tighter hl he => exact ih hl he
    | assign hname _ hvalue =>
      rw [List.length_cons, List.length_cons] at hn
      simp only [List.forall_mem_cons] at hT
      exact ⟨⟨hT.1, hname⟩, h.expression hvalue (by omega) hT.2.2⟩
    | assignOther htarget =>
      rw [List.length_append, List.length_cons] at hn
      simp only [List.forall_mem_append] at hT
      exact h.expression htarget (by omega) hT.1
    | operation hleft ho hright =>
      rw [List.length_append, List.length_cons] at hn
      simp only [List.forall_mem_append, List.forall_mem_cons] at hT
      exact madeOf_operation ho hT.2.1 (h.expression hleft (by omega) hT.1)
        (h.expression hright (by omega) hT.2.2)
    | power hbase ho hexponent =>
      rw [List.length_append, List.length_cons] at hn
      simp only [List.forall_mem_append, List.forall_mem_cons] at hT
      have hlevel : (binaryLevel? .starStar).isSome := rfl
      exact ⟨⟨hT.2.1, ho ▸ hlevel⟩, h.expression hbase (by omega) hT.1,
        h.expression hexponent (by omega) hT.2.2⟩
    | unary ho hoperand =>
      rw [List.length_cons] at hn
      simp only [List.forall_mem_cons] at hT
      exact ⟨⟨hT.1, ho⟩, h.expression hoperand (by omega) hT.2⟩
    | call hcallee _ harguments hclosing =>
      simp only [List.length_append, List.length_cons] at hn
      simp only [List.forall_mem_append, List.forall_mem_cons] at hT
      obtain ⟨hts, _, hus, hparen, _⟩ := hT
      exact ⟨h.expression hcallee (by omega) hts, ⟨hparen, hclosing⟩,
        h.listed harguments (by omega) hus⟩
    | grouping _ hinner =>
      simp only [List.length_append, List.length_cons] at hn
      simp only [List.forall_mem_append, List.forall_mem_cons] at hT
      have hinner := h.expression hinner (by omega) hT.2.1
      exact hinner
    | literal hvalue => exact hvalue.madeOf (hT _ List.mem_cons_self)
    | «variable» hname => exact ⟨hT _ List.mem_cons_self, hname⟩
    | lambda _ hf =>
      rw [List.length_cons] at hn
      simp only [List.forall_mem_cons] at hT
      exact ⟨rfl, h.function hf (by omega) hT.2⟩

/-- The first clause of a loop is made of its tokens. -/
theorem firstClause (h : MadeBelow T n) {clause : Option Stmt}
    (hc : DerivesFirstClause ts clause errs) (hn : ts.length ≤ n) (hT : ∀ t ∈ ts, T t) :
    ∀ s ∈ clause, s.MadeOf T := by
  rintro s ⟨⟩
  cases hc with
  | var _ hv =>
    rw [List.length_cons] at hn
    simp only [List.forall_mem_cons] at hT
    exact h.var hv (by omega) hT.2
  | expression he =>
    rw [List.length_append, List.length_singleton] at hn
    simp only [List.forall_mem_append] at hT
    exact h.expression he (by omega) hT.1

/-- A clause is made of its tokens, if there is one. -/
theorem optional (h : MadeBelow T n) {value : Option Expr}
    (ho : Optional (DerivesExpr .assignment) ts value errs) (hn : ts.length < n)
    (hT : ∀ t ∈ ts, T t) : ∀ e ∈ value, e.MadeOf T := by
  rintro e ⟨⟩
  cases ho with
  | present he => exact h.expression he hn hT

/-- A statement is made of its tokens, if all that is shorter is. -/
theorem statement_le (h : MadeBelow T n) {c : Context} {dangling : Bool} {s : Stmt}
    (hs : DerivesStmt c dangling ts s errs) (hn : ts.length ≤ n) (hT : ∀ t ∈ ts, T t) :
    s.MadeOf T := by
  cases hs with
  | expression he =>
    rw [List.length_append, List.length_singleton] at hn
    simp only [List.forall_mem_append] at hT
    exact h.expression he (by omega) hT.1
  | block _ hbody =>
    simp only [List.length_append, List.length_cons] at hn
    simp only [List.forall_mem_append, List.forall_mem_cons] at hT
    exact h.declarations hbody (by omega) hT.2.1
  | ifThen _ _ hcondition _ hthen =>
    simp only [List.length_append, List.length_cons] at hn
    simp only [List.forall_mem_append, List.forall_mem_cons] at hT
    obtain ⟨_, _, hts, _, hus⟩ := hT
    exact ⟨h.expression hcondition (by omega) hts, h.statement hthen (by omega) hus⟩
  | ifElse _ _ hcondition _ hthen _ helse =>
    simp only [List.length_append, List.length_cons] at hn
    simp only [List.forall_mem_append, List.forall_mem_cons] at hT
    obtain ⟨_, _, hts, _, hus, _, hvs⟩ := hT
    exact ⟨h.expression hcondition (by omega) hts, h.statement hthen (by omega) hus,
      h.statement helse (by omega) hvs⟩
  | «while» _ _ hcondition _ hbody =>
    simp only [List.length_append, List.length_cons] at hn
    simp only [List.forall_mem_append, List.forall_mem_cons] at hT
    obtain ⟨_, _, hts, _, hus⟩ := hT
    exact ⟨h.expression hcondition (by omega) hts, h.statement hbody (by omega) hus⟩
  | «for» _ _ hinitializer hcondition _ hincrement _ hbody =>
    simp only [List.length_append, List.length_cons] at hn
    simp only [List.forall_mem_append, List.forall_mem_cons] at hT
    obtain ⟨_, _, hts, hus, _, hvs, _, hws⟩ := hT
    exact madeOf_forLoop (h.firstClause hinitializer (by omega) hts)
      (h.optional hcondition (by omega) hus) (h.optional hincrement (by omega) hvs)
      (h.statement hbody (by omega) hws)
  | «break» => trivial
  | «continue» => trivial
  | «return» _ hvalue =>
    simp only [List.length_append, List.length_cons] at hn
    simp only [List.forall_mem_append, List.forall_mem_cons] at hT
    exact madeOf_return (h.optional hvalue (by omega) hT.2.1)

/-- A declaration is made of its tokens, if all that is shorter is. -/
theorem declaration_le (h : MadeBelow T n) {c : Context} {s : Stmt} (hs : DerivesDecl c ts s errs)
    (hn : ts.length ≤ n) (hT : ∀ t ∈ ts, T t) : s.MadeOf T := by
  cases hs with
  | function _ hname hf =>
    simp only [List.length_cons] at hn
    simp only [List.forall_mem_cons] at hT
    exact ⟨⟨_, rfl, hT.2.1, hname⟩, h.function hf (by omega) hT.2.2⟩
  | var _ hv =>
    rw [List.length_cons] at hn
    simp only [List.forall_mem_cons] at hT
    exact h.var hv (by omega) hT.2
  | statement hs => exact h.statement_le hs hn hT

/-- Declarations are made of their tokens, if all that is shorter is. -/
theorem declarations_le (h : MadeBelow T n) {c : Context} {body : List Stmt}
    (hs : DerivesDecls c ts body errs) (hn : ts.length ≤ n) (hT : ∀ t ∈ ts, T t) :
    Stmt.AllMadeOf T body := by
  cases hs with
  | nil => trivial
  | cons hs hrest =>
    have hlength := List.length_pos_iff.mpr hs.ahead.ne_nil
    rw [List.length_append] at hn
    simp only [List.forall_mem_append] at hT
    exact ⟨h.declaration_le hs (by omega) hT.1, h.declarations hrest (by omega) hT.2⟩

/-- Whatever is derived from tokens is made of them. -/
theorem all (T : Token → Prop) (n : Nat) : MadeBelow T n := by
  induction n with
  | zero => constructor <;> exact fun _ hn => absurd hn (Nat.not_lt_zero _)
  | succ n ih =>
    exact ⟨fun h hn => ih.expression_le h (Nat.le_of_lt_succ hn),
      fun h hn => ih.statement_le h (Nat.le_of_lt_succ hn),
      fun h hn => ih.declarations_le h (Nat.le_of_lt_succ hn)⟩

end MadeBelow

/-- The statements of a program are made of its tokens. -/
theorem DerivesDecls.madeOf {c : Context} {ts : List Token} {body : List Stmt}
    {errs : List SyntaxError} (h : DerivesDecls c ts body errs) (hT : ∀ t ∈ ts, T t) :
    Stmt.AllMadeOf T body :=
  (MadeBelow.all T (ts.length + 1)).declarations h (Nat.lt_succ_self _) hT

end Grammar

section

variable {L : Value → Prop}

mutual

/-- The literals of a tree are of the language, or denoted by the tokens that it is made of. -/
theorem Expr.literalsAre_of_madeOf (hL : ∀ v, v.MadeOf T → L v) :
    ∀ e : Expr, e.MadeOf T → e.LiteralsAre L
  | .assign _ value, h => value.literalsAre_of_madeOf hL h.2
  | .binary left _ right, h | .logical left _ right, h =>
    ⟨left.literalsAre_of_madeOf hL h.2.1, right.literalsAre_of_madeOf hL h.2.2⟩
  | .grouping inner, h => inner.literalsAre_of_madeOf hL h
  | .literal value, h => hL value h
  | .unary _ operand, h => operand.literalsAre_of_madeOf hL h.2
  | .variable _, _ => trivial
  | .call callee _ arguments, h =>
    ⟨callee.literalsAre_of_madeOf hL h.1, Expr.allLiteralsAre_of_allMadeOf hL arguments h.2.2⟩
  | .lambda function, h => function.literalsAre_of_madeOf hL h.2

theorem Expr.allLiteralsAre_of_allMadeOf (hL : ∀ v, v.MadeOf T → L v) :
    ∀ es : List Expr, Expr.AllMadeOf T es → Expr.AllLiteralsAre L es
  | [], _ => trivial
  | e :: rest, h =>
    ⟨e.literalsAre_of_madeOf hL h.1, Expr.allLiteralsAre_of_allMadeOf hL rest h.2⟩

/-- What holds of everything that tokens denote holds of the literals of a statement made of
them. -/
theorem Stmt.literalsAre_of_madeOf (hL : ∀ v, v.MadeOf T → L v) :
    ∀ s : Stmt, s.MadeOf T → s.LiteralsAre L
  | .block statements, h => Stmt.allLiteralsAre_of_allMadeOf hL statements h
  | .expression value, h | .return (some value), h => value.literalsAre_of_madeOf hL h
  | .var _ (some value), h => value.literalsAre_of_madeOf hL h.2
  | .ifElse condition thenBranch none, h =>
    ⟨condition.literalsAre_of_madeOf hL h.1, thenBranch.literalsAre_of_madeOf hL h.2⟩
  | .ifElse condition thenBranch (some elseBranch), h =>
    ⟨condition.literalsAre_of_madeOf hL h.1, thenBranch.literalsAre_of_madeOf hL h.2.1,
      elseBranch.literalsAre_of_madeOf hL h.2.2⟩
  | .while condition body, h =>
    ⟨condition.literalsAre_of_madeOf hL h.1, body.literalsAre_of_madeOf hL h.2⟩
  | .var _ none, _ | .break, _ | .continue, _ | .return none, _ => trivial
  | .function declaration, h => declaration.literalsAre_of_madeOf hL h.2
  | .empty, h => h.elim

theorem Stmt.allLiteralsAre_of_allMadeOf (hL : ∀ v, v.MadeOf T → L v) :
    ∀ ss : List Stmt, Stmt.AllMadeOf T ss → Stmt.AllLiteralsAre L ss
  | [], _ => trivial
  | s :: rest, h =>
    ⟨s.literalsAre_of_madeOf hL h.1, Stmt.allLiteralsAre_of_allMadeOf hL rest h.2⟩

/-- It holds of the literals of a function, too. -/
theorem FunctionDecl.literalsAre_of_madeOf (hL : ∀ v, v.MadeOf T → L v) :
    ∀ f : FunctionDecl, f.MadeOf T → f.LiteralsAre L
  | .mk _ _ body, h => Stmt.allLiteralsAre_of_allMadeOf hL body h.2

end

end

end Lox
