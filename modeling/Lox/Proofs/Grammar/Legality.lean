import Lox.Proofs.Grammar.Acceptance
import Lox.Proofs.Grammar.Concrete

/-!
# What is wrong with a program of the grammar

The places of a program at which the parser asks for more than the grammar: jumps,
parameters, arguments and targets of assignments, each with what decides about it. On a
program of the grammar the errors are those of these places, and none of them keeps the
parser from reading on.
-/

namespace Lox.Concrete

open Grammar

/-- What encloses a place. -/
inductive Body where
  | loop
  | function
  deriving DecidableEq, Repr

/-- A place at which the parser asks for more than the grammar. The bodies around a jump are listed
from the innermost one; an item of a list comes with the number of items before it. -/
inductive Site where
  | break (keyword : Token) (around : List Body)
  | continue (keyword : Token) (around : List Body)
  | return (keyword : Token) (around : List Body)
  | parameter (index : Nat) (name : Token)
  | argument (index : Nat) (value : Expr)
  | assignment (target : Expr) (equals : Token)

/-- Whether a loop is inside the innermost function. -/
def inLoop (around : List Body) : Bool := .loop ∈ around.takeWhile (· ≠ .function)

def Expr.isName : Expr → Bool
  | .name _ => true
  | _ => false

/-- What is wrong at a place, if anything is. -/
def Site.error? : Site → Option SyntaxError
  | .break keyword around =>
    if inLoop around then none
    else some (.atToken keyword "Cannot use 'break' outside of a loop.")
  | .continue keyword around =>
    if inLoop around then none
    else some (.atToken keyword "Cannot use 'continue' outside of a loop.")
  | .return keyword around =>
    if .function ∈ around then none
    else some (.atToken keyword "Cannot return from top-level code.")
  | .parameter index name =>
    if index < maxArity then none
    else some (.atToken name "Can't have more than 255 parameters.")
  | .argument index value =>
    if index < maxArity then none
    else value.tokens.head?.map (SyntaxError.atToken · "Can't have more than 255 arguments.")
  | .assignment target equals =>
    if target.isName then none else some (.atToken equals "Invalid assignment target.")

/-- The parameters from one with so many before it. -/
def paramSites (index : Nat) : Items Token → List Site
  | .last name => [.parameter index name]
  | .more name _ rest => .parameter index name :: paramSites (index + 1) rest

mutual

/-- The places in an expression with bodies around it, as they are read. -/
def Expr.sites (around : List Body) : Expr → List Site
  | .literal _ | .name _ => []
  | .grouping _ inner _ => inner.sites around
  | .lambda _ function => function.sites around
  | .call callee _ arguments _ => callee.sites around ++ Expr.argumentSites around arguments
  | .unary _ operand => operand.sites around
  | .binary left _ right => left.sites around ++ right.sites around
  | .assign target equals value =>
    target.sites around ++ (value.sites around ++ [.assignment target equals])

/-- The arguments from one with so many before it. -/
def Expr.itemSites (around : List Body) (index : Nat) : Items Expr → List Site
  | .last e => .argument index e :: e.sites around
  | .more e _ rest =>
    .argument index e :: (e.sites around ++ Expr.itemSites around (index + 1) rest)

def Expr.argumentSites (around : List Body) : Option (Items Expr) → List Site
  | none => []
  | some arguments => Expr.itemSites around 0 arguments

def Expr.optionalSites (around : List Body) : Option Expr → List Site
  | none => []
  | some e => e.sites around

def Function.sites (around : List Body) : Function → List Site
  | .mk _ params _ _ body _ =>
    params.elim [] (paramSites 0) ++ Stmt.allSites (.function :: around) body

def Variable.sites (around : List Body) : Variable → List Site
  | .plain _ _ => []
  | .initialized _ _ value _ => value.sites around

def FirstClause.sites (around : List Body) : FirstClause → List Site
  | .absent _ => []
  | .var _ declared => declared.sites around
  | .expression value _ => value.sites around

def Stmt.sites (around : List Body) : Stmt → List Site
  | .expression value _ => value.sites around
  | .block _ body _ => Stmt.allSites around body
  | .ifThen _ _ condition _ thenBranch => condition.sites around ++ thenBranch.sites around
  | .ifElse _ _ condition _ thenBranch _ elseBranch =>
    condition.sites around ++ (thenBranch.sites around ++ elseBranch.sites around)
  | .while _ _ condition _ body => condition.sites around ++ body.sites (.loop :: around)
  | .for _ _ first condition _ increment _ body =>
    first.sites around ++ (Expr.optionalSites around condition ++
      (Expr.optionalSites around increment ++ body.sites (.loop :: around)))
  | .break keyword _ => [.break keyword around]
  | .continue keyword _ => [.continue keyword around]
  | .return keyword value _ => .return keyword around :: Expr.optionalSites around value
  | .function _ _ function => function.sites around
  | .var _ declared => declared.sites around

def Stmt.allSites (around : List Body) : List Stmt → List Site
  | [] => []
  | s :: rest => s.sites around ++ Stmt.allSites around rest

end

/-- What is wrong at some places, in their order. -/
def errorsAt (sites : List Site) : List SyntaxError := sites.filterMap Site.error?

/-- What is wrong with a program, in the order of reading. -/
def offences (program : List Stmt) : List SyntaxError := errorsAt (Stmt.allSites [] program)

/-! ### Errors of the parts -/

@[simp] theorem errorsAt_nil : errorsAt [] = [] := rfl

@[simp] theorem errorsAt_append (sites rest : List Site) :
    errorsAt (sites ++ rest) = errorsAt sites ++ errorsAt rest := List.filterMap_append

/-- The objections to the first place come first. -/
theorem errorsAt_cons (site : Site) (rest : List Site) :
    errorsAt (site :: rest) = errorsAt [site] ++ errorsAt rest :=
  errorsAt_append [site] rest

section

variable (around : List Body) (keyword : Token)

/-- To a `break` there is an objection outside of loops. -/
theorem errorsAt_break : errorsAt [.break keyword around] =
    objection (inLoop around) keyword "Cannot use 'break' outside of a loop." := by
  cases h : inLoop around <;> simp [errorsAt, Site.error?, objection, h]

/-- To a `continue` there is one outside of loops. -/
theorem errorsAt_continue : errorsAt [.continue keyword around] =
    objection (inLoop around) keyword "Cannot use 'continue' outside of a loop." := by
  cases h : inLoop around <;> simp [errorsAt, Site.error?, objection, h]

/-- To a return there is one outside of functions. -/
theorem errorsAt_return : errorsAt [.return keyword around] =
    objection (.function ∈ around) keyword "Cannot return from top-level code." := by
  by_cases h : Body.function ∈ around <;> simp [errorsAt, Site.error?, objection, h]

/-- To a parameter there is one if too many precede it. -/
theorem errorsAt_parameter (index : Nat) (name : Token) : errorsAt [.parameter index name] =
    excess index [name] "Can't have more than 255 parameters." := by
  by_cases h : index < maxArity
  · simp [errorsAt, Site.error?, excess, h]
  · simp [errorsAt, Site.error?, excess, h, Nat.not_lt.mp h]

/-- To an argument there is one if too many precede it, at its first token. -/
theorem errorsAt_argument (index : Nat) (value : Expr) : errorsAt [.argument index value] =
    excess index value.tokens "Can't have more than 255 arguments." := by
  by_cases h : index < maxArity
  · simp [errorsAt, Site.error?, excess, h, Nat.not_le.mpr h]
  · cases ht : value.tokens.head? <;>
      simp [errorsAt, Site.error?, excess, h, Nat.not_lt.mp h, ht]

end

/-- What counts of the bodies around a place. -/
def contextOf (around : List Body) : Context := ⟨inLoop around, .function ∈ around⟩

@[simp] theorem contextOf_nil : contextOf [] = .top := rfl

@[simp] theorem contextOf_loop (around : List Body) :
    contextOf (.loop :: around) = (contextOf around).loop := by
  simp [contextOf, inLoop, Context.loop]

/-- In the body of a function no loop is open. -/
@[simp] theorem contextOf_function (around : List Body) :
    contextOf (.function :: around) = .function := by
  simp [contextOf, inLoop, Context.function]

/-! ### Derivations -/

/-- A token that denotes something denotes some value. -/
theorem denotes_of_literalKinds {token : Token} (h : token.kind ∈ literalKinds) :
    ∃ value, Denotes token value := by
  simp only [literalKinds, List.mem_cons, List.not_mem_nil, or_false] at h
  rcases h with h | h | h | h | h
  · exact ⟨_, .falseWord h⟩
  · exact ⟨_, .trueWord h⟩
  · exact ⟨_, .nilWord h⟩
  · exact ⟨_, .number h⟩
  · exact ⟨_, .string h⟩

/-- Operands of the levels of an operator are an operation, which is no name. -/
theorem derives_infix {operator : Token} {k : Level} {ts us : List Token} {left right : Lox.Expr}
    {errs rest : List SyntaxError} (hk : infixLevel? operator.kind = some k)
    (hl : DerivesExpr k.operands.1 ts left errs) (hr : DerivesExpr k.operands.2 us right rest) :
    ∃ tree, DerivesExpr k (ts ++ operator :: us) tree (errs ++ rest) ∧
      ∀ name, tree ≠ .variable name := by
  have grouped (ho : operator.kind ∈ k.leftOperators) (hoperands : k.operands = (k, k.tighter)) :
      ∃ tree, DerivesExpr k (ts ++ operator :: us) tree (errs ++ rest) ∧
        ∀ name, tree ≠ .variable name := by
    rw [hoperands] at hl hr
    refine ⟨k.operation left operator right, .operation hl ho hr, ?_⟩
    intro name
    cases k <;> exact fun h => nomatch h
  rcases Option.or_eq_some_iff.mp hk with hk | ⟨_, hk⟩
  · rcases binaryLevel?_eq_some hk with ⟨rfl, ho⟩ | ⟨ho, _, hoperands⟩
    · exact ⟨.binary left operator right, .power hl ho hr, fun name h => nomatch h⟩
    · exact grouped ho hoperands
  · obtain ⟨ho, _, hoperands⟩ := logicalLevel?_eq_some hk
    exact grouped ho hoperands

/-- Parameters that are written are derived, with the objections to their places. -/
theorem derives_params : ∀ (params : Items Token) (index : Nat), paramsFit params →
    ∃ names, Separated "Can't have more than 255 parameters." Parameter index
      (paramTokens params) names (errorsAt (paramSites index params))
  | .last name, index, hf => by
    rw [paramsFit, decide_eq_true_eq] at hf
    have h : Separated "Can't have more than 255 parameters." Parameter index _ _ _ :=
      .last (Parameter.name hf)
    rw [← errorsAt_parameter, List.append_nil] at h
    exact ⟨[name], h⟩
  | .more name comma rest, index, hf => by
    simp only [paramsFit, Bool.and_eq_true, decide_eq_true_eq] at hf
    obtain ⟨names, hrest⟩ := derives_params rest (index + 1) hf.2
    have h := Separated.comma (Parameter.name hf.1.1) hf.1.2 hrest
    rw [← errorsAt_parameter, List.nil_append, ← errorsAt_cons] at h
    exact ⟨name :: names, h⟩

/-- Where a declaration may stand, a statement that is none does not start with the word `fun`. -/
theorem Stmt.head?_tokens (s : Stmt) {nearest : Bool} (hf : s.fits nearest)
    (hd : s.isDeclaration = false) (hfun : s.startsWithFun = false) :
    ∀ t ∈ s.tokens.head?, t.kind ≠ .funWord := by
  cases s with
  | expression value semicolon =>
    simp only [Stmt.startsWithFun, Option.any_eq_false, decide_eq_false_iff_not] at hfun
    exact hfun
  | function => contradiction
  | var => contradiction
  | _ =>
    rintro t ⟨⟩ hk
    simp [Stmt.fits, hk] at hf

/-- The tree of an expression with what is wrong in it. Only a name stands for a variable. -/
structure Expr.Reads (around : List Body) (l : Level) (e : Expr) (tree : Lox.Expr) : Prop where
  derives : DerivesExpr l e.tokens tree (errorsAt (e.sites around))
  ne_variable : e.isName = false → ∀ name, tree ≠ .variable name

mutual

/-- An expression that is written where it fits is derived, with the objections to its places. -/
theorem Expr.exists_reads (around : List Body) : ∀ (e : Expr) {l : Level}, e.fits true l →
    ∃ tree, e.Reads around l tree
  | .literal token, l, hf => by
    rw [Expr.fits, decide_eq_true_eq] at hf
    obtain ⟨value, hvalue⟩ := denotes_of_literalKinds hf
    exact ⟨.literal value, .loosen (.literal hvalue) l.rank_le_primary, fun _ _ h => nomatch h⟩
  | .name token, l, hf => by
    rw [Expr.fits, decide_eq_true_eq] at hf
    exact ⟨.variable token, .loosen (.variable hf) l.rank_le_primary, fun h => nomatch h⟩
  | .grouping opening inner closing, l, hf => by
    simp only [Expr.fits, Bool.and_eq_true, decide_eq_true_eq] at hf
    obtain ⟨tree, hinner⟩ := inner.exists_reads around hf.1.2
    exact ⟨.grouping tree, .loosen (.grouping hf.1.1 hinner.derives hf.2) l.rank_le_primary,
      fun _ _ h => nomatch h⟩
  | .lambda keyword function, l, hf => by
    simp only [Expr.fits, Bool.and_eq_true, decide_eq_true_eq] at hf
    obtain ⟨params, body, hfunction⟩ := function.exists_derives around hf.2
    exact ⟨.lambda (.mk none params body), .loosen (.lambda hf.1 hfunction) l.rank_le_primary,
      fun _ _ h => nomatch h⟩
  | .call callee opening arguments closing, l, hf => by
    simp only [Expr.fits, Bool.and_eq_true, decide_eq_true_eq] at hf
    obtain ⟨⟨⟨⟨hl, hcallee⟩, hopening⟩, harguments⟩, hclosing⟩ := hf
    obtain ⟨tree, hcallee⟩ := callee.exists_reads around hcallee
    obtain ⟨trees, harguments⟩ := Expr.exists_derives_arguments around arguments harguments
    have h := DerivesExpr.call hcallee.derives hopening harguments hclosing
    rw [← errorsAt_append] at h
    exact ⟨.call tree closing trees, .loosen h hl, fun _ _ h => nomatch h⟩
  | .unary operator operand, l, hf => by
    simp only [Expr.fits, Bool.and_eq_true, decide_eq_true_eq] at hf
    obtain ⟨tree, hoperand⟩ := operand.exists_reads around hf.2
    exact ⟨.unary operator tree, .loosen (.unary hf.1.2 hoperand.derives) hf.1.1,
      fun _ _ h => nomatch h⟩
  | .binary left operator right, l, hf => by
    rw [Expr.fits] at hf
    split at hf
    · next k hk =>
      simp only [Bool.and_eq_true, decide_eq_true_eq] at hf
      obtain ⟨left', hleft⟩ := left.exists_reads around hf.1.2
      obtain ⟨right', hright⟩ := right.exists_reads around hf.2
      obtain ⟨tree, h, other⟩ := derives_infix hk hleft.derives hright.derives
      rw [← errorsAt_append] at h
      exact ⟨tree, .loosen h hf.1.1, fun _ => other⟩
    · contradiction
  | .assign target equals value, l, hf => by
    simp only [Expr.fits, Bool.and_eq_true, decide_eq_true_eq] at hf
    obtain ⟨⟨⟨hl, htarget⟩, hequals⟩, hvalue⟩ := hf
    obtain ⟨value', hvalue⟩ := value.exists_reads around hvalue
    cases ht : target.isName with
    | true =>
      cases target with
      | name token =>
        rw [Expr.fits, decide_eq_true_eq] at htarget
        have h := DerivesExpr.assign htarget hequals hvalue.derives
        refine ⟨.assign token value', .loosen ?_ hl, fun _ _ h => nomatch h⟩
        simpa [Expr.sites, Expr.tokens, errorsAt, Site.error?, Expr.isName] using h
      | _ => contradiction
    | false =>
      obtain ⟨target', htarget⟩ := target.exists_reads around htarget
      have other := htarget.ne_variable ht
      have h := DerivesExpr.assignOther htarget.derives other hequals hvalue.derives
      refine ⟨target', .loosen ?_ hl, fun _ => other⟩
      simpa [Expr.sites, Expr.tokens, errorsAt, Site.error?, ht] using h

theorem Expr.exists_derives_items (around : List Body) : ∀ (arguments : Items Expr) (index : Nat),
    Expr.itemsFit true arguments →
    ∃ trees, Separated "Can't have more than 255 arguments." (DerivesExpr .assignment) index
      (Expr.itemTokens arguments) trees (errorsAt (Expr.itemSites around index arguments))
  | .last e, index, hf => by
    rw [Expr.itemsFit] at hf
    obtain ⟨tree, he⟩ := e.exists_reads around hf
    have h : Separated "Can't have more than 255 arguments." _ index _ _ _ := .last he.derives
    rw [← errorsAt_argument, ← errorsAt_cons] at h
    exact ⟨[tree], h⟩
  | .more e comma rest, index, hf => by
    simp only [Expr.itemsFit, Bool.and_eq_true, decide_eq_true_eq] at hf
    obtain ⟨tree, he⟩ := e.exists_reads around hf.1.1
    obtain ⟨trees, hrest⟩ := Expr.exists_derives_items around rest (index + 1) hf.2
    have h := Separated.comma he.derives hf.1.2 hrest
    rw [← errorsAt_argument, ← errorsAt_append, ← errorsAt_cons] at h
    exact ⟨tree :: trees, h⟩

theorem Expr.exists_derives_arguments (around : List Body) : ∀ (arguments : Option (Items Expr)),
    Expr.argumentsFit true arguments →
    ∃ trees, Listed "Can't have more than 255 arguments." (DerivesExpr .assignment)
      (Expr.argumentTokens arguments) trees (errorsAt (Expr.argumentSites around arguments))
  | none, _ => ⟨[], .none⟩
  | some arguments, hf => by
    rw [Expr.argumentsFit] at hf
    obtain ⟨trees, h⟩ := Expr.exists_derives_items around arguments 0 hf
    exact ⟨trees, .some h⟩

theorem Expr.exists_derives_optional (around : List Body) : ∀ (e : Option Expr),
    Expr.optionalFits true e →
    ∃ tree, Optional (DerivesExpr .assignment) (Expr.optionalTokens e) tree
      (errorsAt (Expr.optionalSites around e))
  | none, _ => ⟨none, .absent⟩
  | some e, hf => by
    rw [Expr.optionalFits] at hf
    obtain ⟨tree, he⟩ := e.exists_reads around hf
    exact ⟨some tree, .present he.derives⟩

theorem Function.exists_derives (around : List Body) : ∀ (f : Function), f.fits true →
    ∃ params body, DerivesFunction f.tokens (params, body) (errorsAt (f.sites around))
  | .mk opening params closing leftBrace body rightBrace, hf => by
    simp only [Function.fits, Bool.and_eq_true, decide_eq_true_eq] at hf
    obtain ⟨⟨⟨⟨⟨hopening, hparams⟩, hclosing⟩, hleft⟩, hbody⟩, hright⟩ := hf
    have listed : ∃ names, Listed "Can't have more than 255 parameters." Parameter
        (params.elim [] paramTokens) names (errorsAt (params.elim [] (paramSites 0))) := by
      cases params with
      | none => exact ⟨[], .none⟩
      | some params =>
        obtain ⟨names, h⟩ := derives_params params 0 hparams
        exact ⟨names, .some h⟩
    obtain ⟨names, hnames⟩ := listed
    obtain ⟨body', hbody⟩ := Stmt.exists_derives_all (.function :: around) body hbody
    rw [contextOf_function] at hbody
    have h := DerivesFunction.mk hopening hnames hclosing hleft hbody hright
    rw [← errorsAt_append] at h
    exact ⟨names, body', h⟩

theorem Variable.exists_derives (around : List Body) : ∀ (v : Variable), v.fits true →
    ∃ tree, DerivesVar v.tokens tree (errorsAt (v.sites around))
  | .plain name semicolon, hf => by
    simp only [Variable.fits, Bool.and_eq_true, decide_eq_true_eq] at hf
    exact ⟨.var name none, .plain hf.1 hf.2⟩
  | .initialized name equals value semicolon, hf => by
    simp only [Variable.fits, Bool.and_eq_true, decide_eq_true_eq] at hf
    obtain ⟨tree, hvalue⟩ := value.exists_reads around hf.1.2
    exact ⟨.var name (some tree), .initialized hf.1.1.1 hf.1.1.2 hvalue.derives hf.2⟩

theorem FirstClause.exists_derives (around : List Body) : ∀ (first : FirstClause),
    first.fits true → ∃ tree, DerivesFirstClause first.tokens tree (errorsAt (first.sites around))
  | .absent semicolon, hf => by
    rw [FirstClause.fits, decide_eq_true_eq] at hf
    exact ⟨none, .absent hf⟩
  | .var keyword declared, hf => by
    simp only [FirstClause.fits, Bool.and_eq_true, decide_eq_true_eq] at hf
    obtain ⟨tree, h⟩ := declared.exists_derives around hf.2
    exact ⟨some tree, .var hf.1 h⟩
  | .expression value semicolon, hf => by
    simp only [FirstClause.fits, Bool.and_eq_true, decide_eq_true_eq] at hf
    obtain ⟨tree, hvalue⟩ := value.exists_reads around hf.1
    exact ⟨some (.expression tree), .expression hvalue.derives hf.2⟩

theorem Stmt.exists_derives (around : List Body) : ∀ (s : Stmt), s.fits true →
    s.isDeclaration = false →
    ∃ tree, DerivesStmt (contextOf around) s.dangling s.tokens tree (errorsAt (s.sites around))
  | .expression value semicolon, hf, _ => by
    simp only [Stmt.fits, Bool.and_eq_true, decide_eq_true_eq] at hf
    obtain ⟨tree, hvalue⟩ := value.exists_reads around hf.1
    exact ⟨.expression tree, .expression hvalue.derives hf.2⟩
  | .block opening body closing, hf, _ => by
    simp only [Stmt.fits, Bool.and_eq_true, decide_eq_true_eq] at hf
    obtain ⟨body', hbody⟩ := Stmt.exists_derives_all around body hf.1.2
    exact ⟨.block body', .block hf.1.1 hbody hf.2⟩
  | .ifThen keyword opening condition closing thenBranch, hf, _ => by
    simp only [Stmt.fits, Bool.and_eq_true, Bool.not_eq_true', decide_eq_true_eq] at hf
    obtain ⟨⟨⟨⟨⟨hkeyword, hopening⟩, hcondition⟩, hclosing⟩, hthen⟩, hdecl⟩ := hf
    obtain ⟨condition', hcondition⟩ := condition.exists_reads around hcondition
    obtain ⟨then', hthen⟩ := thenBranch.exists_derives around hthen hdecl
    have h := DerivesStmt.ifThen hkeyword hopening hcondition.derives hclosing hthen
    rw [← errorsAt_append] at h
    exact ⟨.ifElse condition' then' none, h⟩
  | .ifElse keyword opening condition closing thenBranch elseWord elseBranch, hf, _ => by
    simp only [Stmt.fits, Bool.and_eq_true, Bool.not_eq_true', Bool.true_and,
      decide_eq_true_eq] at hf
    obtain ⟨⟨⟨⟨⟨⟨⟨⟨⟨hkeyword, hopening⟩, hcondition⟩, hclosing⟩, hthen⟩, hdecl⟩, hclosed⟩, hword⟩,
      helse⟩, hdecl'⟩ := hf
    obtain ⟨condition', hcondition⟩ := condition.exists_reads around hcondition
    obtain ⟨then', hthen⟩ := thenBranch.exists_derives around hthen hdecl
    obtain ⟨else', helse⟩ := elseBranch.exists_derives around helse hdecl'
    rw [hclosed] at hthen
    have h := DerivesStmt.ifElse hkeyword hopening hcondition.derives hclosing hthen hword helse
    rw [← errorsAt_append, ← errorsAt_append] at h
    exact ⟨.ifElse condition' then' (some else'), h⟩
  | .while keyword opening condition closing body, hf, _ => by
    simp only [Stmt.fits, Bool.and_eq_true, Bool.not_eq_true', decide_eq_true_eq] at hf
    obtain ⟨⟨⟨⟨⟨hkeyword, hopening⟩, hcondition⟩, hclosing⟩, hbody⟩, hdecl⟩ := hf
    obtain ⟨condition', hcondition⟩ := condition.exists_reads around hcondition
    obtain ⟨body', hbody⟩ := body.exists_derives (.loop :: around) hbody hdecl
    rw [contextOf_loop] at hbody
    have h := DerivesStmt.while hkeyword hopening hcondition.derives hclosing hbody
    rw [← errorsAt_append] at h
    exact ⟨.while condition' body', h⟩
  | .for keyword opening first condition semicolon increment closing body, hf, _ => by
    simp only [Stmt.fits, Bool.and_eq_true, Bool.not_eq_true', decide_eq_true_eq] at hf
    obtain ⟨⟨⟨⟨⟨⟨⟨⟨hkeyword, hopening⟩, hfirst⟩, hcondition⟩, hsemi⟩, hincrement⟩, hclosing⟩,
      hbody⟩, hdecl⟩ := hf
    obtain ⟨first', hfirst⟩ := first.exists_derives around hfirst
    obtain ⟨condition', hcondition⟩ := Expr.exists_derives_optional around condition hcondition
    obtain ⟨increment', hincrement⟩ := Expr.exists_derives_optional around increment hincrement
    obtain ⟨body', hbody⟩ := body.exists_derives (.loop :: around) hbody hdecl
    rw [contextOf_loop] at hbody
    have h := DerivesStmt.for hkeyword hopening hfirst hcondition hsemi hincrement hclosing hbody
    rw [← errorsAt_append, ← errorsAt_append, ← errorsAt_append] at h
    exact ⟨forLoop first' condition' increment' body', h⟩
  | .break keyword semicolon, hf, _ => by
    simp only [Stmt.fits, Bool.and_eq_true, decide_eq_true_eq] at hf
    rw [Stmt.sites, errorsAt_break]
    exact ⟨.break, .break hf.1 hf.2⟩
  | .continue keyword semicolon, hf, _ => by
    simp only [Stmt.fits, Bool.and_eq_true, decide_eq_true_eq] at hf
    rw [Stmt.sites, errorsAt_continue]
    exact ⟨.continue, .continue hf.1 hf.2⟩
  | .return keyword value semicolon, hf, _ => by
    simp only [Stmt.fits, Bool.and_eq_true, decide_eq_true_eq] at hf
    obtain ⟨value', hvalue⟩ := Expr.exists_derives_optional around value hf.1.2
    rw [Stmt.sites, errorsAt_cons, errorsAt_return]
    exact ⟨.return value', .return hf.1.1 hvalue hf.2⟩
  | .function .., _, hd | .var .., _, hd => by contradiction

theorem Stmt.exists_derives_all (around : List Body) : ∀ (program : List Stmt),
    Stmt.allFit true program →
    ∃ trees, DerivesDecls (contextOf around) (Stmt.allTokens program) trees
      (errorsAt (Stmt.allSites around program))
  | [], _ => ⟨[], .nil⟩
  | s :: rest, hf => by
    simp only [Stmt.allFit, Bool.and_eq_true, Bool.not_eq_true'] at hf
    obtain ⟨⟨hf, hfun⟩, hrest⟩ := hf
    suffices h : ∃ tree, DerivesDecl (contextOf around) s.tokens tree (errorsAt (s.sites around)) by
      obtain ⟨tree, h⟩ := h
      obtain ⟨trees, hrest⟩ := Stmt.exists_derives_all around rest hrest
      have h := DerivesDecls.cons h hrest
      rw [← errorsAt_append] at h
      exact ⟨tree :: trees, h⟩
    cases hd : s.isDeclaration with
    | false =>
      obtain ⟨tree, h⟩ := s.exists_derives around hf hd
      exact ⟨tree, .statement h (s.head?_tokens hf hd hfun)⟩
    | true =>
      cases s with
      | function keyword name function =>
        simp only [Stmt.fits, Bool.and_eq_true, decide_eq_true_eq] at hf
        obtain ⟨params, body, h⟩ := function.exists_derives around hf.2
        exact ⟨.function (.mk (some name) params body), .function hf.1.1 hf.1.2 h⟩
      | var keyword declared =>
        simp only [Stmt.fits, Bool.and_eq_true, decide_eq_true_eq] at hf
        obtain ⟨tree, h⟩ := declared.exists_derives around hf.2
        exact ⟨tree, .var hf.1 h⟩
      | _ => contradiction

end

/-- On a program of the grammar, the errors of the parser are what is wrong in it: with each reading
in which every `else` goes with the nearest `if`, of which there is one, they are the errors of its
places, each one once and in their order. None of them keeps the parser from reading on: all tokens
are in the tree that it gives, and no empty statement stands in it for something skipped. -/
theorem parse_legality {ts : List Token} {eof : Token} (h : IsSentence ts)
    (heof : eof.kind = .eof) :
    (∃ program, Stmt.allFit true program ∧ Stmt.allTokens program = ts) ∧
    (∀ program, Stmt.allFit true program → Stmt.allTokens program = ts →
      (parse (ts ++ [eof])).errors = offences program) ∧
    DerivesDecls .top ts (parse (ts ++ [eof])).statements (parse (ts ++ [eof])).errors ∧
    Stmt.allWhole (parse (ts ++ [eof])).statements := by
  have parsed {program : List Stmt} (hf : Stmt.allFit true program)
      (hts : Stmt.allTokens program = ts) :
      ∃ trees, DerivesDecls .top ts trees (offences program) ∧
        parse (ts ++ [eof]) = ⟨trees, offences program⟩ := by
    subst hts
    obtain ⟨trees, derived⟩ := Stmt.exists_derives_all [] program hf
    exact ⟨trees, derived, parse_complete (Stmt.endFree_all program hf) heof derived⟩
  obtain ⟨reading, hreading, rfl⟩ := h
  obtain ⟨program, hf, hts⟩ := Stmt.exists_nearest_all reading hreading
  obtain ⟨trees, derived, hparse⟩ := parsed hf hts
  refine ⟨⟨program, hf, hts⟩, ?_, ?_, ?_⟩
  · intro other hother htokens
    obtain ⟨trees', _, hparse'⟩ := parsed hother htokens
    rw [hparse']
  · rw [hparse]
    exact derived
  · rw [hparse]
    exact derived.whole

/-- In `while (a) { break; fun f() { break; } }` and `return nil = nil;`, only the first jump stands
where it may, and what is assigned to is no name. -/
theorem parse_legality_jumps :
    let word (kind : TokenKind) (line : Nat) := Token.plain kind "" line
    let eof := word .eof 2
    let jump (line : Nat) := Stmt.break (word .breakWord line) (word .semicolon line)
    let inner : Function :=
      .mk (word .leftParen 2) none (word .rightParen 2) (word .leftBrace 2) [jump 2]
        (word .rightBrace 2)
    let loop : Stmt :=
      .while (word .whileWord 1) (word .leftParen 1) (.name (.plain .identifier "a" 1))
        (word .rightParen 1) (.block (word .leftBrace 1)
          [jump 1, .function (word .funWord 2) (.plain .identifier "f" 2) inner]
          (word .rightBrace 2))
    let assignment : Expr :=
      .assign (.literal (word .nilWord 3)) (word .equal 3) (.literal (word .nilWord 3))
    let program := [loop, .return (word .returnWord 3) (some assignment) (word .semicolon 3)]
    let ts := Stmt.allTokens program
    IsSentence ts ∧ eof.kind = .eof ∧ (parse (ts ++ [eof])).errors = offences program ∧
      offences program =
        [.atToken (word .breakWord 2) "Cannot use 'break' outside of a loop.",
          .atToken (word .returnWord 3) "Cannot return from top-level code.",
          .atToken (word .equal 3) "Invalid assignment target."] := by
  intro word eof jump inner loop assignment program ts
  have hf : Stmt.allFit false program := by decide +kernel
  have nearest : Stmt.allFit true program := by decide +kernel
  have sentence : IsSentence ts := ⟨program, hf, rfl⟩
  obtain ⟨_, errors, _⟩ := parse_legality sentence (show eof.kind = .eof from rfl)
  exact ⟨sentence, rfl, errors program nearest rfl, by decide +kernel⟩

end Lox.Concrete
