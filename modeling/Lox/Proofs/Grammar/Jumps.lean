import Lox.Proofs.Grammar.Joining

/-!
# Jumps and what they jump out of

In a program without errors each jump stands in what it jumps out of: `break` and
`continue` in a loop of the innermost function, `return` in a function. So it is in the
bodies of all functions, wherever they are in the program.
-/

namespace Lox

open Grammar

mutual

/-- Whether jumps stand in what they jump out of, in all functions in an expression. -/
def Expr.JumpsFit : Expr → Prop
  | .assign _ value => value.JumpsFit
  | .binary left _ right | .logical left _ right => left.JumpsFit ∧ right.JumpsFit
  | .grouping inner => inner.JumpsFit
  | .literal _ | .variable _ => True
  | .unary _ operand => operand.JumpsFit
  | .call callee _ arguments => callee.JumpsFit ∧ Expr.AllJumpsFit arguments
  | .lambda function => function.JumpsFit

def Expr.AllJumpsFit : List Expr → Prop
  | [] => True
  | e :: rest => e.JumpsFit ∧ Expr.AllJumpsFit rest

/-- Whether they do in a statement, with something open around it. -/
def Stmt.JumpsFit (c : Context) : Stmt → Prop
  | .block statements => Stmt.AllJumpFit c statements
  | .expression value => value.JumpsFit
  | .var _ none | .empty => True
  | .var _ (some value) => value.JumpsFit
  | .ifElse condition thenBranch none => condition.JumpsFit ∧ thenBranch.JumpsFit c
  | .ifElse condition thenBranch (some elseBranch) =>
    condition.JumpsFit ∧ thenBranch.JumpsFit c ∧ elseBranch.JumpsFit c
  | .while condition body => condition.JumpsFit ∧ body.JumpsFit c.loop
  | .break | .continue => c.inLoop
  | .function declaration => declaration.JumpsFit
  | .return none => c.inFunction
  | .return (some value) => c.inFunction ∧ value.JumpsFit

def Stmt.AllJumpFit (c : Context) : List Stmt → Prop
  | [] => True
  | s :: rest => s.JumpsFit c ∧ Stmt.AllJumpFit c rest

def FunctionDecl.JumpsFit : FunctionDecl → Prop
  | .mk _ _ body => Stmt.AllJumpFit .function body

end

/-- Whether a jump is in a statement, in none of its functions and, unless returns are asked for,
which leave loops as well, in none of its loops. -/
inductive Stmt.ExposedIn (throughLoops : Bool) (jump : Stmt) : Stmt → Prop where
  | self : jump.ExposedIn throughLoops jump
  | block : s ∈ statements → jump.ExposedIn throughLoops s →
      jump.ExposedIn throughLoops (.block statements)
  | thenBranch : jump.ExposedIn throughLoops thenBranch →
      jump.ExposedIn throughLoops (.ifElse condition thenBranch elseBranch)
  | elseBranch : jump.ExposedIn throughLoops elseBranch →
      jump.ExposedIn throughLoops (.ifElse condition thenBranch (some elseBranch))
  | while : throughLoops → jump.ExposedIn throughLoops body →
      jump.ExposedIn throughLoops (.while condition body)

/-- Each statement of a list has its jumps where they belong. -/
theorem Stmt.AllJumpFit.mem {c : Context} {ss : List Stmt} (h : Stmt.AllJumpFit c ss) :
    ∀ s ∈ ss, s.JumpsFit c := by
  induction ss with
  | nil => exact fun _ hs => nomatch hs
  | cons s rest ih => exact List.forall_mem_cons.mpr ⟨h.1, ih h.2⟩

theorem Expr.AllJumpsFit.mem {es : List Expr} (h : Expr.AllJumpsFit es) :
    ∀ e ∈ es, e.JumpsFit := by
  induction es with
  | nil => exact fun _ he => nomatch he
  | cons e rest ih => exact List.forall_mem_cons.mpr ⟨h.1, ih h.2⟩

/-- The body of a function is one in which a return belongs. -/
theorem FunctionDecl.JumpsFit.body {f : FunctionDecl} (h : f.JumpsFit) :
    Stmt.AllJumpFit .function f.body := by
  cases f with
  | mk name params body => exact h

namespace Stmt

variable {c : Context} {s : Stmt}

/-- What is exposed in a statement stands in the function that the statement stands in, and in the
loop unless there is another one around it. -/
theorem ExposedIn.jumpsFit {throughLoops : Bool} {jump : Stmt} (h : jump.ExposedIn throughLoops s)
    (hs : s.JumpsFit c) :
    ∃ d : Context, jump.JumpsFit d ∧ d.inFunction = c.inFunction ∧
      (throughLoops = false → d = c) := by
  induction h generalizing c with
  | self => exact ⟨c, hs, rfl, fun _ => rfl⟩
  | block hmem _ ih => exact ih (AllJumpFit.mem hs _ hmem)
  | @thenBranch _ _ elseBranch _ ih =>
    cases elseBranch with
    | none => exact ih hs.2
    | some elseBranch => exact ih hs.2.1
  | elseBranch _ ih => exact ih hs.2.2
  | «while» hloops _ ih =>
    obtain ⟨d, hd, hfunction, -⟩ := ih hs.2
    exact ⟨d, hd, hfunction, fun hnot => absurd (hnot ▸ hloops) Bool.false_ne_true⟩

/-- Outside every loop no jump is exposed that needs one. -/
theorem JumpsFit.not_exposedIn (hs : s.JumpsFit c) (hc : c.inLoop = false) {jump : Stmt}
    (hjump : jump = .break ∨ jump = .continue) : ¬ jump.ExposedIn false s := by
  intro h
  obtain ⟨d, hd, -, heq⟩ := h.jumpsFit hs
  have hloop : d.inLoop = true := by
    rcases hjump with rfl | rfl <;> exact hd
  rw [heq rfl, hc] at hloop
  contradiction

/-- Outside every function no return is exposed. -/
theorem JumpsFit.not_exposedIn_return (hs : s.JumpsFit c) (hc : c.inFunction = false)
    (value : Option Expr) : ¬ (Stmt.return value).ExposedIn true s := by
  intro h
  obtain ⟨d, hd, heq, -⟩ := h.jumpsFit hs
  have hfunction : d.inFunction = true := by
    cases value with
    | none => exact hd
    | some value => exact hd.1
  rw [heq, hc] at hfunction
  contradiction

end Stmt

namespace Grammar

/-- An operation has jumps only in its operands. -/
theorem jumpsFit_operation {l : Level} {left right : Expr} {operator : Token}
    (hleft : left.JumpsFit) (hright : right.JumpsFit) :
    (l.operation left operator right).JumpsFit := by
  cases l <;> exact ⟨hleft, hright⟩

/-- The clauses of a loop that has three stand outside of it, its body inside. -/
theorem jumpsFit_forLoop {c : Context} {initializer : Option Stmt}
    {condition increment : Option Expr} {body : Stmt} (hi : ∀ s ∈ initializer, s.JumpsFit c)
    (hc : ∀ e ∈ condition, e.JumpsFit) (hs : ∀ e ∈ increment, e.JumpsFit)
    (hb : body.JumpsFit c.loop) :
    (forLoop initializer condition increment body).JumpsFit c := by
  cases initializer <;> cases condition <;> cases increment <;>
    simp_all [forLoop, Stmt.JumpsFit, Stmt.AllJumpFit, Expr.JumpsFit]

/-- A return belongs in a function, with a value whose functions are in order. -/
theorem jumpsFit_return {c : Context} {value : Option Expr} (hc : c.inFunction)
    (hv : ∀ e ∈ value, e.JumpsFit) : (Stmt.return value).JumpsFit c := by
  cases value with
  | none => exact hc
  | some e => exact ⟨hc, hv e rfl⟩

/-- Nothing is wrong with a place at which nothing is objected to. -/
theorem eq_true_of_objection {fine : Bool} {token : Token} {message : String}
    (h : objection fine token message = []) : fine = true := by
  cases fine with
  | true => rfl
  | false => contradiction

mutual

/-- An expression derived without an objection has its jumps where they belong. -/
theorem DerivesExpr.jumpsFit {l : Level} {ts : List Token} {e : Expr} {errs : List SyntaxError} :
    DerivesExpr l ts e errs → errs = [] → e.JumpsFit
  | .tighter _ h, clean | .unary _ h, clean | .grouping _ h _, clean | .assign _ _ h, clean =>
    h.jumpsFit clean
  | .assignOther htarget _ _ _, clean => htarget.jumpsFit (List.append_eq_nil_iff.mp clean).1
  | .operation hleft _ hright, clean =>
    have clean := List.append_eq_nil_iff.mp clean
    jumpsFit_operation (hleft.jumpsFit clean.1) (hright.jumpsFit clean.2)
  | .power hleft _ hright, clean =>
    have clean := List.append_eq_nil_iff.mp clean
    ⟨hleft.jumpsFit clean.1, hright.jumpsFit clean.2⟩
  | .call hcallee _ harguments _, clean =>
    have clean := List.append_eq_nil_iff.mp clean
    ⟨hcallee.jumpsFit clean.1, harguments.jumpsFit clean.2⟩
  | .literal _, _ | .variable _, _ => trivial
  | .lambda _ h, clean => h.jumpsFit clean

theorem Listed.jumpsFit {ts : List Token} {es : List Expr} {errs : List SyntaxError} :
    Listed "Can't have more than 255 arguments." (DerivesExpr .assignment) ts es errs →
      errs = [] → Expr.AllJumpsFit es
  | .none, _ => trivial
  | .some h, clean => h.jumpsFit clean

theorem Separated.jumpsFit {i : Nat} {ts : List Token} {es : List Expr} {errs : List SyntaxError} :
    Separated "Can't have more than 255 arguments." (DerivesExpr .assignment) i ts es errs →
      errs = [] → Expr.AllJumpsFit es
  | .last h, clean => ⟨h.jumpsFit (List.append_eq_nil_iff.mp clean).2, trivial⟩
  | .comma h _ hrest, clean =>
    have clean := List.append_eq_nil_iff.mp (List.append_eq_nil_iff.mp clean).2
    ⟨h.jumpsFit clean.1, hrest.jumpsFit clean.2⟩

theorem Optional.jumpsFit {ts : List Token} {value : Option Expr} {errs : List SyntaxError} :
    Optional (DerivesExpr .assignment) ts value errs → errs = [] → ∀ e ∈ value, e.JumpsFit
  | .absent, _, _, h => nomatch h
  | .present h, clean, _, rfl => h.jumpsFit clean

theorem DerivesFunction.jumpsFit {ts : List Token} {f : List Token × List Stmt}
    {errs : List SyntaxError} :
    DerivesFunction ts f errs → errs = [] → Stmt.AllJumpFit .function f.2
  | .mk _ _ _ _ h _, clean => h.jumpsFit (List.append_eq_nil_iff.mp clean).2

theorem DerivesVar.jumpsFit {ts : List Token} {s : Stmt} {errs : List SyntaxError} :
    DerivesVar ts s errs → errs = [] → ∀ c, s.JumpsFit c
  | .plain _ _, _, _ => trivial
  | .initialized _ _ h _, clean, _ => h.jumpsFit clean

theorem DerivesFirstClause.jumpsFit {ts : List Token} {clause : Option Stmt}
    {errs : List SyntaxError} :
    DerivesFirstClause ts clause errs → errs = [] → ∀ c, ∀ s ∈ clause, s.JumpsFit c
  | .absent _, _, _, _, h => nomatch h
  | .var _ h, clean, c, _, rfl => h.jumpsFit clean c
  | .expression h _, clean, _, _, rfl => h.jumpsFit clean

/-- A statement derived without an objection has its jumps where its context allows them. -/
theorem DerivesStmt.jumpsFit {c : Context} {dangling : Bool} {ts : List Token} {s : Stmt}
    {errs : List SyntaxError} : DerivesStmt c dangling ts s errs → errs = [] → s.JumpsFit c
  | .expression h _, clean => h.jumpsFit clean
  | .block _ h _, clean => h.jumpsFit clean
  | .ifThen _ _ hcondition _ hthen, clean =>
    have clean := List.append_eq_nil_iff.mp clean
    ⟨hcondition.jumpsFit clean.1, hthen.jumpsFit clean.2⟩
  | .ifElse _ _ hcondition _ hthen _ helse, clean =>
    have ⟨hc, hrest⟩ := List.append_eq_nil_iff.mp clean
    have ⟨ht, he⟩ := List.append_eq_nil_iff.mp hrest
    ⟨hcondition.jumpsFit hc, hthen.jumpsFit ht, helse.jumpsFit he⟩
  | .while _ _ hcondition _ hbody, clean =>
    have clean := List.append_eq_nil_iff.mp clean
    ⟨hcondition.jumpsFit clean.1, hbody.jumpsFit clean.2⟩
  | .for _ _ hinitializer hcondition _ hincrement _ hbody, clean =>
    have ⟨hi, hrest⟩ := List.append_eq_nil_iff.mp clean
    have ⟨hc, hrest⟩ := List.append_eq_nil_iff.mp hrest
    have ⟨hs, hb⟩ := List.append_eq_nil_iff.mp hrest
    jumpsFit_forLoop (hinitializer.jumpsFit hi _) (hcondition.jumpsFit hc)
      (hincrement.jumpsFit hs) (hbody.jumpsFit hb)
  | .break _ _, clean => eq_true_of_objection clean
  | .continue _ _, clean => eq_true_of_objection clean
  | .return _ hvalue _, clean =>
    have clean := List.append_eq_nil_iff.mp clean
    jumpsFit_return (eq_true_of_objection clean.1) (hvalue.jumpsFit clean.2)

theorem DerivesDecl.jumpsFit {c : Context} {ts : List Token} {s : Stmt} {errs : List SyntaxError} :
    DerivesDecl c ts s errs → errs = [] → s.JumpsFit c
  | .function _ _ h, clean => h.jumpsFit clean
  | .var _ h, clean => h.jumpsFit clean c
  | .statement h _, clean => h.jumpsFit clean

/-- In a program without errors all jumps stand in what they jump out of. -/
theorem DerivesDecls.jumpsFit {c : Context} {ts : List Token} {ss : List Stmt}
    {errs : List SyntaxError} : DerivesDecls c ts ss errs → errs = [] → Stmt.AllJumpFit c ss
  | .nil, _ => trivial
  | .cons h hrest, clean =>
    have clean := List.append_eq_nil_iff.mp clean
    ⟨h.jumpsFit clean.1, hrest.jumpsFit clean.2⟩

end

end Grammar

end Lox
