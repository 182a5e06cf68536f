import Lox.Proofs.Grammar.Joining
import Lox.Proofs.Number.Printing
import Lox.Proofs.Source.Words
import Lox.Proofs.Tree.Likeness
import Lox.Proofs.Tree.Listing

/-!
# Listings tell programs apart

A listing can be read in one way only, and from each expression in it the tree can be told,
but for the lines of its tokens: the head of a list and the number of its parts tell the
node, and what a name, an operator or a number is follows from its text.
-/

namespace Lox

open SExpr Source

/-- A token of a source text that denotes no infinite number. -/
structure Legible (t : Token) : Prop where
  scanned : IsScanned t
  finite : ∀ x, t.literal = some (.number x) → Number.IsFinite x

/-! ### Atoms -/

theorem isDigit_delimiters {c : Char} (h : c ∈ delimiters) : c.isDigit = false := by
  simp only [delimiters, List.mem_cons, List.not_mem_nil, or_false] at h
  rcases h with rfl | rfl | rfl | rfl | rfl <;> rfl

theorem isWord_delimiters {c : Char} (h : c ∈ delimiters) :
    isWordStart c = false ∧ isWordPart c = false := by
  simp only [delimiters, List.mem_cons, List.not_mem_nil, or_false] at h
  rcases h with rfl | rfl | rfl | rfl | rfl <;> exact ⟨rfl, rfl⟩

/-- A word is an atom. -/
theorem isAtom_of_isWord {text : List Char} (h : IsWord text) : IsAtom text := by
  cases text with
  | nil => exact h.elim
  | cons c text =>
    obtain ⟨hstart, hpart⟩ := h
    refine ⟨List.cons_ne_nil _ _, List.forall_mem_cons.mpr ⟨fun hc => ?_, fun d hd hmem => ?_⟩⟩
    · rw [(isWord_delimiters hc).1] at hstart
      contradiction
    · have hd := hpart d hd
      rw [(isWord_delimiters hmem).2] at hd
      contradiction

/-- A finite number is written as an atom. -/
theorem isAtom_write {x : Float} (h : Number.IsFinite x) :
    IsAtom (Number.Layout.printed.write x).toList := by
  obtain ⟨negative, text, htext, hnumeral, _⟩ := h.exists_write
  obtain ⟨c, hc, _⟩ := hnumeral.head
  rw [htext, String.toList_ofList]
  refine ⟨?_, List.forall_mem_append.mpr ⟨fun d hd => ?_, fun d hd hmem => ?_⟩⟩
  · have hne : text ≠ [] := by
      rintro rfl
      contradiction
    exact List.append_ne_nil_of_right_ne_nil _ hne
  · rw [Number.eq_of_mem_signOf hd]
    decide
  · rcases hnumeral.mem d hd with hdigit | hmark
    · rw [isDigit_delimiters hmem] at hdigit
      contradiction
    · have marks : ['.', 'E', '-'].all (· ∉ delimiters) := by decide
      have hnot := List.all_eq_true.mp marks d hmark
      exact absurd hmem (of_decide_eq_true hnot)

/-- Whether a kind is one of operators. -/
def isOperator (kind : TokenKind) : Bool :=
  (Grammar.binaryLevel? kind).isSome || (Grammar.logicalLevel? kind).isSome ||
    kind ∈ [.bang, .minus]

theorem isOperator_binary {kind : TokenKind} (h : (Grammar.binaryLevel? kind).isSome) :
    isOperator kind := by
  simp [isOperator, h]

theorem isOperator_logical {kind : TokenKind} (h : (Grammar.logicalLevel? kind).isSome) :
    isOperator kind := by
  simp [isOperator, h]

theorem isOperator_unary {kind : TokenKind} (h : kind ∈ [.bang, .minus]) : isOperator kind := by
  rw [isOperator, decide_eq_true h, Bool.or_true]

/-- The words that head a node that is no operation. -/
def headWords : List (List Char) :=
  ["=".toList, "group".toList, "call".toList, "fun".toList]

/-- The text of an operator is an atom, and not one that heads another node. -/
theorem operator_fixedWords : ∀ w ∈ fixedWords, isOperator w.2 →
    IsAtom w.1.toList ∧ w.1.toList ∉ headWords ∧
      ((Grammar.logicalLevel? w.2).isSome ↔ w.1.toList ∈ ["and".toList, "or".toList]) := by
  decide +kernel

/-- An operator of a source text. -/
theorem Legible.operator {t : Token} (h : Legible t) (hk : isOperator t.kind) :
    t.literal = none ∧ (t.lexeme, t.kind) ∈ fixedWords := by
  apply h.scanned.fixed
  intro hmem
  have none : ∀ kind ∈ [TokenKind.identifier, .number, .string], isOperator kind = false := by
    decide
  rw [none _ hmem] at hk
  contradiction

/-- The words of literals that are words. -/
def literalWords : List (List Char) := ["nil".toList, "true".toList, "false".toList]

/-- A legible name is a word, apart from those that stand for values. -/
theorem Legible.name {t : Token} (h : t.IsName Legible) :
    t.literal = none ∧ IsWord t.lexeme.toList ∧ t.lexeme.toList ∉ literalWords := by
  obtain ⟨hliteral, text, hlexeme, hword, hreserved⟩ := h.1.scanned.name h.2
  rw [hlexeme, String.toList_ofList]
  refine ⟨hliteral, hword, fun hmem => ?_⟩
  have reserved : ∀ w ∈ literalWords, ∃ kind, (String.ofList w, kind) ∈ reservedWords := by
    intro w hw
    simp only [literalWords, List.mem_cons, List.not_mem_nil, or_false] at hw
    rcases hw with rfl | rfl | rfl
    · exact ⟨.nilWord, by decide⟩
    · exact ⟨.trueWord, by decide⟩
    · exact ⟨.falseWord, by decide⟩
  obtain ⟨kind, hkind⟩ := reserved text hmem
  exact hreserved kind (hlexeme ▸ hkind)

/-! ### What is written fits -/

/-- A name fits as a word of the listing. -/
theorem fits_word {t : Token} (h : t.IsName Legible) : (word t.lexeme).Fits :=
  isAtom_of_isWord (Legible.name h).2.1

theorem fits_operator {t : Token} (h : Legible t) (hk : isOperator t.kind) : (word t.lexeme).Fits :=
  (operator_fixedWords _ (h.operator hk).2 hk).1

/-- A legible value fits. -/
theorem Value.fits_sexp {value : Value} (h : value.MadeOf Legible) :
    (Expr.literal value).sexp.Fits := by
  cases value with
  | nil => exact (by decide : IsAtom "nil".toList)
  | bool value =>
    cases value with
    | false => exact (by decide : IsAtom "false".toList)
    | true => exact (by decide : IsAtom "true".toList)
  | number value =>
    obtain ⟨t, ht, hvalue⟩ := h
    exact isAtom_write (ht.finite value hvalue)
  | string text =>
    obtain ⟨t, ht, htext⟩ := h
    exact ht.scanned.not_mem_quote htext
  | callable ref => exact h.elim

/-- Expressions of a listing fit in a row if each does. -/
theorem allFit_append {es es' : List SExpr} (h : AllFit es) (h' : AllFit es') :
    AllFit (es ++ es') := by
  induction es with
  | nil => exact h'
  | cons e es ih => exact ⟨h.1, ih h.2⟩

theorem allFit_words {names : List Token} (h : ∀ name ∈ names, name.IsName Legible) :
    AllFit (names.map (word ·.lexeme)) := by
  induction names with
  | nil => trivial
  | cons name names ih =>
    rw [List.forall_mem_cons] at h
    exact ⟨fits_word h.1, ih h.2⟩

mutual

/-- A legible expression has a listing that fits. -/
theorem Expr.fits_sexp : ∀ e : Expr, e.MadeOf Legible → e.sexp.Fits
  | .assign name value, h => ⟨(by decide : IsAtom _), fits_word h.1, value.fits_sexp h.2, trivial⟩
  | .binary left operator right, h =>
    ⟨fits_operator h.1.1 (isOperator_binary h.1.2), left.fits_sexp h.2.1, right.fits_sexp h.2.2,
      trivial⟩
  | .logical left operator right, h =>
    ⟨fits_operator h.1.1 (isOperator_logical h.1.2), left.fits_sexp h.2.1, right.fits_sexp h.2.2,
      trivial⟩
  | .grouping inner, h => ⟨(by decide : IsAtom _), inner.fits_sexp h, trivial⟩
  | .literal value, h => Value.fits_sexp h
  | .unary operator operand, h =>
    ⟨fits_operator h.1.1 (isOperator_unary h.1.2), operand.fits_sexp h.2, trivial⟩
  | .variable name, h => fits_word h
  | .call callee paren arguments, h =>
    ⟨(by decide : IsAtom _), callee.fits_sexp h.1, Expr.allFit_sexps arguments h.2.2⟩
  | .lambda function, h => by
    have hname : ∀ name ∈ function.name, name.IsName Legible := by simp [h.1]
    exact function.fits_sexp h.2 hname

theorem Expr.allFit_sexps : ∀ arguments : List Expr, Expr.AllMadeOf Legible arguments →
    AllFit (Expr.sexps arguments)
  | [], _ => trivial
  | e :: rest, h => ⟨e.fits_sexp h.1, Expr.allFit_sexps rest h.2⟩

theorem Stmt.fits_sexp : ∀ s : Stmt, s.MadeOf Legible → s.sexp.Fits
  | .block statements, h => ⟨(by decide : IsAtom _), Stmt.allFit_sexps statements h⟩
  | .expression value, h => ⟨(by decide : IsAtom _), value.fits_sexp h, trivial⟩
  | .var name none, h => ⟨(by decide : IsAtom _), fits_word h, trivial⟩
  | .var name (some value), h =>
    ⟨(by decide : IsAtom _), fits_word h.1, value.fits_sexp h.2, trivial⟩
  | .ifElse condition thenBranch none, h =>
    ⟨(by decide : IsAtom _), condition.fits_sexp h.1, thenBranch.fits_sexp h.2, trivial⟩
  | .ifElse condition thenBranch (some elseBranch), h =>
    ⟨(by decide : IsAtom _), condition.fits_sexp h.1, thenBranch.fits_sexp h.2.1,
      elseBranch.fits_sexp h.2.2, trivial⟩
  | .while condition body, h =>
    ⟨(by decide : IsAtom _), condition.fits_sexp h.1, body.fits_sexp h.2, trivial⟩
  | .break, _ => ⟨(by decide : IsAtom _), trivial⟩
  | .continue, _ => ⟨(by decide : IsAtom _), trivial⟩
  | .function declaration, h => by
    obtain ⟨⟨name, hmem, hname⟩, hmade⟩ := h
    have hnames : ∀ name ∈ declaration.name, name.IsName Legible := by
      rintro other hother
      rw [Option.mem_unique hother hmem]
      exact hname
    exact declaration.fits_sexp hmade hnames
  | .return none, _ => ⟨(by decide : IsAtom _), trivial⟩
  | .return (some value), h => ⟨(by decide : IsAtom _), value.fits_sexp h, trivial⟩

theorem Stmt.allFit_sexps : ∀ statements : List Stmt, Stmt.AllMadeOf Legible statements →
    AllFit (Stmt.sexps statements)
  | [], _ => trivial
  | s :: rest, h => ⟨s.fits_sexp h.1, Stmt.allFit_sexps rest h.2⟩

theorem FunctionDecl.fits_sexp : ∀ f : FunctionDecl, f.MadeOf Legible →
    (∀ name ∈ f.name, name.IsName Legible) → f.sexp.Fits
  | .mk name params body, h, hname => by
    have hname : AllFit (name.map (word ·.lexeme)).toList := by
      cases name with
      | none => trivial
      | some name => exact ⟨fits_word (hname name rfl), trivial⟩
    exact ⟨(by decide : IsAtom _),
      allFit_append hname ⟨allFit_words h.1, Stmt.allFit_sexps body h.2⟩⟩

end

/-! ### The node of an expression -/

/-- The nodes of expressions. -/
inductive ExprSort where
  | assign
  | binary
  | logical
  | grouping
  | literal
  | unary
  | variable
  | call
  | lambda
  deriving DecidableEq

def Expr.sort : Expr → ExprSort
  | .assign .. => .assign
  | .binary .. => .binary
  | .logical .. => .logical
  | .grouping _ => .grouping
  | .literal _ => .literal
  | .unary .. => .unary
  | .variable _ => .variable
  | .call .. => .call
  | .lambda _ => .lambda

/-- The node that an expression is written for. -/
def SExpr.sort : SExpr → ExprSort
  | .atom text =>
    if text ∈ literalWords ∨ text.head?.any (fun c => c.isDigit || c == '-') then .literal
    else .variable
  | .quoted _ => .literal
  | .list (.atom head :: parts) =>
    if head = "=".toList then .assign
    else if head = "group".toList then .grouping
    else if head = "call".toList then .call
    else if head = "fun".toList then .lambda
    else if head ∈ ["and".toList, "or".toList] then .logical
    else if parts.length = 2 then .binary
    else .unary
  | .list _ => .lambda

/-- The node of an operation follows from its operator and the number of its parts. -/
theorem sort_operation {t : Token} (h : Legible t) (hk : isOperator t.kind) (parts : List SExpr) :
    (SExpr.list (word t.lexeme :: parts)).sort =
      if (Grammar.logicalLevel? t.kind).isSome then .logical
      else if parts.length = 2 then .binary else .unary := by
  obtain ⟨-, hhead, hlogical⟩ := operator_fixedWords _ (h.operator hk).2 hk
  simp only [headWords, List.mem_cons, List.not_mem_nil, or_false, not_or] at hhead
  simp only [word, SExpr.sort, hhead, if_false, hlogical]

/-- A name is listed as a variable. -/
theorem sort_name {t : Token} (h : t.IsName Legible) : (word t.lexeme).sort = .variable := by
  obtain ⟨-, hword, hliteral⟩ := Legible.name h
  have hstart : t.lexeme.toList.head?.any (fun c => c.isDigit || c == '-') = false := by
    cases htext : t.lexeme.toList with
    | nil => rfl
    | cons c rest =>
      rw [htext] at hword
      have hdigit : c.isDigit = false := by
        rw [Bool.eq_false_iff]
        intro hd
        have := isWordStart_of_isDigit hd
        rw [hword.1] at this
        contradiction
      have hminus : c ≠ '-' := by
        rintro rfl
        exact absurd hword.1 (by decide +kernel)
      simp [hdigit, hminus]
  simp [word, SExpr.sort, hliteral, hstart]

/-- A printed number starts as no word does. -/
theorem head_write {x : Float} (h : Number.IsFinite x) :
    (Number.Layout.printed.write x).toList.head?.any (fun c => c.isDigit || c == '-') := by
  obtain ⟨negative, text, htext, hnumeral, _⟩ := h.exists_write
  obtain ⟨c, hc, hdigit⟩ := hnumeral.head
  rw [htext, String.toList_ofList]
  cases negative with
  | true => rfl
  | false => simp [Number.signOf, Option.mem_def.mp hc, hdigit]

/-- No binary or prefix operator is a logical one. -/
theorem not_logical {kind : TokenKind}
    (h : (Grammar.binaryLevel? kind).isSome ∨ kind ∈ [.bang, .minus]) :
    ¬(Grammar.logicalLevel? kind).isSome := by
  revert h
  cases kind <;> decide

/-- The sort of an expression can be told from its listing. -/
theorem sort_sexp {e : Expr} (h : e.MadeOf Legible) : e.sexp.sort = e.sort := by
  cases e with
  | assign => rfl
  | binary left operator right =>
    rw [Expr.sexp, sort_operation h.1.1 (isOperator_binary h.1.2),
      if_neg (not_logical (.inl h.1.2))]
    rfl
  | logical left operator right =>
    rw [Expr.sexp, sort_operation h.1.1 (isOperator_logical h.1.2), if_pos h.1.2]
    rfl
  | grouping => rfl
  | literal value =>
    cases value with
    | nil => rfl
    | bool value => cases value <;> rfl
    | number value =>
      obtain ⟨t, ht, hvalue⟩ := h
      exact if_pos (.inr (head_write (ht.finite value hvalue)))
    | string => rfl
    | callable => exact h.elim
  | unary operator operand =>
    rw [Expr.sexp, sort_operation h.1.1 (isOperator_unary h.1.2),
      if_neg (not_logical (.inr h.1.2))]
    rfl
  | «variable» name => exact sort_name h
  | call => rfl
  | lambda function =>
    cases function
    rfl

/-! ### The tree of a listing -/

/-- Expressions with the same listing are of one sort. -/
theorem sort_eq {e e' : Expr} (h : e.MadeOf Legible) (h' : e'.MadeOf Legible)
    (hs : e.sexp = e'.sexp) : e.sort = e'.sort := by
  rw [← sort_sexp h, ← sort_sexp h', hs]

theorem word_injective {text text' : String} (h : word text = word text') : text = text' :=
  String.toList_inj.mp (SExpr.atom.inj h)

theorem sameText_name {t t' : Token} (h : t.IsName Legible) (h' : t'.IsName Legible)
    (hw : word t.lexeme = word t'.lexeme) : t.SameText t' :=
  Token.sameText (h.2.trans h'.2.symm) (word_injective hw)
    ((Legible.name h).1.trans (Legible.name h').1.symm)

theorem sameText_operator {t t' : Token} (h : Legible t) (h' : Legible t') (hk : isOperator t.kind)
    (hk' : isOperator t'.kind) (hw : word t.lexeme = word t'.lexeme) : t.SameText t' := by
  obtain ⟨hliteral, hmem⟩ := h.operator hk
  obtain ⟨hliteral', hmem'⟩ := h'.operator hk'
  have hlexeme := word_injective hw
  exact Token.sameText (kind_of_fixedWords _ hmem _ hmem' hlexeme) hlexeme
    (hliteral.trans hliteral'.symm)

/-- Closing parentheses are all the same. -/
theorem sameText_paren {t t' : Token} (h : Legible t) (h' : Legible t') (hk : t.kind = .rightParen)
    (hk' : t'.kind = .rightParen) : t.SameText t' := by
  have only : ∀ w ∈ fixedWords, w.2 = .rightParen → w.1 = ")" := by decide +kernel
  obtain ⟨hliteral, hmem⟩ := h.scanned.fixed (by rw [hk]; decide)
  obtain ⟨hliteral', hmem'⟩ := h'.scanned.fixed (by rw [hk']; decide)
  exact Token.sameText (hk.trans hk'.symm) ((only _ hmem hk).trans (only _ hmem' hk').symm)
    (hliteral.trans hliteral'.symm)

theorem sameText_names {names names' : List Token} (h : ∀ name ∈ names, name.IsName Legible)
    (h' : ∀ name ∈ names', name.IsName Legible)
    (hw : names.map (word ·.lexeme) = names'.map (word ·.lexeme)) :
    List.Forall₂ Token.SameText names names' := by
  induction names generalizing names' with
  | nil =>
    obtain rfl : names' = [] := List.map_eq_nil_iff.mp hw.symm
    exact .nil
  | cons name names ih =>
    match names', h', hw with
    | name' :: names', h', hw =>
      rw [List.forall_mem_cons] at h h'
      obtain ⟨hfirst, hrest⟩ := List.cons.inj hw
      exact .cons (sameText_name h.1 h'.1 hfirst) (ih h.2 h'.2 hrest)

/-- The words of literals and numbers are all different. -/
theorem word_ne_number {text : String} (ht : text.toList ∈ literalWords) {x : Float}
    (h : Number.IsFinite x) : word text ≠ word (Number.Layout.printed.write x) := by
  have words : ∀ w ∈ literalWords, w.head?.any (fun c => c.isDigit || c == '-') = false := by
    decide
  intro heq
  have hhead := head_write h
  rw [← word_injective heq, words _ ht] at hhead
  contradiction

/-- A literal follows from its text. -/
theorem Value.eq_of_sexp {value value' : Value} (h : value.MadeOf Legible)
    (h' : value'.MadeOf Legible) (hs : (Expr.literal value).sexp = (Expr.literal value').sexp) :
    value = value' := by
  have number {x : Float} (h : (Value.number x).MadeOf Legible) : Number.IsFinite x := by
    obtain ⟨t, ht, hvalue⟩ := h
    exact ht.finite x hvalue
  have words (b : Bool) : (Value.bool b).text.toList ∈ literalWords := by cases b <;> decide
  have distinct (b : Bool) : word "nil" ≠ word (Value.bool b).text := by
    cases b <;> exact fun h => absurd (word_injective h) (by decide)
  match value, value' with
  | .nil, .nil => rfl
  | .nil, .bool b => exact absurd hs (distinct b)
  | .bool b, .nil => exact absurd hs.symm (distinct b)
  | .bool b, .bool b' =>
    have htext := word_injective hs
    cases b <;> cases b' <;> first | rfl | exact absurd htext (by decide)
  | .nil, .number x => exact absurd hs (word_ne_number (by decide) (number h'))
  | .number x, .nil => exact absurd hs.symm (word_ne_number (by decide) (number h))
  | .bool b, .number x => exact absurd hs (word_ne_number (words b) (number h'))
  | .number x, .bool b => exact absurd hs.symm (word_ne_number (words b) (number h))
  | .number x, .number y =>
    exact congrArg _ (Number.write_injective (number h) (number h') (word_injective hs))
  | .string text, .string text' => exact congrArg _ (String.toList_inj.mp (SExpr.quoted.inj hs))
  | .string _, .nil | .string _, .bool _ | .string _, .number _ => exact nomatch hs
  | .nil, .string _ | .bool _, .string _ | .number _, .string _ => exact nomatch hs
  | .callable _, _ => exact h.elim
  | _, .callable _ => exact h'.elim

/-- The word at the head of a statement. -/
def Stmt.head : Stmt → String
  | .block _ => "block"
  | .expression _ => ";"
  | .var .. => "var"
  | .ifElse .. => "if"
  | .while .. => "while"
  | .break => "break"
  | .continue => "continue"
  | .function _ => "fun"
  | .return _ => "return"
  | .empty => "empty"

/-- A statement is listed with its head first. -/
theorem Stmt.exists_sexp (s : Stmt) : ∃ parts, s.sexp = .list (word s.head :: parts) := by
  cases s with
  | var name initializer => cases initializer <;> exact ⟨_, rfl⟩
  | ifElse condition thenBranch elseBranch => cases elseBranch <;> exact ⟨_, rfl⟩
  | «return» value => cases value <;> exact ⟨_, rfl⟩
  | function declaration =>
    cases declaration
    exact ⟨_, rfl⟩
  | _ => exact ⟨_, rfl⟩

/-- Statements with the same listing have the same head. -/
theorem head_eq {s s' : Stmt} (hs : s.sexp = s'.sexp) : s.head = s'.head := by
  obtain ⟨parts, hparts⟩ := s.exists_sexp
  obtain ⟨parts', hparts'⟩ := s'.exists_sexp
  rw [hparts, hparts'] at hs
  exact word_injective (List.cons.inj (SExpr.list.inj hs)).1

mutual

/-- Expressions with the same listing are alike but for the lines. -/
theorem Expr.alike_of_sexp : ∀ (e e' : Expr), e.MadeOf Legible → e'.MadeOf Legible →
    e.sexp = e'.sexp → Expr.Alike Token.SameText e e'
  | .assign name value, e', h, h', hs => by
    have hsort := sort_eq h h' hs
    cases e' with
    | assign name' value' =>
      simp only [Expr.sexp, SExpr.list.injEq, List.cons.injEq, true_and, and_true] at hs
      exact .assign (sameText_name h.1 h'.1 hs.1) (value.alike_of_sexp value' h.2 h'.2 hs.2)
    | _ => contradiction
  | .binary left operator right, e', h, h', hs => by
    have hsort := sort_eq h h' hs
    cases e' with
    | binary left' operator' right' =>
      simp only [Expr.sexp, SExpr.list.injEq, List.cons.injEq, and_true] at hs
      exact .binary (left.alike_of_sexp left' h.2.1 h'.2.1 hs.2.1)
        (sameText_operator h.1.1 h'.1.1 (isOperator_binary h.1.2) (isOperator_binary h'.1.2) hs.1)
        (right.alike_of_sexp right' h.2.2 h'.2.2 hs.2.2)
    | _ => contradiction
  | .logical left operator right, e', h, h', hs => by
    have hsort := sort_eq h h' hs
    cases e' with
    | logical left' operator' right' =>
      simp only [Expr.sexp, SExpr.list.injEq, List.cons.injEq, and_true] at hs
      exact .logical (left.alike_of_sexp left' h.2.1 h'.2.1 hs.2.1)
        (sameText_operator h.1.1 h'.1.1 (isOperator_logical h.1.2) (isOperator_logical h'.1.2) hs.1)
        (right.alike_of_sexp right' h.2.2 h'.2.2 hs.2.2)
    | _ => contradiction
  | .grouping inner, e', h, h', hs => by
    have hsort := sort_eq h h' hs
    cases e' with
    | grouping inner' =>
      simp only [Expr.sexp, SExpr.list.injEq, List.cons.injEq, true_and, and_true] at hs
      exact .grouping (inner.alike_of_sexp inner' h h' hs)
    | _ => contradiction
  | .literal value, e', h, h', hs => by
    have hsort := sort_eq h h' hs
    cases e' with
    | literal value' =>
      obtain rfl := Value.eq_of_sexp h h' hs
      exact .literal
    | _ => contradiction
  | .unary operator operand, e', h, h', hs => by
    have hsort := sort_eq h h' hs
    cases e' with
    | unary operator' operand' =>
      simp only [Expr.sexp, SExpr.list.injEq, List.cons.injEq, and_true] at hs
      exact .unary
        (sameText_operator h.1.1 h'.1.1 (isOperator_unary h.1.2) (isOperator_unary h'.1.2) hs.1)
        (operand.alike_of_sexp operand' h.2 h'.2 hs.2)
    | _ => contradiction
  | .variable name, e', h, h', hs => by
    have hsort := sort_eq h h' hs
    cases e' with
    | «variable» name' => exact .variable (sameText_name h h' hs)
    | _ => contradiction
  | .call callee paren arguments, e', h, h', hs => by
    have hsort := sort_eq h h' hs
    cases e' with
    | call callee' paren' arguments' =>
      simp only [Expr.sexp, SExpr.list.injEq, List.cons.injEq, true_and] at hs
      exact .call (callee.alike_of_sexp callee' h.1 h'.1 hs.1)
        (sameText_paren h.2.1.1 h'.2.1.1 h.2.1.2 h'.2.1.2)
        (Expr.alike_of_sexps arguments arguments' h.2.2 h'.2.2 hs.2)
    | _ => contradiction
  | .lambda function, e', h, h', hs => by
    have hsort := sort_eq h h' hs
    cases e' with
    | lambda function' =>
      simp only [Expr.sexp] at hs
      have hnamed : Option.Rel (fun t t' => t.IsName Legible ∧ t'.IsName Legible)
          function.name function'.name := by
        rw [h.1, h'.1]
        exact .none
      exact .lambda (function.alike_of_sexp function' h.2 h'.2 hnamed hs)
    | _ => contradiction

theorem Expr.alike_of_sexps : ∀ (arguments arguments' : List Expr),
    Expr.AllMadeOf Legible arguments → Expr.AllMadeOf Legible arguments' →
    Expr.sexps arguments = Expr.sexps arguments' →
    List.Forall₂ (Expr.Alike Token.SameText) arguments arguments'
  | [], [], _, _, _ => .nil
  | [], _ :: _, _, _, hs => nomatch hs
  | _ :: _, [], _, _, hs => nomatch hs
  | e :: rest, e' :: rest', h, h', hs => by
    obtain ⟨hfirst, hrest⟩ := List.cons.inj hs
    exact .cons (e.alike_of_sexp e' h.1 h'.1 hfirst) (Expr.alike_of_sexps rest rest' h.2 h'.2 hrest)

theorem Stmt.alike_of_sexp : ∀ (s s' : Stmt), s.MadeOf Legible → s'.MadeOf Legible →
    s.sexp = s'.sexp → Stmt.Alike Token.SameText s s'
  | .block body, s', h, h', hs => by
    have hhead := head_eq hs
    cases s' with
    | block body' =>
      simp only [Stmt.sexp, SExpr.list.injEq, List.cons.injEq, true_and] at hs
      exact .block (Stmt.alike_of_sexps body body' h h' hs)
    | _ => simp [Stmt.head] at hhead
  | .expression value, s', h, h', hs => by
    have hhead := head_eq hs
    cases s' with
    | expression value' =>
      simp only [Stmt.sexp, SExpr.list.injEq, List.cons.injEq, true_and, and_true] at hs
      exact .expression (value.alike_of_sexp value' h h' hs)
    | _ => simp [Stmt.head] at hhead
  | .var name initializer, s', h, h', hs => by
    have hhead := head_eq hs
    cases s' with
    | var name' initializer' =>
      cases initializer with
      | none =>
        cases initializer' with
        | none =>
          simp only [Stmt.sexp, SExpr.list.injEq, List.cons.injEq, true_and, and_true] at hs
          exact .var (sameText_name h h' hs) .none
        | some value' => simp [Stmt.sexp] at hs
      | some value =>
        cases initializer' with
        | none => simp [Stmt.sexp] at hs
        | some value' =>
          simp only [Stmt.sexp, SExpr.list.injEq, List.cons.injEq, true_and, and_true] at hs
          exact .var (sameText_name h.1 h'.1 hs.1)
            (.some (value.alike_of_sexp value' h.2 h'.2 hs.2))
    | _ => simp [Stmt.head] at hhead
  | .ifElse condition thenBranch none, s', h, h', hs => by
    have hhead := head_eq hs
    cases s' with
    | ifElse condition' thenBranch' elseBranch' =>
      cases elseBranch' with
      | none =>
        simp only [Stmt.sexp, SExpr.list.injEq, List.cons.injEq, true_and, and_true] at hs
        exact .ifElse (condition.alike_of_sexp condition' h.1 h'.1 hs.1)
          (thenBranch.alike_of_sexp thenBranch' h.2 h'.2 hs.2) .none
      | some elseBranch' => simp [Stmt.sexp] at hs
    | _ => simp [Stmt.head] at hhead
  | .ifElse condition thenBranch (some elseBranch), s', h, h', hs => by
    have hhead := head_eq hs
    cases s' with
    | ifElse condition' thenBranch' elseBranch' =>
      cases elseBranch' with
      | none => simp [Stmt.sexp] at hs
      | some elseBranch' =>
        simp only [Stmt.sexp, SExpr.list.injEq, List.cons.injEq, true_and, and_true] at hs
        exact .ifElse (condition.alike_of_sexp condition' h.1 h'.1 hs.1)
          (thenBranch.alike_of_sexp thenBranch' h.2.1 h'.2.1 hs.2.1)
          (.some (elseBranch.alike_of_sexp elseBranch' h.2.2 h'.2.2 hs.2.2))
    | _ => simp [Stmt.head] at hhead
  | .while condition body, s', h, h', hs => by
    have hhead := head_eq hs
    cases s' with
    | «while» condition' body' =>
      simp only [Stmt.sexp, SExpr.list.injEq, List.cons.injEq, true_and, and_true] at hs
      exact .while (condition.alike_of_sexp condition' h.1 h'.1 hs.1)
        (body.alike_of_sexp body' h.2 h'.2 hs.2)
    | _ => simp [Stmt.head] at hhead
  | .break, s', _, _, hs => by
    have hhead := head_eq hs
    cases s' with
    | «break» => exact .break
    | _ => simp [Stmt.head] at hhead
  | .continue, s', _, _, hs => by
    have hhead := head_eq hs
    cases s' with
    | «continue» => exact .continue
    | _ => simp [Stmt.head] at hhead
  | .function declaration, s', h, h', hs => by
    have hhead := head_eq hs
    cases s' with
    | function declaration' =>
      obtain ⟨⟨name, hmem, hname⟩, hmade⟩ := h
      obtain ⟨⟨name', hmem', hname'⟩, hmade'⟩ := h'
      simp only [Stmt.sexp] at hs
      have hnamed : Option.Rel (fun t t' => t.IsName Legible ∧ t'.IsName Legible)
          declaration.name declaration'.name := by
        rw [Option.mem_def.mp hmem, Option.mem_def.mp hmem']
        exact .some ⟨hname, hname'⟩
      exact .function (declaration.alike_of_sexp declaration' hmade hmade' hnamed hs)
    | _ => simp [Stmt.head] at hhead
  | .return value, s', h, h', hs => by
    have hhead := head_eq hs
    cases s' with
    | «return» value' =>
      cases value with
      | none =>
        cases value' with
        | none => exact .return .none
        | some value' => simp [Stmt.sexp] at hs
      | some value =>
        cases value' with
        | none => simp [Stmt.sexp] at hs
        | some value' =>
          simp only [Stmt.sexp, SExpr.list.injEq, List.cons.injEq, true_and, and_true] at hs
          exact .return (.some (value.alike_of_sexp value' h h' hs))
    | _ => simp [Stmt.head] at hhead

theorem Stmt.alike_of_sexps : ∀ (body body' : List Stmt), Stmt.AllMadeOf Legible body →
    Stmt.AllMadeOf Legible body' → Stmt.sexps body = Stmt.sexps body' →
    List.Forall₂ (Stmt.Alike Token.SameText) body body'
  | [], [], _, _, _ => .nil
  | [], _ :: _, _, _, hs => nomatch hs
  | _ :: _, [], _, _, hs => nomatch hs
  | s :: rest, s' :: rest', h, h', hs => by
    obtain ⟨hfirst, hrest⟩ := List.cons.inj hs
    exact .cons (s.alike_of_sexp s' h.1 h'.1 hfirst) (Stmt.alike_of_sexps rest rest' h.2 h'.2 hrest)

theorem FunctionDecl.alike_of_sexp : ∀ (f f' : FunctionDecl), f.MadeOf Legible →
    f'.MadeOf Legible →
    Option.Rel (fun t t' => t.IsName Legible ∧ t'.IsName Legible) f.name f'.name →
    f.sexp = f'.sexp → FunctionDecl.Alike Token.SameText f f'
  | .mk name params body, .mk name' params' body', h, h', hnamed, hs => by
    simp only [FunctionDecl.sexp, SExpr.list.injEq, List.cons.injEq, true_and] at hs
    cases hnamed with
    | none =>
      obtain ⟨hparams, hbody⟩ := List.cons.inj hs
      exact .mk .none (sameText_names h.1 h'.1 (SExpr.list.inj hparams))
        (Stmt.alike_of_sexps body body' h.2 h'.2 hbody)
    | some hnames =>
      obtain ⟨hname, hs⟩ := List.cons.inj hs
      obtain ⟨hparams, hbody⟩ := List.cons.inj hs
      exact .mk (.some (sameText_name hnames.1 hnames.2 hname))
        (sameText_names h.1 h'.1 (SExpr.list.inj hparams))
        (Stmt.alike_of_sexps body body' h.2 h'.2 hbody)

end

/-- The program of a source without errors is made of tokens of the source. -/
theorem madeOf_parseSource {source : String} (h : (Grammar.parseSource source).errors = [])
    (hfinite : ∀ t ∈ (scan source).tokens, ∀ x, t.literal = some (.number x) → Number.IsFinite x) :
    Stmt.AllMadeOf Legible (Grammar.parseSource source).statements := by
  have hwords : ∀ t ∈ words source, Legible t := by
    intro t ht
    have hmem : t ∈ (scan source).tokens := by
      rw [tokens_eq]
      exact List.mem_append_left _ ht
    exact ⟨isScanned_of_mem_words ht, hfinite t hmem⟩
  exact (Grammar.derives_parseSource h).madeOf hwords

/-- Whether the literal of a token is no infinite number, as a test. -/
def Token.holdsFinite (t : Token) : Bool :=
  match t.literal with
  | some (.number x) => Number.IsFinite x
  | _ => true

/-- Numbers among finite tokens are finite. -/
theorem isFinite_of_holdsFinite {tokens : List Token}
    (hall : tokens.all Token.holdsFinite = true) :
    ∀ t ∈ tokens, ∀ x, t.literal = some (.number x) → Number.IsFinite x := by
  intro t ht x hx
  have htest := List.all_eq_true.mp hall t ht
  simpa [Token.holdsFinite, hx] using htest

/-- A listing loses nothing of a program but the lines of its tokens: if two sources are parsed
without errors and their number literals are finite, and their programs are listed alike, then the
programs are the same, tree by tree. -/
theorem programListing_injective {source source' : String}
    (h : (Grammar.parseSource source).errors = []) (h' : (Grammar.parseSource source').errors = [])
    (hfinite : ∀ t ∈ (scan source).tokens, ∀ x, t.literal = some (.number x) → Number.IsFinite x)
    (hfinite' : ∀ t ∈ (scan source').tokens, ∀ x, t.literal = some (.number x) →
      Number.IsFinite x)
    (hlisting : Stmt.programListing (Grammar.parseSource source).statements =
      Stmt.programListing (Grammar.parseSource source').statements) :
    Stmt.AllAlike Token.SameText (Grammar.parseSource source).statements
      (Grammar.parseSource source').statements := by
  have hmade := madeOf_parseSource h hfinite
  have hmade' := madeOf_parseSource h' hfinite'
  rw [← String.toList_inj, Stmt.toList_programListing, Stmt.toList_programListing] at hlisting
  have hsexps := lines_injective (Stmt.allFit_sexps _ hmade) (Stmt.allFit_sexps _ hmade') hlisting
  exact Stmt.alike_of_sexps _ _ hmade hmade' hsexps

theorem programListing_injective_lines :
    let source := "var a = 1.50; a(-a, \"x\");"
    let source' := "var a =\n1.5; // one and a half\na(-a, \"x\");"
    (Grammar.parseSource source).errors = [] ∧ (Grammar.parseSource source').errors = [] ∧
      (∀ t ∈ (scan source).tokens, ∀ x, t.literal = some (.number x) → Number.IsFinite x) ∧
      (∀ t ∈ (scan source').tokens, ∀ x, t.literal = some (.number x) → Number.IsFinite x) ∧
      Stmt.programListing (Grammar.parseSource source).statements =
        Stmt.programListing (Grammar.parseSource source').statements ∧
      Stmt.AllAlike Token.SameText (Grammar.parseSource source).statements
        (Grammar.parseSource source').statements := by
  intro source source'
  have h : (Grammar.parseSource source).errors = [] := List.isEmpty_iff.mp (by decide +kernel)
  have h' : (Grammar.parseSource source').errors = [] := List.isEmpty_iff.mp (by decide +kernel)
  have hfinite := @isFinite_of_holdsFinite (scan source).tokens (by decide +kernel)
  have hfinite' := @isFinite_of_holdsFinite (scan source').tokens (by decide +kernel)
  have hlisting : Stmt.programListing (Grammar.parseSource source).statements =
      Stmt.programListing (Grammar.parseSource source').statements := by decide +kernel
  exact ⟨h, h', hfinite, hfinite', hlisting,
    programListing_injective h h' hfinite hfinite' hlisting⟩

end Lox
