import Lox.Proofs.Tree.Likeness
import Lox.Proofs.Tree.SExpr
import Lox.Tree.Listing

/-!
# Listings as parenthesized expressions

Every node is a list with a word or an operator at its head, a name or a literal is an
atom, and a text stands between quotes. A listed program is such expressions on lines of
their own. No line of a token is in it.
-/

namespace Lox

/-! ### Trees as parenthesized expressions -/

/-- A word or an operator. -/
def SExpr.word (text : String) : SExpr := .atom text.toList

mutual

def Expr.sexp : Expr → SExpr
  | .assign name value => .list [.word "=", .word name.lexeme, value.sexp]
  | .binary left operator right | .logical left operator right =>
    .list [.word operator.lexeme, left.sexp, right.sexp]
  | .grouping inner => .list [.word "group", inner.sexp]
  | .literal (.string text) => .quoted text.toList
  | .literal value => .word value.text
  | .unary operator operand => .list [.word operator.lexeme, operand.sexp]
  | .variable name => .word name.lexeme
  | .call callee _ arguments => .list (.word "call" :: callee.sexp :: Expr.sexps arguments)
  | .lambda function => function.sexp

def Expr.sexps : List Expr → List SExpr
  | [] => []
  | e :: rest => e.sexp :: Expr.sexps rest

def Stmt.sexp : Stmt → SExpr
  | .block statements => .list (.word "block" :: Stmt.sexps statements)
  | .expression value => .list [.word ";", value.sexp]
  | .var name (some value) => .list [.word "var", .word name.lexeme, value.sexp]
  | .var name none => .list [.word "var", .word name.lexeme]
  | .ifElse condition thenBranch (some elseBranch) =>
    .list [.word "if", condition.sexp, thenBranch.sexp, elseBranch.sexp]
  | .ifElse condition thenBranch none => .list [.word "if", condition.sexp, thenBranch.sexp]
  | .while condition body => .list [.word "while", condition.sexp, body.sexp]
  | .break => .list [.word "break"]
  | .continue => .list [.word "continue"]
  | .function declaration => declaration.sexp
  | .return (some value) => .list [.word "return", value.sexp]
  | .return none => .list [.word "return"]
  | .empty => .list [.word "empty"]

def Stmt.sexps : List Stmt → List SExpr
  | [] => []
  | s :: rest => s.sexp :: Stmt.sexps rest

def FunctionDecl.sexp : FunctionDecl → SExpr
  | .mk name params body =>
    .list (.word "fun" :: ((name.map (SExpr.word ·.lexeme)).toList ++
      .list (params.map (SExpr.word ·.lexeme)) :: Stmt.sexps body))

end

/-! ### How they are written -/

namespace SExpr

/-- Parts with blanks between them, in front of a closing parenthesis. -/
theorem toList_intercalate {first : String} {parts : List String} {e : SExpr} {es : List SExpr}
    (he : first.toList = e.write) (hes : parts.map String.toList = es.map write) :
    (" ".intercalate (first :: parts)).toList ++ [')'] = e.write ++ writeRest es := by
  induction parts generalizing first e es with
  | nil =>
    obtain rfl : es = [] := List.map_eq_nil_iff.mp hes.symm
    simp [he, writeRest]
  | cons next parts ih =>
    match es, hes with
    | e' :: es, hes =>
      obtain ⟨hnext, hrest⟩ := List.cons.inj hes
      have hblank : " ".toList = [' '] := rfl
      have := ih hnext hrest
      rw [String.toList_intercalate, hblank] at this ⊢
      simp only [List.map_cons, List.intercalate_cons_cons, List.append_assoc] at this ⊢
      rw [this, he]
      rfl

/-- What is parenthesized is a list with its head first. -/
theorem toList_parenthesize {head : String} {parts : List String} {es : List SExpr}
    (h : parts.map String.toList = es.map write) :
    (parenthesize head parts).toList = (list (word head :: es)).write := by
  have hopening : "(".toList = ['('] := rfl
  have hclosing : ")".toList = [')'] := rfl
  have hhead : head.toList = (word head).write := rfl
  rw [parenthesize, String.toList_append, String.toList_append, hopening, hclosing,
    List.append_assoc, toList_intercalate hhead h]
  rfl

/-- A signature is the list of its parameters. -/
theorem toList_signature (params : List Token) :
    ("(" ++ " ".intercalate (params.map Token.lexeme) ++ ")").toList =
      (list (params.map (word ·.lexeme))).write := by
  have hopening : "(".toList = ['('] := rfl
  have hclosing : ")".toList = [')'] := rfl
  rw [String.toList_append, String.toList_append, hopening, hclosing, List.append_assoc]
  cases params with
  | nil => rfl
  | cons first rest =>
    have hfirst : first.lexeme.toList = (word first.lexeme).write := rfl
    have hrest : (rest.map Token.lexeme).map String.toList =
        (rest.map (word ·.lexeme)).map write := by
      simp only [List.map_map]
      rfl
    rw [List.map_cons, toList_intercalate hfirst hrest]
    rfl

end SExpr

open SExpr

mutual

/-- The listing of an expression is its tree, written out. -/
theorem Expr.toList_listing : ∀ e : Expr, e.listing.toList = e.sexp.write
  | .assign name value => by
    rw [Expr.listing, Expr.sexp]
    apply toList_parenthesize
    simp only [List.map_cons, List.map_nil, value.toList_listing, word, write]
  | .binary left operator right | .logical left operator right => by
    rw [Expr.listing, Expr.sexp]
    apply toList_parenthesize
    simp only [List.map_cons, List.map_nil, left.toList_listing, right.toList_listing]
  | .grouping inner => by
    rw [Expr.listing, Expr.sexp]
    apply toList_parenthesize
    simp only [List.map_cons, List.map_nil, inner.toList_listing]
  | .literal (.string text) => by
    have hquote : "\"".toList = ['"'] := rfl
    rw [Expr.listing, Value.listing, String.toList_append, String.toList_append, hquote]
    rfl
  | .literal .nil | .literal (.bool _) | .literal (.number _) | .literal (.callable _) => rfl
  | .unary operator operand => by
    rw [Expr.listing, Expr.sexp]
    apply toList_parenthesize
    simp only [List.map_cons, List.map_nil, operand.toList_listing]
  | .variable name => rfl
  | .call callee paren arguments => by
    rw [Expr.listing, Expr.sexp]
    apply toList_parenthesize
    simp only [List.map_cons, callee.toList_listing, Expr.toList_listings arguments]
  | .lambda function => by rw [Expr.listing, Expr.sexp, function.toList_listing]

theorem Expr.toList_listings : ∀ arguments : List Expr,
    (Expr.listings arguments).map String.toList = (Expr.sexps arguments).map write
  | [] => rfl
  | e :: rest => by
    simp only [Expr.listings, Expr.sexps, List.map_cons, e.toList_listing,
      Expr.toList_listings rest]

theorem Stmt.toList_listing : ∀ s : Stmt, s.listing.toList = s.sexp.write
  | .block statements => by
    rw [Stmt.listing, Stmt.sexp]
    exact toList_parenthesize (Stmt.toList_listings statements)
  | .expression value => by
    rw [Stmt.listing, Stmt.sexp]
    apply toList_parenthesize
    simp only [List.map_cons, List.map_nil, value.toList_listing]
  | .var name (some value) => by
    rw [Stmt.listing, Stmt.sexp]
    apply toList_parenthesize
    simp only [List.map_cons, List.map_nil, value.toList_listing, word, write]
  | .var name none => by
    rw [Stmt.listing, Stmt.sexp]
    exact toList_parenthesize rfl
  | .ifElse condition thenBranch (some elseBranch) => by
    rw [Stmt.listing, Stmt.sexp]
    apply toList_parenthesize
    simp only [List.map_cons, List.map_nil, condition.toList_listing, thenBranch.toList_listing,
      elseBranch.toList_listing]
  | .ifElse condition thenBranch none => by
    rw [Stmt.listing, Stmt.sexp]
    apply toList_parenthesize
    simp only [List.map_cons, List.map_nil, condition.toList_listing, thenBranch.toList_listing]
  | .while condition body => by
    rw [Stmt.listing, Stmt.sexp]
    apply toList_parenthesize
    simp only [List.map_cons, List.map_nil, condition.toList_listing, body.toList_listing]
  | .break | .continue | .return none | .empty => rfl
  | .function declaration => by rw [Stmt.listing, Stmt.sexp, declaration.toList_listing]
  | .return (some value) => by
    rw [Stmt.listing, Stmt.sexp]
    apply toList_parenthesize
    simp only [List.map_cons, List.map_nil, value.toList_listing]

theorem Stmt.toList_listings : ∀ statements : List Stmt,
    (Stmt.listings statements).map String.toList = (Stmt.sexps statements).map write
  | [] => rfl
  | s :: rest => by
    simp only [Stmt.listings, Stmt.sexps, List.map_cons, s.toList_listing,
      Stmt.toList_listings rest]

theorem FunctionDecl.toList_listing : ∀ f : FunctionDecl, f.listing.toList = f.sexp.write
  | .mk name params body => by
    rw [FunctionDecl.listing, FunctionDecl.sexp]
    apply toList_parenthesize
    simp only [List.map_append, List.map_cons, toList_signature, Stmt.toList_listings body]
    cases name <;> rfl

end

/-- A listed program, a statement a line. -/
theorem Stmt.toList_programListing (statements : List Stmt) :
    (Stmt.programListing statements).toList =
      (Stmt.sexps statements).flatMap fun e => e.write ++ ['\n'] := by
  have hbreak : "\n".toList = ['\n'] := rfl
  rw [Stmt.programListing, String.toList_join, List.flatMap_map]
  induction statements with
  | nil => rfl
  | cons s rest ih =>
    simp only [List.flatMap_cons, Stmt.sexps, String.toList_append, s.toList_listing, hbreak]
      at ih ⊢
    rw [ih]

/-! ### Alike trees -/

section

variable {R : Token → Token → Prop}

/-- Exchanged tokens have the same lexemes. -/
theorem Token.map_lexeme_eq (hR : Relabels R) {ts ts' : List Token} (h : List.Forall₂ R ts ts') :
    ts'.map Token.lexeme = ts.map Token.lexeme := by
  induction h with
  | nil => rfl
  | cons ht _ ih => rw [List.map_cons, List.map_cons, hR.lexeme ht, ih]

mutual

/-- Alike trees are listed in the same way. -/
theorem Expr.listing_eq_of_alike (hR : Relabels R) : ∀ e e' : Expr, Expr.Alike R e e' →
    e'.listing = e.listing
  | .assign _ value, _, .assign hname hvalue => by
    rw [Expr.listing, Expr.listing, hR.lexeme hname, value.listing_eq_of_alike hR _ hvalue]
  | .binary left _ right, _, .binary hleft ho hright
  | .logical left _ right, _, .logical hleft ho hright => by
    rw [Expr.listing, Expr.listing, left.listing_eq_of_alike hR _ hleft, hR.lexeme ho,
      right.listing_eq_of_alike hR _ hright]
  | .grouping inner, _, .grouping hinner => by
    rw [Expr.listing, Expr.listing, inner.listing_eq_of_alike hR _ hinner]
  | .literal _, _, .literal => rfl
  | .unary _ operand, _, .unary ho hoperand => by
    rw [Expr.listing, Expr.listing, hR.lexeme ho, operand.listing_eq_of_alike hR _ hoperand]
  | .variable _, _, .variable hname => by rw [Expr.listing, Expr.listing, hR.lexeme hname]
  | .call callee _ arguments, _, .call hcallee _ harguments => by
    rw [Expr.listing, Expr.listing, callee.listing_eq_of_alike hR _ hcallee,
      Expr.listings_eq_of_alike hR arguments _ harguments]
  | .lambda function, _, .lambda hf => by
    rw [Expr.listing, Expr.listing, function.listing_eq_of_alike hR _ hf]

/-- Like arguments have the same listings. -/
theorem Expr.listings_eq_of_alike (hR : Relabels R) : ∀ es es' : List Expr,
    List.Forall₂ (Expr.Alike R) es es' → Expr.listings es' = Expr.listings es
  | [], _, .nil => rfl
  | e :: rest, _, .cons he hrest => by
    rw [Expr.listings, Expr.listings, e.listing_eq_of_alike hR _ he,
      Expr.listings_eq_of_alike hR rest _ hrest]

/-- Like statements have the same listing. -/
theorem Stmt.listing_eq_of_alike (hR : Relabels R) : ∀ s s' : Stmt, Stmt.Alike R s s' →
    s'.listing = s.listing
  | .block statements, _, .block hbody => by
    rw [Stmt.listing, Stmt.listing, Stmt.listings_eq_of_alike hR statements _ hbody]
  | .expression value, _, .expression hvalue | .return (some value), _, .return (.some hvalue) => by
    rw [Stmt.listing, Stmt.listing, value.listing_eq_of_alike hR _ hvalue]
  | .var _ none, _, .var hname .none => by rw [Stmt.listing, Stmt.listing, hR.lexeme hname]
  | .var _ (some value), _, .var hname (.some hvalue) => by
    rw [Stmt.listing, Stmt.listing, hR.lexeme hname, value.listing_eq_of_alike hR _ hvalue]
  | .ifElse condition thenBranch none, _, .ifElse hcondition hthen .none => by
    rw [Stmt.listing, Stmt.listing, condition.listing_eq_of_alike hR _ hcondition,
      thenBranch.listing_eq_of_alike hR _ hthen]
  | .ifElse condition thenBranch (some elseBranch), _, .ifElse hcondition hthen (.some helse) => by
    rw [Stmt.listing, Stmt.listing, condition.listing_eq_of_alike hR _ hcondition,
      thenBranch.listing_eq_of_alike hR _ hthen, elseBranch.listing_eq_of_alike hR _ helse]
  | .while condition body, _, .while hcondition hbody => by
    rw [Stmt.listing, Stmt.listing, condition.listing_eq_of_alike hR _ hcondition,
      body.listing_eq_of_alike hR _ hbody]
  | .break, _, .break | .continue, _, .continue | .return none, _, .return .none
  | .empty, _, .empty => rfl
  | .function declaration, _, .function hf => by
    rw [Stmt.listing, Stmt.listing, declaration.listing_eq_of_alike hR _ hf]

theorem Stmt.listings_eq_of_alike (hR : Relabels R) : ∀ ss ss' : List Stmt,
    Stmt.AllAlike R ss ss' → Stmt.listings ss' = Stmt.listings ss
  | [], _, .nil => rfl
  | s :: rest, _, .cons hs hrest => by
    rw [Stmt.listings, Stmt.listings, s.listing_eq_of_alike hR _ hs,
      Stmt.listings_eq_of_alike hR rest _ hrest]

theorem FunctionDecl.listing_eq_of_alike (hR : Relabels R) : ∀ f f' : FunctionDecl,
    FunctionDecl.Alike R f f' → f'.listing = f.listing
  | .mk none _ body, _, .mk .none hparams hbody => by
    rw [FunctionDecl.listing, FunctionDecl.listing, Token.map_lexeme_eq hR hparams,
      Stmt.listings_eq_of_alike hR body _ hbody]
  | .mk (some _) _ body, _, .mk (.some hname) hparams hbody => by
    rw [FunctionDecl.listing, FunctionDecl.listing, Token.map_lexeme_eq hR hparams,
      Stmt.listings_eq_of_alike hR body _ hbody, Option.map_some, Option.map_some, hR.lexeme hname]

end

/-- So are alike programs. -/
theorem Stmt.programListing_eq_of_alike (hR : Relabels R) {ss ss' : List Stmt}
    (h : Stmt.AllAlike R ss ss') :
    Stmt.programListing ss' = Stmt.programListing ss := by
  have lines : ss'.map (fun s => s.listing ++ "\n") = ss.map fun s => s.listing ++ "\n" := by
    induction h with
    | nil => rfl
    | cons hs _ ih => rw [List.map_cons, List.map_cons, Stmt.listing_eq_of_alike hR _ _ hs, ih]
  rw [Stmt.programListing, Stmt.programListing, lines]

end

end Lox
