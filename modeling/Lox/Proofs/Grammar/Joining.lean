import Lox.Proofs.Grammar.Acceptance
import Lox.Proofs.Grammar.Completeness
import Lox.Proofs.Grammar.Uniformity
import Lox.Proofs.Source.Joining

/-!
# The program in joined texts

Texts without errors, joined by line breaks, are a program without errors: the
statements of all of them, in order, with those of each text moved down by the lines of
the texts before it. However tokens are moved down, one by one, the trees that are read are
alike.
-/

namespace Lox.Grammar

open Source

/-- Declarations can follow declarations. -/
theorem DerivesDecls.append {c : Context} {ts us : List Token} {ss rest : List Stmt}
    {errs errs' : List SyntaxError} :
    DerivesDecls c ts ss errs → DerivesDecls c us rest errs' →
      DerivesDecls c (ts ++ us) (ss ++ rest) (errs ++ errs')
  | .nil, h => h
  | .cons first h, h' => by
    simpa only [List.append_assoc, List.cons_append] using DerivesDecls.cons first (h.append h')

/-- A source text without errors is a program, of all its words. -/
theorem derives_parseSource {source : String} (clean : (parseSource source).errors = []) :
    DerivesDecls .top (words source) (parseSource source).statements [] := by
  simp only [parseSource, parseScan, tokens_eq, List.append_eq_nil_iff] at clean ⊢
  exact derives_of_parse (fun t ht => kind_mem_words ht) rfl clean.2

/-! ### Moving tokens down -/

/-- Tokens moved down, each by the lines that are given for its place among them. -/
def moved (down : Nat → Nat) (tokens : List Token) : List Token :=
  tokens.mapIdx fun j t => t.later (down j)

/-- The program of several texts, with the token at place `j` of the text at place `i` moved down by
`down i j` lines. -/
def movedProgram (down : Nat → Nat → Nat) (texts : List String) : List Stmt :=
  (texts.mapIdx fun i text => (parse (moved (down i) (scan text).tokens)).statements).flatten

/-- The token at place `j` of the text at place `i`. -/
def tokenAt? (texts : List String) (i j : Nat) : Option Token :=
  texts[i]?.bind fun text => (scan text).tokens[j]?

/-- A token of one of several texts, at the two places to which it is moved in two ways. -/
inductive Carries (texts : List String) (down down' : Nat → Nat → Nat) : Token → Token → Prop where
  | mk {t : Token} : tokenAt? texts i j = some t →
      Carries texts down down' (t.later (down i j)) (t.later (down' i j))

/-- A token of one of several texts is on a line that they have. -/
theorem line_tokenAt?_le {texts : List String} {i j : Nat} {t : Token}
    (h : tokenAt? texts i j = some t) : t.line ≤ linesOf texts := by
  obtain ⟨text, htext, ht⟩ := Option.bind_eq_some_iff.mp h
  obtain ⟨before, after, rfl⟩ := List.append_of_mem (List.mem_of_getElem? htext)
  have inside := (line_mem_tokens (List.mem_of_getElem? ht)).2
  rw [linesOf_append, linesOf_cons]
  omega

/-- A token that is moved is the same but for its line. -/
theorem relabels_carries (texts : List String) (down down' : Nat → Nat → Nat) :
    Relabels (Carries texts down down') := by
  constructor
  all_goals
    intro t t' h
    cases h
    rfl

/-- What is made of the same things in two ways corresponds, if it does at each place. -/
theorem forall₂_mapIdx {α β γ : Type} {R : β → γ → Prop} {f : Nat → α → β} {g : Nat → α → γ}
    {as : List α} (h : ∀ i a, as[i]? = some a → R (f i a) (g i a)) :
    List.Forall₂ R (as.mapIdx f) (as.mapIdx g) := by
  induction as generalizing f g with
  | nil => exact .nil
  | cons a as ih =>
    rw [List.mapIdx_cons, List.mapIdx_cons]
    exact .cons (h 0 a rfl) (ih fun i b hb => h (i + 1) b hb)

/-- What is made in the same way at each place is made by a map. -/
theorem mapIdx_const {α β : Type} (f : α → β) (as : List α) : (as.mapIdx fun _ => f) = as.map f :=
  List.ext_getElem (by simp) fun i _ _ => by simp

/-- The tokens of a text are moved like its words, and the one that marks the end like it. -/
theorem moved_tokens (down : Nat → Nat) (text : String) :
    moved down (scan text).tokens =
      moved down (words text) ++ [(endOf text).later (down (words text).length)] := by
  rw [tokens_eq, moved, List.mapIdx_concat]
  rfl

/-- No word is moved to the end of the input. -/
theorem kind_mem_moved {down : Nat → Nat} {text : String} {t : Token}
    (ht : t ∈ moved down (words text)) : t.kind ≠ .eof := by
  obtain ⟨j, hj, rfl⟩ := List.mem_mapIdx.mp ht
  have word : (words text)[j].kind ≠ .eof := kind_mem_words (List.getElem_mem hj)
  exact word

/-- However the tokens of texts are moved, the programs are alike. -/
theorem alike_movedProgram (down down' : Nat → Nat → Nat) (texts : List String) :
    Stmt.AllAlike (Carries texts down down') (movedProgram down texts)
      (movedProgram down' texts) := by
  refine List.rel_flatten (forall₂_mapIdx fun i text htext => ?_)
  have carried (j : Nat) (t : Token) (ht : (words text)[j]? = some t) :
      Carries texts down down' (t.later (down i j)) (t.later (down' i j)) := by
    refine .mk ?_
    rw [tokenAt?, htext, Option.bind_some, tokens_eq,
      List.getElem?_append_left (List.getElem?_eq_some_iff.mp ht).1, ht]
  have hend : Carries texts down down' ((endOf text).later (down i (words text).length))
      ((endOf text).later (down' i (words text).length)) :=
    .mk (by rw [tokenAt?, htext, Option.bind_some, tokens_eq, List.getElem?_concat_length])
  rw [moved_tokens, moved_tokens]
  exact (parse_alike (relabels_carries texts down down') (forall₂_mapIdx carried) hend
    (fun _ => kind_mem_moved) rfl).1

/-- Where nothing is moved, the program is that of the texts one after another. -/
theorem movedProgram_here (texts : List String) :
    movedProgram (fun _ _ => 0) texts =
      texts.flatMap fun text => (parseSource text).statements := by
  have here (tokens : List Token) : moved (fun _ => 0) tokens = tokens := by
    rw [moved, mapIdx_const]
    exact List.map_id tokens
  simp only [movedProgram, here, mapIdx_const]
  rfl

/-! ### Joining texts -/

/-- A text without errors is derived also where it has been moved as a whole. -/
theorem derives_moved {text : String} (clean : (parseSource text).errors = []) (lines : Nat) :
    DerivesDecls .top ((words text).map (·.later lines))
      (parse (moved (fun _ => lines) (scan text).tokens)).statements [] := by
  have relabels : Relabels fun t t' : Token => t' = t.later lines := by
    constructor <;> (intro t t' h; rw [h]; rfl)
  have hmoved : List.Forall₂ (fun t t' : Token => t' = t.later lines) (words text)
      ((words text).map (·.later lines)) :=
    List.forall₂_map_right_iff.mpr (List.forall₂_same.mpr fun _ _ => rfl)
  simp only [parseSource, parseScan, tokens_eq, List.append_eq_nil_iff] at clean
  -- The text is parsed twice: where it is, and where it has been moved to.
  have hend : (endOf text).later lines = (endOf text).later lines := rfl
  obtain ⟨-, herrors⟩ := parse_alike relabels hmoved hend (fun _ => kind_mem_words) rfl
  rw [clean.2, List.forall₂_nil_left_iff] at herrors
  rw [moved_tokens, moved, mapIdx_const]
  refine derives_of_parse (fun t ht => ?_) rfl herrors
  rw [← mapIdx_const] at ht
  exact kind_mem_moved ht

/-- Texts without errors, moved down together and joined, are derived. -/
theorem derives_intercalate {texts : List String} (before : List String)
    (clean : ∀ text ∈ texts, (parseSource text).errors = []) :
    DerivesDecls .top ((words ("\n".intercalate texts)).map (·.later (linesOf before)))
      (movedProgram (fun i _ => linesOf (before ++ texts.take i)) texts) [] := by
  induction texts generalizing before with
  | nil =>
    rw [String.intercalate_nil, scan_empty.1]
    exact .nil
  | cons text texts ih =>
    have hscan : ∀ t ∈ text :: texts, (scan t).errors = [] :=
      fun t ht => (List.append_eq_nil_iff.mp (clean t ht)).1
    obtain ⟨htext, hrest⟩ := List.forall_mem_cons.mp clean
    have first := derives_moved htext (linesOf before)
    have rest := ih (before ++ [text]) hrest
    have htokens : (words ("\n".intercalate (text :: texts))).map (·.later (linesOf before)) =
        (words text).map (·.later (linesOf before)) ++
          (words ("\n".intercalate texts)).map (·.later (linesOf (before ++ [text]))) := by
      rw [words_intercalate_cons hscan, List.map_append, List.map_map, linesOf_append,
        linesOf_singleton]
      simp only [Function.comp_def, Token.later_later, Nat.add_comm (lineBreaks text + 1)]
    have hprogram : movedProgram (fun i _ => linesOf (before ++ (text :: texts).take i))
        (text :: texts) =
          (parse (moved (fun _ => linesOf before) (scan text).tokens)).statements ++
            movedProgram (fun i _ => linesOf (before ++ [text] ++ texts.take i)) texts := by
      simp only [movedProgram, List.mapIdx_cons, List.flatten_cons, List.take_zero,
        List.take_succ_cons, List.append_nil, List.append_assoc, List.singleton_append]
    rw [htokens, hprogram]
    exact first.append rest

/-- The program in joined texts without errors: each token is moved down by the lines of the texts
before its own. -/
theorem parseSource_intercalate {texts : List String}
    (clean : ∀ text ∈ texts, (parseSource text).errors = []) :
    parseSource ("\n".intercalate texts) =
      ⟨movedProgram (fun i _ => linesOf (texts.take i)) texts, []⟩ := by
  have hscan : ∀ text ∈ texts, (scan text).errors = [] :=
    fun text ht => (List.append_eq_nil_iff.mp (clean text ht)).1
  have derived := derives_intercalate [] clean
  simp only [linesOf_nil, Token.later_zero, List.map_id', List.nil_append] at derived
  have hend : (endOf ("\n".intercalate texts)).kind = .eof := rfl
  have hparse := parse_complete (fun t ht => kind_mem_words ht) hend derived
  rw [← tokens_eq] at hparse
  simp only [parseSource, parseScan, hparse, errors_intercalate hscan, List.append_nil]

end Lox.Grammar
