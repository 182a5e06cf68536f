import Mathlib.Data.List.TakeWhile
import Lox.Proofs.Grammar.Completeness
import Lox.Proofs.Grammar.Uniformity

/-!
# A program before other tokens

Tokens that are a program without errors are parsed into the same statements whatever
follows them, and what follows is parsed as if it stood alone, the errors in it
included. Only an `else` right after them may belong to them.
-/

namespace Lox.Grammar

section

variable {ts us : List Token} (hts : ∀ t ∈ ts, t.kind ≠ .eof)
include hts

/-- A parse starts with all tokens ahead, an end that is one, no errors and no open bodies. -/
theorem State.ofTokens_eq_self :
    State.ofTokens ts = ⟨ts, (State.ofTokens ts).eof, #[], 0, 0⟩ ∧
      (State.ofTokens ts).eof.kind = .eof := by
  have taken : ts.takeWhile (·.kind ≠ .eof) = ts :=
    List.takeWhile_eq_self_iff.mpr fun t ht => by simpa using hts t ht
  have found : ts.find? (·.kind = .eof) = none :=
    List.find?_eq_none.mpr fun t ht => by simpa using hts t ht
  simp only [State.ofTokens, taken, found, Option.getD_none, Token.plain, and_self]

/-- Tokens before others are ahead of them at the start. The input ends where it does without them,
if there is anything after them. -/
theorem State.ofTokens_append_of_ne_nil (hus : us ≠ []) :
    State.ofTokens (ts ++ us) =
      { State.ofTokens us with rest := ts ++ (State.ofTokens us).rest } := by
  have taken : (ts ++ us).takeWhile (·.kind ≠ .eof) = ts ++ us.takeWhile (·.kind ≠ .eof) :=
    List.takeWhile_append_of_pos fun t ht => by simpa using hts t ht
  have found : (ts ++ us).find? (·.kind = .eof) = us.find? (·.kind = .eof) := by
    rw [List.find?_append, List.find?_eq_none.mpr fun t ht => by simpa using hts t ht,
      Option.none_or]
  have last : (ts ++ us).getLast? = us.getLast? := by
    rw [List.getLast?_append, List.getLast?_eq_some_getLast hus, Option.some_or]
  simp only [State.ofTokens, taken, found, last]

/-- The end of the input need not be among tokens that are derived. -/
theorem derives_of_parse_tokens (clean : (parse ts).errors = []) :
    DerivesDecls .top ts (parse ts).statements [] := by
  obtain ⟨start, heof⟩ := State.ofTokens_eq_self hts
  have same : parse (ts ++ [(State.ofTokens ts).eof]) = parse ts := by
    simp only [parse, State.ofTokens_append hts heof, ← start]
  rw [← same] at clean ⊢
  exact derives_of_parse hts heof clean

end

theorem State.alike_refl (s : State) : s.Alike Eq Eq s :=
  ⟨List.forall₂_refl _, rfl, List.forall₂_refl _, rfl, rfl⟩

/-- States that are alike under equality are equal. -/
theorem State.eq_of_alike {s s' : State} (h : s.Alike Eq Eq s') : s = s' := by
  obtain ⟨hrest, heof, herrors, hloops, hfunctions⟩ := h
  rw [List.forall₂_eq_eq_eq] at hrest herrors
  cases s
  cases s'
  simp_all only [Array.toList_inj]

/-- A repetition that goes on after some statements finds after them what one finds that starts with
none, even if it has more left of the bounds on nesting and on repeating. -/
theorem repeatStep_declarations {depth depth' : Nat} (hdepth : depth ≤ depth')
    (before : List Stmt) {bound : List Token} {s t : State} (hbound : s.rest.length ≤ bound.length)
    {body : List Stmt}
    (read : declarations (.within depth) (·.rest.isEmpty) s = .ok body t) :
    repeatStep (declarationStep (.within depth') (·.rest.isEmpty)) bound before.toArray s =
      .ok (before ++ body).toArray t := by
  have nested := Inner.isUniform_within relates_eq hdepth
  have step := uniform_declarationStep relates_eq nested (fun s s' hs => hs.isEmpty) before
  have start : FoundAfter Eq before #[] before.toArray := ⟨[], by simp, .nil⟩
  have ends := Uniform.repeatStep step hbound start s s s.alike_refl
  simp only [declarations, iterate, Bind.bind, EStateM.bind] at read
  generalize repeatStep (declarationStep (.within depth) (·.rest.isEmpty)) s.rest #[] s = r
    at read ends
  generalize repeatStep (declarationStep (.within depth') (·.rest.isEmpty)) bound before.toArray s =
    r' at ends ⊢
  cases ends with
  | @ok found found' u u' hfound hu =>
    obtain ⟨rest, hrest, hlike⟩ := hfound
    obtain ⟨rfl, rfl⟩ : found.toList = body ∧ u = t := by
      simpa only [Pure.pure, EStateM.pure, EStateM.Result.ok.injEq] using read
    rw [State.eq_of_alike hu, Stmt.eq_of_allAlike _ _ hlike, ← hrest, Array.toArray_toList]
  | unexpected | tooDeep => contradiction

/-- The bound on nesting grows with the number of tokens. -/
theorem depthBound_mono {m n : Nat} (h : m ≤ n) : depthBound m ≤ depthBound n := by
  unfold depthBound
  omega

/-- The declarations in tokens without errors are read before those in any tokens after them. -/
theorem steps_ofTokens_append {ts us : List Token} (hts : ∀ t ∈ ts, t.kind ≠ .eof)
    (clean : (parse ts).errors = []) (hus : ∀ t ∈ us.head?, t.kind ≠ .elseWord) (hne : us ≠ [])
    {n : Nat} (hn : ts.length ≤ n) :
    Steps (declarationStep (.within (depthBound n)) (·.rest.isEmpty)) #[]
      (State.ofTokens (ts ++ us)) (parse ts).statements.toArray (State.ofTokens us) := by
  have start := State.ofTokens_append_of_ne_nil hts hne
  have follows : ∀ t ∈ (State.ofTokens us).rest.head?, t.kind ≠ .elseWord := by
    intro t ht
    rw [State.ofTokens, List.head?_takeWhile] at ht
    exact hus t (Option.mem_filter_iff.mp ht).1
  have going (s : State) (hs : Ahead declarationStarts s.rest) : s.rest.isEmpty = false :=
    Bool.eq_false_iff.mpr fun he => hs.ne_nil (List.isEmpty_iff.mp he)
  have enough : 2 * n + 1 ≤ depthBound n := Nat.le_succ _
  have steps := steps_declarations (Inner.complete_within (depthBound n)) enough going
    (s := State.ofTokens (ts ++ us)) (derives_of_parse_tokens hts clean) hn (by rw [start])
    follows #[]
  have arrived : (State.ofTokens (ts ++ us)).after (State.ofTokens us).rest [] =
      State.ofTokens us := by
    rw [start]
    rfl
  rwa [arrived, Array.empty_append] at steps

/-- Without tokens there is nothing to parse. -/
theorem parse_nil : parse [] = ⟨[], []⟩ := by
  simp [parse, State.ofTokens, declarations, iterate, repeatStep, declarationStep_apply, Bind.bind,
    EStateM.bind, Pure.pure, EStateM.pure]

/-- Tokens that are parsed without an error are parsed into the same statements before any other
tokens, right or wrong, that do not start with `else`; and those are parsed as if they stood alone:
their statements follow, and their errors are the only ones. -/
theorem parse_append {ts us : List Token} (hts : ∀ t ∈ ts, t.kind ≠ .eof)
    (clean : (parse ts).errors = []) (hus : ∀ t ∈ us.head?, t.kind ≠ .elseWord) :
    parse (ts ++ us) =
      ⟨(parse ts).statements ++ (parse us).statements, (parse us).errors⟩ := by
  rcases eq_or_ne us [] with rfl | hne
  · rw [List.append_nil, parse_nil, List.append_nil, ← clean]
  have hlength : (State.ofTokens (ts ++ us)).rest.length =
      ts.length + (State.ofTokens us).rest.length := by
    rw [State.ofTokens_append_of_ne_nil hts hne, List.length_append]
  have steps := steps_ofTokens_append hts clean hus hne (Nat.le.intro hlength.symm)
  obtain ⟨bound, hbound, heq⟩ := steps.repeatStep_eq _ (Nat.le_refl _)
  -- The bounds are larger than for `us` alone, which never gives up for its own.
  obtain ⟨body, t, read, -⟩ := declarations_ok (Nat.le_refl (State.ofTokens us).rest.length)
  have deeper : depthBound (State.ofTokens us).rest.length ≤
      depthBound (State.ofTokens (ts ++ us)).rest.length :=
    depthBound_mono (hlength ▸ Nat.le_add_left _ _)
  rw [repeatStep_declarations deeper _ hbound read] at heq
  simp only [parse, declarations, iterate, Bind.bind, EStateM.bind, heq, Pure.pure,
    EStateM.pure] at read ⊢
  rw [read]

/-- A choice without `else` at the end, before tokens that break off in a function. -/
theorem parse_append_choice :
    let ts := (Source.scan "var a = 1; if (a) print(a);").tokens.dropLast
    let us := (Source.scan "a + ; fun f() \x7b return a; \x7d fun").tokens
    (∀ t ∈ ts, t.kind ≠ .eof) ∧ (parse ts).errors = [] ∧
      (∀ t ∈ us.head?, t.kind ≠ .elseWord) ∧ (parse us).errors ≠ [] ∧
      parse (ts ++ us) =
        ⟨(parse ts).statements ++ (parse us).statements, (parse us).errors⟩ := by
  intro ts us
  have hts : ∀ t ∈ ts, t.kind ≠ .eof := by decide +kernel
  have clean : (parse ts).errors = [] := List.isEmpty_iff.mp (by decide +kernel)
  have hus : ∀ t ∈ us.head?, t.kind ≠ .elseWord := by decide +kernel
  have wrong : (parse us).errors ≠ [] := mt List.isEmpty_iff.mpr (by decide +kernel)
  exact ⟨hts, clean, hus, wrong, parse_append hts clean hus⟩

end Lox.Grammar
