import Lox.Text.CodeRange

/-!
# Parenthesized expressions

Atoms, quoted texts and lists of them, which is what programs are written as. An atom ends
at a blank or a parenthesis, a quoted text at its closing quote and a list at its closing
parenthesis, so what is written can be read in one way only, whatever follows it.
-/

namespace Lox

inductive SExpr where
  | atom (text : List Char)
  | quoted (text : List Char)
  | list (parts : List SExpr)

namespace SExpr

mutual

def write : SExpr → List Char
  | .atom text => text
  | .quoted text => '"' :: (text ++ ['"'])
  | .list [] => ['(', ')']
  | .list (first :: rest) => '(' :: (first.write ++ writeRest rest)

/-- What follows in a list that has been written in part. -/
def writeRest : List SExpr → List Char
  | [] => [')']
  | e :: rest => ' ' :: (e.write ++ writeRest rest)

end

/-- The characters that are not part of an atom. -/
def delimiters : List Char := [' ', '\n', '(', ')', '"']

/-- Whether a text can stand as an atom. -/
def IsAtom (text : List Char) : Prop := text ≠ [] ∧ ∀ c ∈ text, c ∉ delimiters

instance (text : List Char) : Decidable (IsAtom text) :=
  decidable_of_iff (text ≠ [] ∧ text.all (· ∉ delimiters)) (by simp [IsAtom])

mutual

/-- Whether atoms are separate from what surrounds them, and quoted texts are. -/
def Fits : SExpr → Prop
  | .atom text => IsAtom text
  | .quoted text => '"' ∉ text
  | .list parts => AllFit parts

def AllFit : List SExpr → Prop
  | [] => True
  | e :: rest => e.Fits ∧ AllFit rest

end

/-- Whether no atom goes on into a text. -/
def Ends (text : List Char) : Prop := ∀ c ∈ text.head?, c ∈ delimiters

/-- What is written of the rest of a list ends the word before it. -/
theorem ends_writeRest (rest : List SExpr) (text : List Char) : Ends (writeRest rest ++ text) := by
  cases rest <;> rintro c ⟨⟩ <;> decide

/-- A run of characters ends at the first one that is not of its kind. -/
theorem run_injective {ends text text' rest rest' : List Char} (ht : ∀ c ∈ text, c ∉ ends)
    (ht' : ∀ c ∈ text', c ∉ ends) (hr : ∀ c ∈ rest.head?, c ∈ ends)
    (hr' : ∀ c ∈ rest'.head?, c ∈ ends) (h : text ++ rest = text' ++ rest') :
    text = text' ∧ rest = rest' := by
  induction text generalizing text' with
  | nil =>
    cases text' with
    | nil => exact ⟨rfl, h⟩
    | cons c text' =>
      obtain rfl : rest = c :: (text' ++ rest') := h
      exact absurd (hr c rfl) (ht' c List.mem_cons_self)
  | cons c text ih =>
    cases text' with
    | nil =>
      obtain rfl : c :: (text ++ rest) = rest' := h
      exact absurd (hr' c rfl) (ht c List.mem_cons_self)
    | cons d text' =>
      rw [List.forall_mem_cons] at ht ht'
      rw [List.cons_append, List.cons_append, List.cons.injEq] at h
      obtain ⟨rfl, hrest⟩ := ih ht.2 ht'.2 h.2
      exact ⟨congrArg (· :: text) h.1, hrest⟩

/-- The sorts of expressions, which differ in the character that they start with. -/
inductive StartsWith : SExpr → Char → Prop where
  | atom : c ∉ delimiters → StartsWith (.atom (c :: text)) c
  | quoted : StartsWith (.quoted text) '"'
  | list : StartsWith (.list parts) '('

/-- What fits is written from its first character on. -/
theorem Fits.startsWith {e : SExpr} (h : e.Fits) : ∃ c text, e.write = c :: text ∧
    e.StartsWith c := by
  cases e with
  | atom text =>
    obtain ⟨c, text, rfl⟩ := List.exists_cons_of_ne_nil h.1
    exact ⟨c, text, rfl, .atom (h.2 c List.mem_cons_self)⟩
  | quoted text => exact ⟨'"', _, rfl, .quoted⟩
  | list parts => cases parts <;> exact ⟨'(', _, rfl, .list⟩

/-- What starts with the same character is of the same sort. -/
theorem exists_startsWith {e e' : SExpr} {rest rest' : List Char} (he : e.Fits) (he' : e'.Fits)
    (h : e.write ++ rest = e'.write ++ rest') : ∃ c, e.StartsWith c ∧ e'.StartsWith c := by
  obtain ⟨c, text, htext, hc⟩ := he.startsWith
  obtain ⟨c', text', htext', hc'⟩ := he'.startsWith
  rw [htext, htext'] at h
  obtain rfl : c = c' := (List.cons.inj h).1
  exact ⟨c, hc, hc'⟩

/-- No expression starts as a list ends. -/
theorem write_ne_closing {e : SExpr} {rest rest' : List Char} (he : e.Fits) :
    e.write ++ rest ≠ ')' :: rest' := by
  obtain ⟨c, text, htext, hc⟩ := he.startsWith
  rw [htext]
  rintro ⟨⟩
  generalize hclosing : ')' = d at hc
  cases hc with
  | atom hd => exact hd (hclosing ▸ by decide)
  | quoted => contradiction
  | list => contradiction

mutual

/-- What is written can be read in one way only, and so can what follows it. -/
theorem write_injective : ∀ (e e' : SExpr) {rest rest' : List Char}, e.Fits → e'.Fits →
    Ends rest → Ends rest' → e.write ++ rest = e'.write ++ rest' → e = e' ∧ rest = rest'
  | .atom text, e', rest, rest', he, he', hr, hr', h => by
    obtain ⟨c, hc, hc'⟩ := exists_startsWith he he' h
    cases hc' with
    | atom =>
      obtain ⟨rfl, hrest⟩ := run_injective he.2 he'.2 hr hr' h
      exact ⟨rfl, hrest⟩
    | quoted =>
      cases hc with
      | atom hd => exact absurd (by decide) hd
    | list =>
      cases hc with
      | atom hd => exact absurd (by decide) hd
  | .quoted text, e', rest, rest', he, he', hr, hr', h => by
    obtain ⟨c, hc, hc'⟩ := exists_startsWith he he' h
    cases hc with
    | quoted =>
      cases hc' with
      | atom hd => exact absurd (by decide) hd
      | @quoted text' =>
        have hquote {text : List Char} (ht : '"' ∉ text) : ∀ c ∈ text, c ∉ ['"'] :=
          fun c hc hd => ht (List.mem_singleton.mp hd ▸ hc)
        have hends {rest : List Char} : ∀ c ∈ ('"' :: rest).head?, c ∈ ['"'] := by
          rintro c ⟨⟩
          exact List.mem_singleton_self _
        simp only [write, List.cons_append, List.append_assoc, List.nil_append, List.cons.injEq,
          true_and] at h
        obtain ⟨rfl, hrest⟩ := run_injective (hquote he) (hquote he') hends hends h
        exact ⟨rfl, (List.cons.inj hrest).2⟩
  | .list parts, e', rest, rest', he, he', hr, hr', h => by
    obtain ⟨c, hc, hc'⟩ := exists_startsWith he he' h
    cases hc with
    | list =>
      cases hc' with
      | atom hd => exact absurd (by decide) hd
      | @list parts' =>
        obtain ⟨rfl, hrest⟩ := writeList_injective parts parts' he he' h
        exact ⟨rfl, hrest⟩

/-- Lists that are written in the same way have the same parts. -/
theorem writeList_injective : ∀ (parts parts' : List SExpr) {rest rest' : List Char},
    AllFit parts → AllFit parts' → (list parts).write ++ rest = (list parts').write ++ rest' →
    parts = parts' ∧ rest = rest'
  | [], [], rest, rest', _, _, h => ⟨rfl, (List.cons.inj (List.cons.inj h).2).2⟩
  | [], e :: parts, rest, rest', _, he', h => by
    simp only [write, List.cons_append, List.append_assoc] at h
    exact absurd (List.cons.inj h).2.symm (write_ne_closing he'.1)
  | e :: parts, [], rest, rest', he, _, h => by
    simp only [write, List.cons_append, List.append_assoc] at h
    exact absurd (List.cons.inj h).2 (write_ne_closing he.1)
  | e :: parts, e' :: parts', rest, rest', he, he', h => by
    rw [write, write, List.cons_append, List.cons_append, List.append_assoc,
      List.append_assoc] at h
    obtain ⟨rfl, hrest⟩ := write_injective e e' he.1 he'.1 (ends_writeRest _ _)
      (ends_writeRest _ _) (List.cons.inj h).2
    obtain ⟨rfl, hafter⟩ := writeRest_injective parts parts' he.2 he'.2 hrest
    exact ⟨rfl, hafter⟩

theorem writeRest_injective : ∀ (parts parts' : List SExpr) {rest rest' : List Char},
    AllFit parts → AllFit parts' → writeRest parts ++ rest = writeRest parts' ++ rest' →
    parts = parts' ∧ rest = rest'
  | [], [], rest, rest', _, _, h => ⟨rfl, (List.cons.inj h).2⟩
  | [], _ :: _, rest, rest', _, _, h => absurd (List.cons.inj h).1 (by decide)
  | _ :: _, [], rest, rest', _, _, h => absurd (List.cons.inj h).1 (by decide)
  | e :: parts, e' :: parts', rest, rest', he, he', h => by
    rw [writeRest, writeRest, List.cons_append, List.cons_append, List.append_assoc,
      List.append_assoc] at h
    obtain ⟨rfl, hrest⟩ := write_injective e e' he.1 he'.1 (ends_writeRest _ _)
      (ends_writeRest _ _) (List.cons.inj h).2
    obtain ⟨rfl, hafter⟩ := writeRest_injective parts parts' he.2 he'.2 hrest
    exact ⟨rfl, hafter⟩

end

/-- Expressions on lines of their own can be told from their text. -/
theorem lines_injective {es es' : List SExpr} (he : AllFit es) (he' : AllFit es')
    (h : es.flatMap (fun e => e.write ++ ['\n']) = es'.flatMap (fun e => e.write ++ ['\n'])) :
    es = es' := by
  have ends (text : List Char) : Ends ('\n' :: text) := by
    rintro c ⟨⟩
    decide
  induction es generalizing es' with
  | nil =>
    cases es' with
    | nil => rfl
    | cons e es' => simp at h
  | cons e es ih =>
    cases es' with
    | nil => simp at h
    | cons e' es' =>
      simp only [List.flatMap_cons, List.append_assoc, List.singleton_append] at h
      obtain ⟨rfl, hrest⟩ := write_injective e e' he.1 he'.1 (ends _) (ends _) h
      rw [ih he.2 he'.2 (List.cons.inj hrest).2]

end SExpr

end Lox
