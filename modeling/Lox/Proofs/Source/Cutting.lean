import Lox.Source.Scan

/-!
# Cutting a text at a line break

A line break belongs to no lexeme but a string. So where every string is closed, a text
ends at a line break as it would end on its own: the lexemes before the line break do
not depend on what follows, nor those after it on what came before, except for their
lines.
-/

namespace Lox.Source

section

variable {rest : List Char}

/-- A run of characters ends at one that does not belong to it, whatever follows. -/
theorem takeWhile_append_cons {p : Char → Bool} {d : Char} (hd : p d = false) (xs ys : List Char) :
    (xs ++ d :: ys).takeWhile p = xs.takeWhile p := by
  rw [List.takeWhile_append]
  split
  · next hall =>
    have whole : xs.takeWhile p = xs := (List.takeWhile_prefix p).eq_of_length hall
    rw [List.takeWhile_cons_of_neg (by simp [hd]), List.append_nil, whole]
  · rfl

/-- A character is found as soon as it occurs, whatever follows. -/
theorem takeWhile_append_of_lt {p : Char → Bool} {xs : List Char}
    (h : (xs.takeWhile p).length < xs.length) (ys : List Char) :
    (xs ++ ys).takeWhile p = xs.takeWhile p := by
  rw [List.takeWhile_append, if_neg (Nat.ne_of_lt h)]

theorem length_takeWhile_le (p : Char → Bool) (xs : List Char) :
    (xs.takeWhile p).length ≤ xs.length := (List.takeWhile_prefix p).length_le

/-- A number is no longer than what follows its first digit. -/
theorem numberLength_le (rest : List Char) : numberLength rest ≤ rest.length := by
  have hwhole := length_takeWhile_le isDigit rest
  simp only [numberLength]
  split
  · next after hdrop =>
    have hlength := congrArg List.length hdrop
    rw [List.length_drop, List.length_cons] at hlength
    have hafter := length_takeWhile_le isDigit after
    split <;> omega
  · exact hwhole

/-- A line break ends a number. -/
theorem numberLength_append (rest ys : List Char) :
    numberLength (rest ++ '\n' :: ys) = numberLength rest := by
  have hdigit : isDigit '\n' = false := by decide
  have hwhole := length_takeWhile_le isDigit rest
  simp only [numberLength, takeWhile_append_cons hdigit, List.drop_append_of_le_length hwhole]
  generalize (rest.takeWhile isDigit).length = whole
  cases hdrop : rest.drop whole with
  | nil => rfl
  | cons d after =>
    by_cases hpoint : d = '.'
    · subst hpoint
      simp only [List.cons_append, takeWhile_append_cons hdigit]
    · simp only [List.cons_append]
      split
      · next h => exact absurd (List.cons.inj h).1 hpoint
      · split
        · next h => exact absurd (List.cons.inj h).1 hpoint
        · rfl

/-- A lexeme lies within its text. -/
theorem length_lexemeAt_le (c : Char) (rest : List Char) :
    (lexemeAt c rest).2 ≤ rest.length := by
  unfold lexemeAt
  split
  · exact numberLength_le rest
  · split
    · simp only [stringAt]
      split
      · assumption
      · exact length_takeWhile_le _ rest
    · split
      · exact length_takeWhile_le _ rest
      · unfold operatorAt
        split
        · next kind hkind =>
          cases rest with
          | nil => contradiction
          | cons => exact Nat.succ_le_succ (Nat.zero_le _)
        · split <;> exact Nat.zero_le _

theorem isWordPart_lineBreak : isWordPart '\n' = false := by decide +kernel

/-- No operator ends in a line break. -/
theorem doubleOperator?_lineBreak (c : Char) : doubleOperator? c '\n' = none := by
  unfold doubleOperator?
  split <;> simp_all

/-- What a lexeme is does not depend on what follows the next line break, unless a string is
left open there. -/
theorem lexemeAt_append {c : Char} (closed : (lexemeAt c rest).1 ≠ .openString) (ys : List Char) :
    lexemeAt c (rest ++ '\n' :: ys) = lexemeAt c rest := by
  unfold lexemeAt at closed ⊢
  by_cases hdigit : isDigit c
  · rw [if_pos hdigit, if_pos hdigit, numberLength_append]
  rw [if_neg hdigit, if_neg hdigit]
  rw [if_neg hdigit] at closed
  by_cases hquote : c = '"'
  · rw [if_pos hquote] at closed
    rw [if_pos hquote, if_pos hquote]
    simp only [stringAt] at closed ⊢
    by_cases hends : (rest.takeWhile (· ≠ '"')).length < rest.length
    · have hlength : rest.length ≤ (rest ++ '\n' :: ys).length := by simp
      simp only [takeWhile_append_of_lt hends, if_pos hends,
        if_pos (Nat.lt_of_lt_of_le hends hlength)]
    · simp only [if_neg hends, ne_eq, not_true_eq_false] at closed
  rw [if_neg hquote, if_neg hquote]
  by_cases hword : isWordStart c
  · rw [if_pos hword, if_pos hword]
    simp only [wordAt, takeWhile_append_cons isWordPart_lineBreak]
  rw [if_neg hword, if_neg hword]
  cases rest with
  | nil => simp [operatorAt, doubleOperator?_lineBreak]
  | cons => rfl

/-- A gap ends before the next line break or goes on after it. -/
theorem skipGap_append (comment : Bool) (line : Nat) (text ys : List Char) :
    skipGap comment line (text ++ '\n' :: ys) =
      match skipGap comment line text with
      | ⟨last, []⟩ => skipGap false (last + 1) ys
      | ⟨next, c :: rest⟩ => ⟨next, c :: (rest ++ '\n' :: ys)⟩ := by
  induction text generalizing comment line with
  | nil => rfl
  | cons c text ih =>
    have hslash : (text ++ '\n' :: ys).head? = some '/' ↔ text.head? = some '/' := by
      cases text <;> simp
    simp only [List.cons_append, skipGap, hslash]
    by_cases hbreak : c = '\n'
    · rw [if_pos hbreak, if_pos hbreak, ih]
    rw [if_neg hbreak, if_neg hbreak]
    by_cases hblank : (comment || isBlank c) = true
    · rw [if_pos hblank, if_pos hblank, ih]
    rw [if_neg hblank, if_neg hblank]
    by_cases hcomment : c = '/' ∧ text.head? = some '/'
    · rw [if_pos hcomment, if_pos hcomment, ih]
    · rw [if_neg hcomment, if_neg hcomment]

end

/-- What is cut off before the next line break does not depend on what follows it. -/
theorem cut_append {c : Char} {rest : List Char} (line : Nat)
    (closed : (cut line c rest).1.form ≠ .openString) (ys : List Char) :
    cut line c (rest ++ '\n' :: ys) =
      ((cut line c rest).1,
        ⟨(cut line c rest).2.line, (cut line c rest).2.rest ++ '\n' :: ys⟩) := by
  have hlength := length_lexemeAt_le c rest
  simp only [cut, lexemeAt_append closed, List.take_append_of_le_length hlength,
    List.drop_append_of_le_length hlength]

/-- The same lexeme on a later line. -/
def Lexeme.later (lines : Nat) (x : Lexeme) : Lexeme := { x with line := x.line + lines }

/-- A gap is as long on any line. -/
theorem skipGap_later (comment : Bool) (line lines : Nat) (text : List Char) :
    skipGap comment (line + lines) text =
      ⟨(skipGap comment line text).line + lines, (skipGap comment line text).rest⟩ := by
  induction text generalizing comment line with
  | nil => rfl
  | cons c text ih =>
    unfold skipGap
    by_cases hbreak : c = '\n'
    · rw [if_pos hbreak, if_pos hbreak, Nat.add_right_comm, ih]
    rw [if_neg hbreak, if_neg hbreak]
    by_cases hblank : (comment || isBlank c) = true
    · rw [if_pos hblank, if_pos hblank, ih]
    rw [if_neg hblank, if_neg hblank]
    by_cases hcomment : c = '/' ∧ text.head? = some '/'
    · rw [if_pos hcomment, if_pos hcomment, ih]
    · rw [if_neg hcomment, if_neg hcomment]

/-- A gap counts the line breaks that it passes. -/
theorem skipGap_count (comment : Bool) (line : Nat) (text : List Char) :
    (skipGap comment line text).line + (skipGap comment line text).rest.count '\n' =
      line + text.count '\n' := by
  induction text generalizing comment line with
  | nil => rfl
  | cons c text ih =>
    unfold skipGap
    by_cases hbreak : c = '\n'
    · rw [if_pos hbreak, ih, hbreak, List.count_cons_self]
      omega
    rw [if_neg hbreak]
    have hcount : (c :: text).count '\n' = text.count '\n' := List.count_cons_of_ne hbreak
    by_cases hblank : (comment || isBlank c) = true
    · rw [if_pos hblank, ih, hcount]
    rw [if_neg hblank]
    by_cases hcomment : c = '/' ∧ text.head? = some '/'
    · rw [if_pos hcomment, ih, hcount]
    · rw [if_neg hcomment]

/-- To skip a gap never goes back a line. -/
theorem le_line_skipGap (comment : Bool) (line : Nat) (text : List Char) :
    line ≤ (skipGap comment line text).line := by
  induction text generalizing comment line with
  | nil => exact Nat.le_refl _
  | cons c text ih =>
    unfold skipGap
    split
    · exact Nat.le_of_succ_le (ih ..)
    · split
      · exact ih ..
      · split
        · exact ih ..
        · exact Nat.le_refl _

/-- A lexeme counts the line breaks in it. -/
theorem cut_count (line : Nat) (c : Char) (rest : List Char) :
    (cut line c rest).2.line + (cut line c rest).2.rest.count '\n' =
      line + (c :: rest).count '\n' := by
  have hsplit :
      c :: rest = c :: rest.take (lexemeAt c rest).2 ++ rest.drop (lexemeAt c rest).2 := by
    rw [List.cons_append, List.take_append_drop]
  rw [hsplit, List.count_append, ← Nat.add_assoc]
  rfl

/-- The text from a line on is cut into lexemes, and ends on a line. -/
inductive Cuts : Nat → List Char → List Lexeme → Nat → Prop where
  | done : skipGap false line text = ⟨last, []⟩ → Cuts line text [] last
  | more : skipGap false line text = ⟨next, c :: rest⟩ →
      Cuts (cut next c rest).2.line (cut next c rest).2.rest xs last →
      Cuts line text ((cut next c rest).1 :: xs) last

namespace Cuts

variable {line last : Nat} {text : List Char} {xs : List Lexeme}

/-- Every text is cut into lexemes. -/
theorem exists_cuts (line : Nat) (text : List Char) : ∃ xs last, Cuts line text xs last := by
  induction hn : text.length using Nat.strongRecOn generalizing line text with
  | ind n ih =>
    rcases hgap : skipGap false line text with ⟨next, _ | ⟨c, rest⟩⟩
    · exact ⟨[], next, .done hgap⟩
    · have hlength := length_rest_skipGap_le false line text
      rw [hgap] at hlength
      have hshorter : (cut next c rest).2.rest.length < n :=
        hn ▸ Nat.lt_of_le_of_lt (length_rest_cut_le next c rest) (Nat.lt_of_succ_le hlength)
      obtain ⟨xs, last, h⟩ := ih _ hshorter (cut next c rest).2.line _ rfl
      exact ⟨_, last, .more hgap h⟩

/-- The scanner cuts a text that way. -/
theorem lexemesFrom_eq (h : Cuts line text xs last) (found : Array Lexeme) :
    lexemesFrom found ⟨line, text⟩ = (found ++ xs.toArray, last) := by
  induction h generalizing found with
  | done hgap =>
    rw [lexemesFrom]
    split
    · next hgap' =>
      cases hgap.symm.trans hgap'
      rw [Array.append_empty]
    · next hgap' => cases hgap.symm.trans hgap'
  | more hgap _ ih =>
    rw [lexemesFrom]
    split
    · next hgap' => cases hgap.symm.trans hgap'
    · next hgap' =>
      cases hgap.symm.trans hgap'
      rw [ih, Array.push_eq_append, Array.append_assoc, ← List.toArray_cons]

/-- Texts in which every string is closed can be joined by a line break. -/
theorem join {mid : Nat} {text' : List Char} {xs' : List Lexeme} (h : Cuts line text xs mid)
    (closed : ∀ x ∈ xs, x.form ≠ .openString) (h' : Cuts (mid + 1) text' xs' last) :
    Cuts line (text ++ '\n' :: text') (xs ++ xs') last := by
  induction h with
  | done hgap =>
    -- The last gap of the first text goes on into the first gap of the second.
    have hjoined := skipGap_append false _ _ text' |>.trans (by rw [hgap])
    cases h' with
    | done hgap' => exact .done (hjoined.trans hgap')
    | more hgap' h' => exact .more (hjoined.trans hgap') h'
  | @more line text next c rest xs mid hgap _ ih =>
    obtain ⟨hfirst, hrest⟩ := List.forall_mem_cons.mp closed
    have hcut := cut_append next hfirst text'
    have hjoined := skipGap_append false line text text' |>.trans (by rw [hgap])
    have hmore := ih hrest h'
    have hsame : (cut next c (rest ++ '\n' :: text')).1 = (cut next c rest).1 := by rw [hcut]
    rw [List.cons_append, ← hsame]
    exact .more hjoined (by rw [hcut]; exact hmore)

/-- The same text further down is cut into the same lexemes. -/
theorem later (h : Cuts line text xs last) (lines : Nat) :
    Cuts (line + lines) text (xs.map (·.later lines)) (last + lines) := by
  induction h with
  | done hgap => exact .done (by rw [skipGap_later, hgap])
  | @more line text next c rest xs last hgap _ ih =>
    have hcut : cut (next + lines) c rest =
        ((cut next c rest).1.later lines,
          ⟨(cut next c rest).2.line + lines, (cut next c rest).2.rest⟩) := by
      simp only [cut, Lexeme.later, Nat.add_right_comm]
    have hsame : (cut (next + lines) c rest).1 = (cut next c rest).1.later lines := by rw [hcut]
    rw [List.map_cons, ← hsame]
    exact .more (by rw [skipGap_later, hgap]) (by rw [hcut]; exact ih)

/-- A text ends as many lines further down as it has line breaks. -/
theorem last_eq (h : Cuts line text xs last) : last = line + text.count '\n' := by
  induction h with
  | @done line text last hgap => simpa [hgap] using skipGap_count false line text
  | @more line text next c rest xs last hgap _ ih =>
    have hcount := skipGap_count false line text
    rw [hgap] at hcount
    rw [ih, cut_count, hcount]

/-- The lexemes of a text are on its lines. -/
theorem line_mem (h : Cuts line text xs last) : ∀ x ∈ xs, line ≤ x.line ∧ x.line ≤ last := by
  induction h with
  | done => exact fun x hx => nomatch hx
  | @more line text next c rest xs last hgap h ih =>
    have hstart : line ≤ next := by simpa [hgap] using le_line_skipGap false line text
    have hafter : next ≤ (cut next c rest).1.line := Nat.le_add_right ..
    have hlast : (cut next c rest).1.line ≤ last := h.last_eq ▸ Nat.le_add_right ..
    intro x hx
    rcases List.mem_cons.mp hx with rfl | hx
    · exact ⟨Nat.le_trans hstart hafter, hlast⟩
    · obtain ⟨hle, hge⟩ := ih x hx
      exact ⟨Nat.le_trans hstart (Nat.le_trans hafter hle), hge⟩

/-- What holds of whatever is cut off holds of all lexemes. -/
theorem forall_mem {P : Lexeme → Prop} (hP : ∀ line c rest, P (cut line c rest).1)
    (h : Cuts line text xs last) : ∀ x ∈ xs, P x := by
  induction h with
  | done => exact fun x hx => nomatch hx
  | more _ _ ih => exact List.forall_mem_cons.mpr ⟨hP _ _ _, ih⟩

end Cuts

end Lox.Source
