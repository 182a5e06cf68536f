/-!
# How alike two words are

Two words are alike in so far as their characters have partners in the other word, not
far away and in the same order.
-/

namespace Lox.CommandLine

/-- Marks the first place, among those from `first` on and before `bound`, that holds `c` and is not
marked. -/
def markPartner (c : Char) (first bound : Nat) :
    Nat → List (Char × Bool) → Option (List (Char × Bool))
  | _, [] => none
  | index, (d, marked) :: rest =>
    if first ≤ index ∧ index < bound ∧ d = c ∧ marked = false then some ((d, true) :: rest)
    else (markPartner c first bound (index + 1) rest).map ((d, marked) :: ·)

/-- The characters of a word that have a partner in another, given with its marks, no further away
than `range`; and the marks afterwards. -/
def partners (range : Nat) : Nat → List Char → List (Char × Bool) → List Char × List (Char × Bool)
  | _, [], marks => ([], marks)
  | index, c :: rest, marks =>
    match markPartner c (index - range) (index + range + 1) 0 marks with
    | some marks =>
      let (found, marks) := partners range (index + 1) rest marks
      (c :: found, marks)
    | none => partners range (index + 1) rest marks

/-- The similarity of two words, between zero and one: the mean of the shares of characters that
have a partner, in either word, and of the share of partners that keep their order. -/
def similarity (a b : String) : Float :=
  let a := a.toList
  let b := b.toList
  if a.isEmpty && b.isEmpty then 1
  else
    let range := max a.length b.length / 2 - 1
    let (found, marks) := partners range 0 a (b.map (·, false))
    let others := (marks.filter (·.2)).map (·.1)
    let moved := ((found.zip others).filter fun (x, y) => x ≠ y).length / 2
    if found.isEmpty then 0
    else
      let count := Float.ofNat found.length
      (count / Float.ofNat a.length + count / Float.ofNat b.length
        + Float.ofNat (found.length - moved) / count) / 3

/-- Whether a word looks like another misspelt. -/
def resembles (a b : String) : Bool := decide (similarity a b > 0.7)

end Lox.CommandLine
