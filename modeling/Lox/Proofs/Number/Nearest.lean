import Lox.Proofs.Number.Bits

/-!
# The nearest double

What it is for a rational number to round to a double, said by distances alone: no finite
double is nearer, and of two that are as near it is the one with an even significand. The
rounding interval reaches at most half way to the doubles next to its own, so every number in
it rounds to that double, and a printed number with an exponent to the one it was printed for.
-/

namespace Lox.Number

/-! ### Doubles next to each other -/

section

variable {significand shift significand' shift' : Nat}

/-- A multiple of a coarser unit is one of a finer unit as well. -/
theorem mul_two_pow_eq (significand : Nat) (h : shift ≤ shift') :
    significand * 2 ^ shift' = significand * 2 ^ (shift' - shift) * 2 ^ shift := by
  rw [Nat.mul_assoc, ← Nat.pow_add, Nat.sub_add_cancel h]

/-- Multiples of a unit that differ do so by at least one. -/
theorem add_le_of_mul_lt {a b unit : Nat} (h : a * unit < b * unit) :
    a * unit + unit ≤ b * unit := by
  rw [← Nat.succ_mul]
  exact Nat.mul_le_mul_right unit (Nat.lt_of_mul_lt_mul_right h)

namespace IsDouble

theorem zero : IsDouble 0 0 := ⟨by decide, fun h => absurd rfl h, by decide⟩

/-- A double of a finer unit is below the binades of the coarser ones. -/
theorem lt_of_shift_lt (h : IsDouble significand shift) (hs : shift < shift') :
    significand * 2 ^ shift < 2 ^ 52 * 2 ^ shift' := by
  have hpow : 2 ^ shift * 2 ≤ 2 ^ shift' := by
    rw [← Nat.pow_succ]
    exact Nat.pow_le_pow_right Nat.two_pos hs
  calc significand * 2 ^ shift
      < 2 ^ 53 * 2 ^ shift := Nat.mul_lt_mul_of_pos_right h.significand_lt (Nat.two_pow_pos shift)
    _ = 2 ^ 52 * (2 ^ shift * 2) := by omega
    _ ≤ 2 ^ 52 * 2 ^ shift' := Nat.mul_le_mul_left _ hpow

/-- A greater double is at least a unit away. -/
theorem add_le (h : IsDouble significand shift) (h' : IsDouble significand' shift')
    (hlt : significand * 2 ^ shift < significand' * 2 ^ shift') :
    significand * 2 ^ shift + 2 ^ shift ≤ significand' * 2 ^ shift' := by
  by_cases hs : shift ≤ shift'
  · rw [mul_two_pow_eq significand' hs] at hlt ⊢
    exact add_le_of_mul_lt hlt
  · have hbinade := h'.lt_of_shift_lt (Nat.lt_of_not_le hs)
    have hleast := Nat.mul_le_mul_right (2 ^ shift) (h.le_significand (by omega))
    omega

/-- A smaller double is at least a unit away, or half of one below the least of a binade. -/
theorem le_sub (h : IsDouble significand shift) (h' : IsDouble significand' shift')
    (hlt : significand' * 2 ^ shift' < significand * 2 ^ shift) :
    2 * (significand' * 2 ^ shift') +
      (if significand = 2 ^ 52 ∧ 0 < shift then 1 else 2) * 2 ^ shift ≤
        2 * (significand * 2 ^ shift) := by
  by_cases hs : shift ≤ shift'
  · rw [mul_two_pow_eq significand' hs] at hlt ⊢
    have := add_le_of_mul_lt hlt
    split <;> omega
  have hbinade := h'.lt_of_shift_lt (Nat.lt_of_not_le hs)
  by_cases hleast : significand = 2 ^ 52 ∧ 0 < shift
  · rw [if_pos hleast]
    obtain ⟨rfl, hpos⟩ := hleast
    obtain ⟨shift, rfl⟩ := Nat.exists_eq_succ_of_ne_zero (Nat.ne_of_gt hpos)
    -- One binade further down the same double has twice the significand.
    have hhalf : 2 ^ shift.succ = 2 * 2 ^ shift := Nat.pow_succ'
    have hdouble : 2 ^ 52 * 2 ^ shift.succ = 2 ^ 53 * 2 ^ shift := by omega
    rw [hdouble] at hlt ⊢
    rw [hhalf]
    by_cases hbelow : shift ≤ shift'
    · rw [mul_two_pow_eq significand' hbelow] at hlt ⊢
      have := add_le_of_mul_lt hlt
      omega
    · have := h'.lt_of_shift_lt (Nat.lt_of_not_le hbelow)
      omega
  · rw [if_neg hleast]
    have hmore : 2 ^ 52 + 1 ≤ significand := by
      have := h.le_significand (by omega)
      omega
    have := Nat.mul_le_mul_right (2 ^ shift) hmore
    omega

/-- The interval of a double reaches at most half way to a smaller one. -/
theorem midpoint_le_low (h : IsDouble significand shift) (h' : IsDouble significand' shift')
    (hlt : significand' * 2 ^ shift' < significand * 2 ^ shift) :
    2 * (significand' * 2 ^ shift' + significand * 2 ^ shift) ≤
      (Interval.ofParts significand shift).low := by
  have hgap := h.le_sub h' hlt
  simp only [Interval.ofParts, Nat.pow_eq, Nat.sub_mul, Nat.mul_assoc]
  omega

/-- The interval of a double reaches at most half way to a greater one. -/
theorem high_le_midpoint (h : IsDouble significand shift) (h' : IsDouble significand' shift')
    (hlt : significand * 2 ^ shift < significand' * 2 ^ shift') :
    (Interval.ofParts significand shift).high ≤
      2 * (significand * 2 ^ shift + significand' * 2 ^ shift') := by
  have hgap := h.add_le h' hlt
  simp only [Interval.ofParts, Nat.pow_eq, Nat.add_mul, Nat.mul_assoc]
  omega

end IsDouble

/-! ### Distances -/

/-- Which of two numbers is nearer goes by the side of the middle between them. -/
theorem abs_sub_le_abs_sub_iff {a b t : ℚ} :
    |t - a| ≤ |t - b| ↔ 0 ≤ (a - b) * (2 * t - (a + b)) := by
  rw [← sq_le_sq]
  constructor <;> intro h <;> linarith

/-- What is as near to one number as to another is in the middle between them. -/
theorem midpoint_of_abs_sub_eq {a b t : ℚ} (hne : b ≠ a) (h : |t - a| = |t - b|) :
    2 * t = a + b := by
  rcases abs_eq_abs.mp h with h | h
  · exact absurd (sub_right_injective h).symm hne
  · linarith

/-- A rational number in an interval, in the units of the interval. -/
structure Interval.Spans (i : Interval) (t : ℚ) : Prop where
  low_le : i.low ≤ t
  le_high : t ≤ i.high
  inside : i.closed = false → i.low < t ∧ t < i.high

/-- A fraction in an interval lies within its bounds as a rational number, too. -/
theorem Interval.Has.spans {i : Interval} {numerator denominator : Nat} (hd : 0 < denominator)
    (h : i.Has numerator denominator) :
    i.Spans (numerator / denominator * 2 ^ (unitExponent + 2)) := by
  have hpos : (0 : ℚ) < denominator := Nat.cast_pos.mpr hd
  have hscale : ((numerator * Nat.pow 2 (unitExponent + 2) : Nat) : ℚ) =
      numerator / denominator * 2 ^ (unitExponent + 2) * denominator := by
    rw [Nat.pow_eq]
    push_cast
    field_simp
  have hbelow (a : Nat) : a * denominator ≤ numerator * Nat.pow 2 (unitExponent + 2) ↔
      (a : ℚ) ≤ numerator / denominator * 2 ^ (unitExponent + 2) := by
    rw [← Nat.cast_le (α := ℚ), hscale, Nat.cast_mul, mul_le_mul_iff_left₀ hpos]
  have habove (a : Nat) : numerator * Nat.pow 2 (unitExponent + 2) ≤ a * denominator ↔
      numerator / denominator * 2 ^ (unitExponent + 2) ≤ (a : ℚ) := by
    rw [← Nat.cast_le (α := ℚ), hscale, Nat.cast_mul, mul_le_mul_iff_left₀ hpos]
  obtain ⟨hlow, hhigh, hinside⟩ := contains_iff.mp h
  refine ⟨(hbelow _).mp hlow, (habove _).mp hhigh, fun hopen => ?_⟩
  have hstrict := hinside hopen
  rwa [← not_le, ← not_le, hbelow, habove, not_le, not_le] at hstrict

namespace Interval.Spans

variable {t : ℚ}

/-- No other double is nearer to a number in the interval of one and, where another is as near, the
significand of this one is even. -/
theorem nearest (ht : (ofParts significand shift).Spans t) (h : IsDouble significand shift)
    (h' : IsDouble significand' shift') :
    |t - 4 * (significand * 2 ^ shift : Nat)| ≤ |t - 4 * (significand' * 2 ^ shift' : Nat)| ∧
      (significand' * 2 ^ shift' ≠ significand * 2 ^ shift →
        |t - 4 * (significand * 2 ^ shift : Nat)| = |t - 4 * (significand' * 2 ^ shift' : Nat)| →
        significand % 2 = 0) := by
  have even (hend : ¬ ((ofParts significand shift).low < t ∧
      t < (ofParts significand shift).high)) : significand % 2 = 0 := by
    by_contra hodd
    exact hend (ht.inside (by simpa [ofParts] using hodd))
  have hlow := ht.low_le
  have hhigh := ht.le_high
  have hbelow := h.midpoint_le_low h'
  have habove := h.high_le_midpoint h'
  generalize significand * 2 ^ shift = value, significand' * 2 ^ shift' = other at *
  rw [abs_sub_le_abs_sub_iff]
  rcases Nat.lt_trichotomy other value with hlt | rfl | hlt
  · have hmiddle := Nat.cast_le (α := ℚ) |>.mpr (hbelow hlt)
    have hless : (other : ℚ) < value := Nat.cast_lt.mpr hlt
    push_cast at hmiddle
    refine ⟨mul_nonneg (by linarith) (by linarith), fun _ heq => even fun hinside => ?_⟩
    have := midpoint_of_abs_sub_eq (by linarith) heq
    linarith
  · exact ⟨by simp, fun hne => absurd rfl hne⟩
  · have hmiddle := Nat.cast_le (α := ℚ) |>.mpr (habove hlt)
    have hless : (value : ℚ) < other := Nat.cast_lt.mpr hlt
    push_cast at hmiddle
    refine ⟨mul_nonneg_of_nonpos_of_nonpos (by linarith) (by linarith),
      fun _ heq => even fun hinside => ?_⟩
    have := midpoint_of_abs_sub_eq (by linarith) heq
    linarith

/-- Zero is not nearer either. -/
theorem nearest_zero (ht : (ofParts significand shift).Spans t)
    (h : IsDouble significand shift) (hpos : 0 ≤ t) :
    |t - 4 * (significand * 2 ^ shift : Nat)| ≤ t ∧
      (significand * 2 ^ shift ≠ 0 → |t - 4 * (significand * 2 ^ shift : Nat)| = t →
        significand % 2 = 0) := by
  have hzero := ht.nearest h .zero
  rw [Nat.zero_mul, Nat.cast_zero, mul_zero, sub_zero, abs_of_nonneg hpos] at hzero
  exact ⟨hzero.1, fun hne => hzero.2 hne.symm⟩

/-- The interval of the greatest double ends half a unit above it, and is open. -/
theorem lt (ht : (ofParts significand shift).Spans t) (h : IsDouble significand shift) :
    t < (2 ^ 1024 - 2 ^ 970) * 2 ^ (unitExponent + 2) := by
  have below (most : Nat) (hmost : shift ≤ most) :
      t < ((4 * (2 ^ 53 - 1) + 2) * 2 ^ most : Nat) := by
    have hlt := h.significand_lt
    have hpow := Nat.pow_le_pow_right Nat.two_pos hmost
    by_cases hodd : significand % 2 = 1
    · have hle : 4 * significand + 2 ≤ 4 * (2 ^ 53 - 1) + 2 := by omega
      have hinside := (ht.inside (by simp [ofParts, hodd])).2
      exact hinside.trans_le (Nat.cast_le.mpr (Nat.mul_le_mul hle hpow))
    · have hless : 4 * significand + 2 < 4 * (2 ^ 53 - 1) + 2 := by omega
      refine ht.le_high.trans_lt (Nat.cast_lt.mpr ?_)
      exact Nat.mul_lt_mul_of_lt_of_le hless hpow (Nat.two_pow_pos most)
  have units (low high : Nat) : ((2 ^ (low + 54) - 2 ^ low) * 2 ^ (high + 1) : ℚ) =
      ((4 * (2 ^ 53 - 1) + 2 : Nat) : ℚ) * 2 ^ (low + high) := by
    push_cast
    ring
  have hgreatest : ((2 ^ 1024 - 2 ^ 970) * 2 ^ (unitExponent + 2) : ℚ) =
      ((4 * (2 ^ 53 - 1) + 2) * 2 ^ 2045 : Nat) := by
    rw [Nat.cast_mul, Nat.cast_pow, Nat.cast_two]
    exact units 970 1075
  rw [hgreatest]
  exact below 2045 h.shift_le

end Interval.Spans

end

/-! ### Rounding -/

/-- A number with a sign. -/
def signed (negative : Bool) (q : ℚ) : ℚ := if negative then -q else q

/-- The value of a finite number. What is no finite number has none; zero stands for it. -/
def Parts.value : Parts → ℚ
  | .finite negative significand shift =>
    signed negative (significand * 2 ^ shift / 2 ^ unitExponent)
  | .nan | .infinite _ => 0

def valueOf (x : Float) : ℚ := (Parts.ofFloat x).value

/-- A rational number rounds to a finite double if no other one is nearer and, where another is as
near, the last bit of this one is zero. What is as large as `2^1024 - 2^970` rounds to none: it is
half a unit or more above the greatest. -/
structure RoundsTo (q : ℚ) (x : Float) : Prop where
  isFinite : IsFinite x
  lt : |q| < 2 ^ 1024 - 2 ^ 970
  nearest : ∀ y, IsFinite y → |q - valueOf x| ≤ |q - valueOf y|
  even : ∀ y, IsFinite y → valueOf y ≠ valueOf x → |q - valueOf x| = |q - valueOf y| →
    x.toBits.toNat % 2 = 0

section

variable {negative negative' : Bool} {significand shift : Nat} {q : ℚ} {x : Float}

/-- The value of a finite number is its significand at its exponent, with its sign. -/
theorem valueOf_eq (hx : Parts.ofFloat x = .finite negative significand shift) :
    valueOf x = signed negative ((significand * 2 ^ shift : Nat) / 2 ^ unitExponent) := by
  rw [valueOf, hx, Parts.value]
  push_cast
  rfl

/-- The last bit of a number is that of its significand. -/
theorem toBits_mod_two (hx : Parts.ofFloat x = .finite negative significand shift) :
    x.toBits.toNat % 2 = significand % 2 := by
  obtain ⟨-, hbits⟩ := Parts.bits_eq x.toBits.toNat_lt hx
  rw [hbits, bitsOf]
  split <;> omega

/-- A sign does not change a magnitude. -/
theorem abs_signed (hq : 0 ≤ q) (negative : Bool) : |signed negative q| = q := by
  cases negative
  · exact abs_of_nonneg hq
  · exact (abs_neg q).trans (abs_of_nonneg hq)

/-- Numbers on different sides of zero are as far apart as both are from zero. -/
theorem abs_signed_sub {a b : ℚ} (ha : 0 ≤ a) (hb : 0 ≤ b) (negative negative' : Bool) :
    |signed negative a - signed negative' b| =
      if negative = negative' then |a - b| else a + b := by
  have hsum : |a + b| = a + b := abs_of_nonneg (add_nonneg ha hb)
  cases negative <;> cases negative'
  · rfl
  · exact (congrArg _ (sub_neg_eq_add a b)).trans hsum
  · exact ((congrArg _ (neg_add' a b).symm).trans (abs_neg _)).trans hsum
  · exact (congrArg _ (neg_sub_neg a b)).trans (abs_sub_comm b a)

/-- The distance to a double, in the units of intervals. -/
theorem abs_sub_valueOf (hq : 0 ≤ q) (negative : Bool)
    (hx : Parts.ofFloat x = .finite negative' significand shift) :
    |signed negative q - valueOf x| * 2 ^ (unitExponent + 2) =
      if negative = negative' then
        |q * 2 ^ (unitExponent + 2) - 4 * (significand * 2 ^ shift : Nat)|
      else q * 2 ^ (unitExponent + 2) + 4 * (significand * 2 ^ shift : Nat) := by
  have hscale : (2 ^ (unitExponent + 2) : ℚ) = 2 ^ unitExponent * 4 := by
    rw [pow_add]
    norm_num
  have hunit : (0 : ℚ) < 2 ^ unitExponent := pow_pos two_pos unitExponent
  rw [valueOf_eq hx, abs_signed_sub hq (div_nonneg (Nat.cast_nonneg _) hunit.le), hscale]
  generalize (2 ^ unitExponent : ℚ) = unit at *
  have hquarters : |unit * 4| = unit * 4 := abs_of_pos (mul_pos hunit four_pos)
  split
  · conv_lhs => rw [← hquarters]
    rw [← abs_mul]
    congr 1
    field_simp
  · field_simp

/-- A fraction in the interval of a double, with its sign, rounds to the double. -/
theorem Interval.Has.roundsTo {numerator denominator : Nat} (hd : 0 < denominator)
    (h : (ofParts significand shift).Has numerator denominator)
    (hx : Parts.ofFloat x = .finite negative significand shift) :
    RoundsTo (signed negative (numerator / denominator)) x := by
  have hdouble := isDouble_of_ofFloat hx
  have hq : (0 : ℚ) ≤ numerator / denominator :=
    div_nonneg (Nat.cast_nonneg _) (Nat.cast_nonneg _)
  have ht := h.spans hd
  generalize (numerator / denominator : ℚ) = q at *
  have hscale : (0 : ℚ) < 2 ^ (unitExponent + 2) := pow_pos two_pos _
  have hself := abs_sub_valueOf hq negative hx
  rw [if_pos rfl] at hself
  have hzero := ht.nearest_zero hdouble (mul_nonneg hq hscale.le)
  constructor
  · exact isFinite_of_ofFloat hx
  · rw [abs_signed hq]
    exact lt_of_mul_lt_mul_right (ht.lt hdouble) hscale.le
  · intro y hy
    obtain ⟨negative', significand', shift', hparts⟩ := hy.exists_parts
    rw [← mul_le_mul_iff_left₀ hscale, hself, abs_sub_valueOf hq negative hparts]
    split
    · exact (ht.nearest hdouble (isDouble_of_ofFloat hparts)).1
    · exact hzero.1.trans (le_add_of_nonneg_right (mul_nonneg zero_le_four (Nat.cast_nonneg _)))
  · intro y hy hne heq
    obtain ⟨negative', significand', shift', hparts⟩ := hy.exists_parts
    rw [← mul_left_inj' hscale.ne', hself, abs_sub_valueOf hq negative hparts] at heq
    rw [valueOf_eq hparts, valueOf_eq hx] at hne
    rw [toBits_mod_two hx]
    split at heq
    · next hsame =>
      apply (ht.nearest hdouble (isDouble_of_ofFloat hparts)).2 _ heq
      intro hunits
      rw [hunits, hsame] at hne
      exact hne rfl
    · -- A double on the other side of zero is as near only if it is zero.
      have hnone : significand' * 2 ^ shift' = 0 := by
        have hle : (significand' * 2 ^ shift' : Nat) ≤ (0 : ℚ) := by linarith [hzero.1]
        exact Nat.cast_nonpos.mp hle
      rw [hnone, Nat.cast_zero, mul_zero, add_zero] at heq
      apply hzero.2 _ heq
      intro hunits
      rw [hnone, hunits, Nat.cast_zero, zero_div] at hne
      cases negative <;> cases negative' <;> simp [signed] at hne

end

/-! ### Numbers with an exponent -/

/-- A decimal is its digits at its exponent. -/
theorem Decimal.value_eq (d : Decimal) :
    (d.numerator / d.denominator : ℚ) = d.digits * 10 ^ d.exponent := by
  have hten : (10 : ℚ) ≠ 0 := by norm_num
  have hexponent : (d.exponent.toNat : Int) - (-d.exponent).toNat = d.exponent := by omega
  rw [numerator, denominator]
  conv_rhs => rw [← hexponent, zpow_sub₀ hten, zpow_natCast, zpow_natCast]
  push_cast
  ring

/-- A number of one digit, a point, more digits, the mark and an exponent. The number and the
exponent can have a sign. -/
structure ExponentForm where
  negative : Bool
  first : Char
  decimals : List Char
  below : Bool
  exponent : List Char
  isDigit_first : first.isDigit
  areDigits_decimals : AreDigits decimals
  areDigits_exponent : AreDigits exponent

namespace ExponentForm

def text (f : ExponentForm) : List Char :=
  signOf f.negative ++ (f.first :: '.' :: f.decimals ++ 'E' :: (signOf f.below ++ f.exponent))

/-- The power of ten that the exponent tells. -/
def power (f : ExponentForm) : Int :=
  if f.below then -(naturalOf f.exponent : Int) else naturalOf f.exponent

/-- The rational number that the text denotes. -/
def value (f : ExponentForm) : ℚ :=
  signed f.negative
    (naturalOf (f.first :: f.decimals) / 10 ^ f.decimals.length * 10 ^ f.power)

end ExponentForm

/-- A decimal is written with an exponent as what it is. -/
theorem Decimal.exists_exponentForm (d : Decimal) (negative : Bool) :
    ∃ f : ExponentForm, signOf negative ++ d.scientific .printed = f.text ∧
      f.value = signed negative (d.numerator / d.denominator) := by
  obtain ⟨first, decimals, zeros, exponent, htext, hfirst, hdecimals, hvalue, hexponent⟩ :=
    d.exists_scientific
  refine ⟨⟨negative, first, decimals, exponent < 0, digitsOf exponent.natAbs, hfirst, hdecimals,
    areDigits_digitsOf _⟩, ?_, ?_⟩
  · rw [htext]
    rfl
  · have hten : (10 : ℚ) ≠ 0 := by norm_num
    have hpower : (if exponent < 0 then -(exponent.natAbs : Int) else exponent.natAbs) =
        exponent := by
      split <;> omega
    simp only [ExponentForm.value, ExponentForm.power, naturalOf_digitsOf, decide_eq_true_eq,
      hpower, hvalue]
    rw [hexponent, value_eq, zpow_add₀ hten, zpow_sub₀ hten, zpow_natCast, zpow_natCast]
    push_cast
    congr 1
    field_simp

end Lox.Number
