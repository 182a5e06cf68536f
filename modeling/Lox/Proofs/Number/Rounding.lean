import Mathlib.Tactic.Linarith
import Mathlib.Tactic.Ring
import Lox.Number.Layout

/-!
# Rounding to a double

Every fraction in the rounding interval of a double reads as that double: the exponent is
the one of the double, or one less where the fraction is below its binade, and rounding to
a whole number of units then gives the significand. The decimals that are written lie in
the interval, so they read back.
-/

namespace Lox.Number

/-- Rounding gives a whole number from half a unit below it to half a unit above it, the ends
included if it is even. -/
theorem divRoundEven_eq {n d q : Nat} (hlow : 2 * q * d ≤ 2 * n + d)
    (hhigh : 2 * n ≤ 2 * q * d + d)
    (odd : q % 2 = 1 → 2 * q * d < 2 * n + d ∧ 2 * n < 2 * q * d + d) (hd : 0 < d) :
    divRoundEven n d = q := by
  have hn := Nat.div_add_mod n d
  have hr := Nat.mod_lt n hd
  simp only [divRoundEven]
  generalize n / d = a at hn
  generalize n % d = r at hn hr
  have cancel {x y : Nat} (h : x * d < y * d) : x < y := Nat.lt_of_mul_lt_mul_right h
  by_cases hbelow : 2 * r < d
  · have hq : 2 * q < 2 * a + 2 := cancel (by linarith)
    have ha : 2 * a < 2 * q + 2 := cancel (by linarith)
    rw [if_pos hbelow]
    omega
  rw [if_neg hbelow]
  by_cases habove : d < 2 * r
  · have hq : 2 * q < 2 * a + 4 := cancel (by linarith)
    have ha : 2 * a + 1 < 2 * q + 1 := cancel (by linarith)
    rw [if_pos habove]
    omega
  rw [if_neg habove]
  have half : 2 * r = d := by omega
  have hq : 2 * q < 2 * a + 3 := cancel (by linarith)
  have ha : 2 * a < 2 * q + 1 := cancel (by linarith)
  rcases Nat.mod_two_eq_zero_or_one q with heven | hodd
  · omega
  · obtain ⟨hlow, hhigh⟩ := odd hodd
    have hq : 2 * q < 2 * a + 2 := cancel (by linarith)
    have ha : 2 * a + 1 < 2 * q + 1 := cancel (by linarith)
    omega

/-- The exponent that is chosen for a fraction of so many units. -/
theorem log2_sub_eq {units d k : Nat} (hd : 0 < d) (hlow : k ≠ 0 → d * 2 ^ k * 2 ^ 52 ≤ units)
    (hhigh : units < d * 2 ^ k * 2 ^ 53) : (units / d).log2 - 52 = k := by
  have hlt : units / d < 2 ^ (k + 53) := by
    rw [Nat.div_lt_iff_lt_mul hd, Nat.pow_add]
    linarith
  by_cases hzero : units / d = 0
  · by_cases hk : k = 0
    · rw [hzero, hk]
      rfl
    · have hunits := Nat.lt_of_div_eq_zero hd hzero
      have hpow := Nat.mul_le_mul_left d (Nat.one_le_two_pow (n := k))
      have := hlow hk
      omega
  have hlog := (Nat.log2_lt hzero).mpr hlt
  by_cases hk : k = 0
  · omega
  · have hle : 2 ^ (k + 52) ≤ units / d := by
      rw [Nat.le_div_iff_mul_le hd, Nat.pow_add]
      linarith [hlow hk]
    have := (Nat.le_log2 hzero).mpr hle
    omega

/-- The significands and exponents of doubles: a leading bit is missing only where the exponent is
the least. -/
structure IsDouble (significand shift : Nat) : Prop where
  significand_lt : significand < 2 ^ 53
  le_significand : shift ≠ 0 → 2 ^ 52 ≤ significand
  shift_le : shift ≤ 2045

/-- The bits of a double without its sign. -/
def bitsOf (significand shift : Nat) : Nat := shift * 2 ^ 52 + significand

/-- The ends of an interval, which belong to it if it is closed. -/
theorem Interval.contains_iff {i : Interval} {numerator denominator : Nat} :
    i.contains numerator denominator ↔
      i.low * denominator ≤ numerator ∧ numerator ≤ i.high * denominator ∧
        (i.closed = false →
          i.low * denominator < numerator ∧ numerator < i.high * denominator) := by
  cases hc : i.closed with
  | true => simp [contains, hc]
  | false =>
    simp only [contains, hc, Bool.false_eq_true, if_false, Bool.and_eq_true, decide_eq_true_eq,
      forall_const]
    omega

/-- The bits of a finite double are those of its significand and exponent, and its sign. -/
theorem Parts.bits_eq {bits significand shift : Nat} {negative : Bool} (hbits : bits < 2 ^ 64)
    (h : Parts.ofBits bits = .finite negative significand shift) :
    IsDouble significand shift ∧
      bits = (if negative then 2 ^ 63 else 0) + bitsOf significand shift := by
  simp only [Parts.ofBits, Nat.pow_eq] at h
  have hsign : (if bits / 2 ^ 63 % 2 == 1 then 2 ^ 63 else 0) = bits / 2 ^ 63 * 2 ^ 63 := by
    by_cases hone : bits / 2 ^ 63 % 2 = 1
    · rw [hone]
      simp only [beq_self_eq_true, if_true]
      omega
    · rw [if_neg (by simpa using hone)]
      omega
  by_cases hmax : bits / 2 ^ 52 % 2 ^ 11 = 2047
  · rw [if_pos hmax] at h
    split at h <;> contradiction
  rw [if_neg hmax] at h
  by_cases hleast : bits / 2 ^ 52 % 2 ^ 11 = 0
  · rw [if_pos hleast] at h
    cases h
    rw [hsign]
    refine ⟨⟨?_, fun h => absurd rfl h, Nat.zero_le _⟩, ?_⟩
    · omega
    · simp only [bitsOf]
      omega
  · rw [if_neg hleast] at h
    cases h
    rw [hsign]
    refine ⟨⟨?_, fun _ => ?_, ?_⟩, ?_⟩
    · omega
    · omega
    · omega
    · simp only [bitsOf]
      omega

/-- The bits of a double are at most those of infinity. -/
theorem IsDouble.bitsOf_le {significand shift : Nat} (h : IsDouble significand shift) :
    bitsOf significand shift ≤ infinityBits := by
  have := h.significand_lt
  have := h.shift_le
  simp only [bitsOf, infinityBits, Nat.pow_eq]
  omega

/-- A fraction from half a unit below a significand to half a unit above it, of units of an exponent
whose binade it is in. -/
theorem nearestBits_eq {numerator denominator significand shift units spacing : Nat}
    (hd : 0 < denominator) (hunits : numerator * 2 ^ unitExponent = units)
    (hspacing : denominator * 2 ^ shift = spacing)
    (hbits : bitsOf significand shift ≤ infinityBits)
    (hbinade : shift ≠ 0 → spacing * 2 ^ 52 ≤ units) (habove : units < spacing * 2 ^ 53)
    (hlow : 2 * significand * spacing ≤ 2 * units + spacing)
    (hhigh : 2 * units ≤ 2 * significand * spacing + spacing)
    (odd : significand % 2 = 1 → 2 * significand * spacing < 2 * units + spacing ∧
      2 * units < 2 * significand * spacing + spacing) :
    nearestBits numerator denominator = bitsOf significand shift := by
  have hpositive : 0 < spacing := hspacing ▸ Nat.mul_pos hd (Nat.two_pow_pos shift)
  have hround := divRoundEven_eq hlow hhigh odd hpositive
  subst hspacing
  have hshift := log2_sub_eq hd hbinade habove
  simp only [nearestBits, Nat.pow_eq, hunits, hshift, hround]
  exact Nat.min_eq_left hbits

/-- A fraction in the rounding interval of a double rounds to it. -/
theorem nearestBits_of_contains {numerator denominator significand shift : Nat}
    (h : IsDouble significand shift) (hd : 0 < denominator)
    (hi : (Interval.ofParts significand shift).contains
      (numerator * Nat.pow 2 (unitExponent + 2)) denominator) :
    nearestBits numerator denominator = bitsOf significand shift := by
  obtain ⟨hlow, hhigh, hopen⟩ := Interval.contains_iff.mp hi
  obtain ⟨units, hunits⟩ : ∃ units, numerator * 2 ^ unitExponent = units := ⟨_, rfl⟩
  obtain ⟨spacing, hspacing⟩ : ∃ spacing, denominator * 2 ^ shift = spacing := ⟨_, rfl⟩
  have hpositive : 0 < spacing := hspacing ▸ Nat.mul_pos hd (Nat.two_pow_pos shift)
  have hquarters : numerator * Nat.pow 2 (unitExponent + 2) = 4 * units := by
    rw [Nat.pow_eq, Nat.pow_add, ← hunits]
    ring
  have hscale (x : Nat) : x * Nat.pow 2 shift * denominator = x * spacing := by
    rw [Nat.pow_eq, ← hspacing]
    ring
  simp only [Interval.ofParts, hquarters, hscale, beq_eq_false_iff_ne] at hlow hhigh hopen
  obtain ⟨gap, hgap⟩ :
      ∃ gap, (if significand = Nat.pow 2 52 ∧ 0 < shift then 1 else 2) = gap := ⟨_, rfl⟩
  rw [hgap] at hlow hopen
  have hends : 4 * significand * spacing ≤ (4 * significand - gap) * spacing + gap * spacing := by
    rw [← Nat.add_mul]
    exact Nat.mul_le_mul_right spacing (by omega)
  have hgap_le : gap * spacing ≤ 2 * spacing :=
    Nat.mul_le_mul_right spacing (by split at hgap <;> omega)
  have hfits := Nat.mul_le_mul_right spacing (Nat.succ_le_of_lt h.significand_lt)
  by_cases hbinade : shift ≠ 0 → spacing * 2 ^ 52 ≤ units
  · have odd (hodd : significand % 2 = 1) : 2 * significand * spacing < 2 * units + spacing ∧
        2 * units < 2 * significand * spacing + spacing := by
      obtain ⟨hlow, hhigh⟩ := hopen (by omega)
      constructor <;> linarith
    exact nearestBits_eq hd hunits hspacing h.bitsOf_le hbinade (by linarith) (by linarith)
      (by linarith) odd
  · -- The fraction is below the binade of the double, so the double is the least one there.
    rw [Classical.not_imp, Nat.not_le] at hbinade
    obtain ⟨hshift, hbelow⟩ := hbinade
    have hleast : significand = 2 ^ 52 := by
      by_contra hne
      have hle : 2 ^ 52 + 1 ≤ significand :=
        Nat.lt_of_le_of_ne (h.le_significand hshift) (Ne.symm hne)
      have := Nat.mul_le_mul_right spacing hle
      linarith
    have hone : gap = 1 := by rw [← hgap, if_pos ⟨hleast, Nat.pos_of_ne_zero hshift⟩]
    obtain ⟨shift, rfl⟩ := Nat.exists_eq_succ_of_ne_zero hshift
    obtain ⟨half, hhalf⟩ : ∃ half, denominator * 2 ^ shift = half := ⟨_, rfl⟩
    have hdouble : spacing = 2 * half := by
      rw [← hspacing, ← hhalf, Nat.succ_eq_add_one, Nat.pow_succ]
      ring
    subst hleast hone hdouble
    have hbits : bitsOf (2 ^ 53) shift = bitsOf (2 ^ 52) shift.succ := by
      simp only [bitsOf]
      omega
    rw [← hbits]
    refine nearestBits_eq hd hunits hhalf (hbits.le.trans h.bitsOf_le) ?_ ?_ ?_ ?_ ?_
    · intro _
      linarith
    · linarith
    · linarith
    · linarith
    · intro hodd
      omega

/-- What a fraction rounds to does not depend on how it is written. -/
theorem nearestBits_mul {numerator denominator c : Nat} (hc : 0 < c) :
    nearestBits (numerator * c) (denominator * c) = nearestBits numerator denominator := by
  have hunits (units shift : Nat) : divRoundEven (units * c) (denominator * c * 2 ^ shift) =
      divRoundEven units (denominator * 2 ^ shift) := by
    have hspacing : denominator * c * 2 ^ shift = denominator * 2 ^ shift * c := by ring
    simp only [hspacing, divRoundEven, Nat.mul_div_mul_right _ _ hc, Nat.mul_mod_mul_right,
      ← Nat.mul_assoc, Nat.mul_lt_mul_right hc]
  have hscale : numerator * c * 2 ^ unitExponent = numerator * 2 ^ unitExponent * c := by ring
  simp only [nearestBits, Nat.pow_eq, hscale, Nat.mul_div_mul_right _ _ hc, hunits]

/-- Equal fractions have the same nearest bits. -/
theorem nearestBits_congr {n d n' d' : Nat} (hd : 0 < d) (hd' : 0 < d') (h : n * d' = n' * d) :
    nearestBits n d = nearestBits n' d' := by
  rw [← nearestBits_mul hd', h, Nat.mul_comm d d', nearestBits_mul hd]

/-! ### Decimals in the interval -/

namespace Decimal

/-- A decimal as a fraction. -/
def numerator (d : Decimal) : Nat := d.digits * 10 ^ d.exponent.toNat

def denominator (d : Decimal) : Nat := 10 ^ (-d.exponent).toNat

theorem denominator_pos (d : Decimal) : 0 < d.denominator := Nat.pow_pos (by decide)

end Decimal

/-- Whether a fraction is in an interval. -/
def Interval.Has (i : Interval) (numerator denominator : Nat) : Prop :=
  i.contains (numerator * Nat.pow 2 (unitExponent + 2)) denominator

namespace Interval

variable {i : Interval} {significand shift : Nat}

/-- A point of the grid that is found in an interval is in it. -/
theorem has_gridPoint {exponent : Int} {digits : Nat} (h : i.gridPoint? exponent = some digits) :
    i.Has (Decimal.mk digits exponent).numerator (Decimal.mk digits exponent).denominator := by
  have hscale (digits : Nat) :
      (Decimal.mk digits exponent).numerator * Nat.pow 2 (unitExponent + 2) =
      digits * (Nat.pow 10 exponent.toNat * Nat.pow 2 (unitExponent + 2)) := Nat.mul_assoc ..
  rw [Has, hscale]
  simp only [gridPoint?] at h
  split at h
  · next hbelow habove =>
    split at h
    · cases h
      exact hbelow
    · cases h
      exact habove
  · next hbelow _ =>
    cases h
    exact hbelow
  · next _ habove =>
    cases h
    exact habove
  · contradiction

theorem has_coarsest {steps : Nat} {exponent : Int} {d : Decimal}
    (h : i.coarsest? steps exponent = some d) : i.Has d.numerator d.denominator := by
  induction steps generalizing exponent with
  | zero => contradiction
  | succ steps ih =>
    rw [coarsest?] at h
    split at h
    · next digits hdigits =>
      cases h
      exact has_gridPoint hdigits
    · exact ih h

/-- The value of a double is in its interval. -/
theorem has_value {numerator denominator : Nat} (hd : 0 < denominator)
    (h : numerator * 2 ^ unitExponent = significand * 2 ^ shift * denominator) :
    (ofParts significand shift).Has numerator denominator := by
  have hpositive : 0 < 2 ^ shift * denominator := Nat.mul_pos (Nat.two_pow_pos shift) hd
  have hvalue : numerator * Nat.pow 2 (unitExponent + 2) =
      4 * significand * (2 ^ shift * denominator) := by
    rw [Nat.pow_eq, Nat.pow_add, ← Nat.mul_assoc, h]
    ring
  have hscale (x : Nat) : x * Nat.pow 2 shift * denominator = x * (2 ^ shift * denominator) :=
    Nat.mul_assoc ..
  rw [Has, contains_iff, hvalue]
  simp only [ofParts, hscale, beq_eq_false_iff_ne]
  obtain ⟨gap, hgap⟩ :
      ∃ gap, (if significand = Nat.pow 2 52 ∧ 0 < shift then 1 else 2) = gap := ⟨_, rfl⟩
  have hgap_pos : 0 < gap := by split at hgap <;> omega
  rw [hgap]
  refine ⟨Nat.mul_le_mul_right _ (Nat.sub_le _ _),
    Nat.mul_le_mul_right _ (Nat.le_add_right _ _), ?_⟩
  intro hodd
  exact ⟨Nat.mul_lt_mul_of_pos_right (by omega) hpositive,
    Nat.mul_lt_mul_of_pos_right (by omega) hpositive⟩

end Interval

/-- The shortest decimal lies in the interval that rounds to the number. -/
theorem has_shortest (significand shift : Nat) :
    (Interval.ofParts significand shift).Has (shortest significand shift).numerator
      (shortest significand shift).denominator := by
  simp only [shortest]
  cases hfound : (Interval.ofParts significand shift).coarsest? 21
      (Interval.ofParts significand shift).startExponent with
  | some d => exact Interval.has_coarsest hfound
  | none =>
    rw [Option.getD_none]
    apply Interval.has_value (Decimal.denominator_pos _)
    have hten : 10 ^ unitExponent = 5 ^ unitExponent * 2 ^ unitExponent := by
      rw [← Nat.mul_pow]
    have hpositive : (-(unitExponent : Int)).toNat = 0 := by omega
    have hnegative : (- -(unitExponent : Int)).toNat = unitExponent := by omega
    simp only [Decimal.numerator, Decimal.denominator, hpositive, hnegative, hten, Nat.pow_eq]
    ring

/-- The shortest decimal of a double rounds to it. -/
theorem nearestBits_shortest {significand shift : Nat} (h : IsDouble significand shift) :
    nearestBits (shortest significand shift).numerator (shortest significand shift).denominator =
      bitsOf significand shift :=
  nearestBits_of_contains h (Decimal.denominator_pos _) (has_shortest significand shift)

/-- A whole number in the interval of a double whose unit divides one is the double itself. -/
theorem eq_of_has_whole {significand shift whole : Nat} (hshift : shift ≤ unitExponent)
    (h : (Interval.ofParts significand shift).Has whole 1) :
    significand * 2 ^ shift = whole * 2 ^ unitExponent := by
  obtain ⟨hlow, hhigh, -⟩ := Interval.contains_iff.mp h
  have hunits : whole * Nat.pow 2 (unitExponent + 2) =
      4 * (whole * 2 ^ (unitExponent - shift)) * 2 ^ shift := by
    rw [Nat.pow_eq, Nat.pow_add, ← Nat.sub_add_cancel hshift, Nat.pow_add, Nat.add_sub_cancel]
    ring
  rw [hunits, Nat.mul_one] at hlow hhigh
  have hbelow := Nat.le_of_mul_le_mul_right hlow (Nat.two_pow_pos shift)
  have habove := Nat.le_of_mul_le_mul_right hhigh (Nat.two_pow_pos shift)
  have hsame : significand = whole * 2 ^ (unitExponent - shift) := by
    generalize whole * 2 ^ (unitExponent - shift) = t at *
    split at hbelow <;> omega
  rw [hsame, Nat.mul_assoc, ← Nat.pow_add, Nat.sub_add_cancel hshift]

/-- A number that is whole is found to be that whole number. -/
theorem wholeValue?_of_mul {significand shift whole : Nat}
    (h : significand * 2 ^ shift = whole * 2 ^ unitExponent) :
    wholeValue? significand shift = some whole := by
  simp only [wholeValue?, Nat.pow_eq, h, Nat.mul_mod_left, if_true,
    Nat.mul_div_cancel _ (Nat.two_pow_pos unitExponent)]

/-- The shortest decimal of a double that is no whole number has digits after the point. -/
theorem exponent_shortest_neg {significand shift : Nat} (h : wholeValue? significand shift = none) :
    (shortest significand shift).exponent < 0 := by
  by_contra hexponent
  have hwhole : (shortest significand shift).denominator = 1 := by
    have hzero : (-(shortest significand shift).exponent).toNat = 0 := by omega
    rw [Decimal.denominator, hzero, Nat.pow_zero]
  have hfine : shift ≤ unitExponent := by
    by_contra hcoarse
    have hmultiple : significand * 2 ^ shift =
        significand * 2 ^ (shift - unitExponent) * 2 ^ unitExponent := by
      rw [Nat.mul_assoc, ← Nat.pow_add, Nat.sub_add_cancel (by omega)]
    rw [wholeValue?_of_mul hmultiple] at h
    contradiction
  have hhas := has_shortest significand shift
  rw [hwhole] at hhas
  rw [wholeValue?_of_mul (eq_of_has_whole hfine hhas)] at h
  contradiction

/-- A double that is a whole number has its value. -/
theorem nearestBits_wholeValue {significand shift whole : Nat}
    (hdouble : IsDouble significand shift) (h : wholeValue? significand shift = some whole) :
    nearestBits whole 1 = bitsOf significand shift := by
  simp only [wholeValue?, Nat.pow_eq] at h
  split at h
  · next hmultiple =>
    cases h
    apply nearestBits_of_contains hdouble Nat.one_pos
    apply Interval.has_value Nat.one_pos
    rw [Nat.mul_one, Nat.div_mul_cancel (Nat.dvd_of_mod_eq_zero hmultiple)]
  · contradiction

end Lox.Number
