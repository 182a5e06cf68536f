import Lox.Proofs.Number.Nearest

/-!
# Correct rounding

Every fraction is in the rounding interval of the double that is chosen for it, unless it is as
large as `2^1024 - 2^970`; then infinity is chosen. So every fraction below that rounds to the
double that is chosen, and to no other one without a sign.
-/

namespace Lox.Number

/-! ### The double that is chosen -/

/-- Rounding to a whole number is at most half a unit off, and less than that if it gives an odd
one. -/
theorem divRoundEven_spec (n : Nat) {d : Nat} (hd : 0 < d) :
    2 * divRoundEven n d * d ≤ 2 * n + d ∧ 2 * n ≤ 2 * divRoundEven n d * d + d ∧
      (divRoundEven n d % 2 = 1 →
        2 * divRoundEven n d * d < 2 * n + d ∧ 2 * n < 2 * divRoundEven n d * d + d) := by
  have hn := Nat.div_add_mod n d
  have hr := Nat.mod_lt n hd
  simp only [divRoundEven]
  generalize n / d = a at hn ⊢
  generalize n % d = r at hn hr ⊢
  have hsame : 2 * a * d = 2 * (d * a) := by ring
  have hnext : 2 * (a + 1) * d = 2 * (d * a) + 2 * d := by ring
  by_cases hbelow : 2 * r < d
  · rw [if_pos hbelow, hsame]
    omega
  rw [if_neg hbelow]
  by_cases habove : d < 2 * r
  · rw [if_pos habove, hnext]
    omega
  rw [if_neg habove]
  -- In the middle the even neighbour is taken.
  rcases Nat.mod_two_eq_zero_or_one a with heven | hodd
  · rw [heven, Nat.add_zero, hsame]
    omega
  · rw [hodd, hnext]
    omega

/-- The exponent is chosen so that the fraction is in its binade, or below it if it is the least. -/
theorem binade (units : Nat) {d : Nat} (hd : 0 < d) :
    ((units / d).log2 - 52 ≠ 0 → d * 2 ^ ((units / d).log2 - 52) * 2 ^ 52 ≤ units) ∧
      units < d * 2 ^ ((units / d).log2 - 52) * 2 ^ 53 := by
  constructor
  · intro hshift
    have hne : units / d ≠ 0 := by
      intro hzero
      rw [hzero] at hshift
      contradiction
    have hlog := Nat.log2_self_le hne
    rw [Nat.mul_assoc, ← Nat.pow_add, Nat.sub_add_cancel (by omega), Nat.mul_comm]
    exact (Nat.le_div_iff_mul_le hd).mp hlog
  · have hlog := Nat.lt_log2_self (n := units / d)
    have hlt : units / d < 2 ^ ((units / d).log2 - 52 + 53) :=
      hlog.trans_le (Nat.pow_le_pow_right Nat.two_pos (by omega))
    rw [Nat.mul_assoc, ← Nat.pow_add, Nat.mul_comm]
    exact (Nat.div_lt_iff_lt_mul hd).mp hlt

/-- A fraction is in the interval of a double if it is between its ends, in units. -/
theorem Interval.has_of_units {numerator denominator significand shift units spacing : Nat}
    (hunits : numerator * 2 ^ unitExponent = units) (hspacing : denominator * 2 ^ shift = spacing)
    (hlow : (4 * significand - if significand = 2 ^ 52 ∧ 0 < shift then 1 else 2) * spacing ≤
      4 * units)
    (hhigh : 4 * units ≤ (4 * significand + 2) * spacing)
    (odd : significand % 2 = 1 →
      (4 * significand - if significand = 2 ^ 52 ∧ 0 < shift then 1 else 2) * spacing < 4 * units ∧
        4 * units < (4 * significand + 2) * spacing) :
    (Interval.ofParts significand shift).Has numerator denominator := by
  have hquarters : numerator * Nat.pow 2 (unitExponent + 2) = 4 * units := by
    rw [Nat.pow_eq, Nat.pow_add, ← hunits]
    ring
  have hscale (x : Nat) : x * 2 ^ shift * denominator = x * spacing := by
    rw [← hspacing]
    ring
  rw [Has, contains_iff, hquarters]
  simp only [ofParts, Nat.pow_eq, hscale, beq_eq_false_iff_ne]
  exact ⟨hlow, hhigh, fun hne => odd (by omega)⟩

/-- What is half a unit above the greatest significand of an exponent, or more, in other units. -/
theorem limit_le {numerator denominator low high : Nat}
    (h : (2 ^ 54 - 1) * (denominator * 2 ^ (low + high)) ≤ numerator * 2 ^ high) :
    (2 ^ (54 + low) - 2 ^ low) * denominator ≤ numerator := by
  have limit : 2 ^ (54 + low) - 2 ^ low = (2 ^ 54 - 1) * 2 ^ low := by
    rw [Nat.sub_mul, Nat.pow_add, Nat.one_mul]
  have units : (2 ^ 54 - 1) * (denominator * 2 ^ (low + high)) =
      (2 ^ 54 - 1) * 2 ^ low * denominator * 2 ^ high := by
    rw [Nat.pow_add]
    ring
  rw [units, ← limit] at h
  exact Nat.le_of_mul_le_mul_right h (Nat.two_pow_pos high)

/-- What rounds to more than the greatest significand of the exponent `most` is at least half a unit
above it. -/
theorem half_unit_le {denominator shift units spacing most : Nat}
    (hspacing : denominator * 2 ^ shift = spacing)
    (h : most < shift ∧ spacing * 2 ^ 52 ≤ units ∨
      shift = most ∧ 2 * 2 ^ 53 * spacing ≤ 2 * units + spacing) :
    (2 ^ 54 - 1) * (denominator * 2 ^ most) ≤ 2 * units := by
  rw [Nat.sub_mul, Nat.sub_le_iff_le_add]
  rcases h with ⟨hshift, hle⟩ | ⟨rfl, hle⟩
  · have hcoarse := Nat.mul_le_mul_left denominator (Nat.pow_le_pow_right Nat.two_pos hshift)
    rw [hspacing, Nat.pow_succ'] at hcoarse
    linarith
  · rw [hspacing]
    linarith

/-- A number of units is rounded to a multiple of the spacing of its binade. -/
structure RoundsInBinade (units spacing significand shift : Nat) : Prop where
  spacing_pos : 0 < spacing
  binade : shift ≠ 0 → spacing * 2 ^ 52 ≤ units
  lt_next : units < spacing * 2 ^ 53
  low : 2 * significand * spacing ≤ 2 * units + spacing
  high : 2 * units ≤ 2 * significand * spacing + spacing
  odd : significand % 2 = 1 →
    2 * significand * spacing < 2 * units + spacing ∧
      2 * units < 2 * significand * spacing + spacing

/-- In the binade of a value rounding to even gives a significand of that binade. -/
theorem roundsInBinade (units : Nat) {denominator : Nat} (hd : 0 < denominator) :
    RoundsInBinade units (denominator * 2 ^ ((units / denominator).log2 - 52))
      (divRoundEven units (denominator * 2 ^ ((units / denominator).log2 - 52)))
      ((units / denominator).log2 - 52) := by
  have hpositive := Nat.mul_pos hd (Nat.two_pow_pos ((units / denominator).log2 - 52))
  obtain ⟨hbinade, hnext⟩ := binade units hd
  obtain ⟨hlow, hhigh, hodd⟩ := divRoundEven_spec units hpositive
  exact ⟨hpositive, hbinade, hnext, hlow, hhigh, hodd⟩

namespace RoundsInBinade

variable {numerator denominator units spacing significand shift : Nat}

/-- A significand has at most 53 bits, or is the power of two above them. -/
theorem significand_le (h : RoundsInBinade units spacing significand shift) :
    significand ≤ 2 ^ 53 := by
  have hlow := h.low
  have hnext := h.lt_next
  have : 2 * significand < 2 * 2 ^ 53 + 1 :=
    Nat.lt_of_mul_lt_mul_right (a := spacing) (by linarith)
  omega

/-- Above the least binade it has no fewer of them. -/
theorem le_significand (h : RoundsInBinade units spacing significand shift) (hshift : shift ≠ 0) :
    2 ^ 52 ≤ significand := by
  have hpositive := h.spacing_pos
  have hhigh := h.high
  have hle := h.binade hshift
  have : 2 * 2 ^ 52 < 2 * significand + 2 :=
    Nat.lt_of_mul_lt_mul_right (a := spacing) (by linarith)
  omega

/-- What is rounded to a significand is in the interval of the double that has it. -/
theorem has (h : RoundsInBinade units spacing significand shift)
    (hunits : numerator * 2 ^ unitExponent = units) (hspacing : denominator * 2 ^ shift = spacing) :
    (Interval.ofParts significand shift).Has numerator denominator := by
  have hlow := h.low
  have hhigh := h.high
  refine Interval.has_of_units hunits hspacing ?_ (by linarith) fun hodd => ?_
  · rw [Nat.sub_mul, Nat.sub_le_iff_le_add]
    split
    · next hfirst =>
      -- Nothing that is rounded up to the least significand is below its binade.
      have hle := h.binade (Nat.ne_of_gt hfirst.2)
      rw [hfirst.1]
      linarith
    · linarith
  · obtain ⟨hlow, hhigh⟩ := h.odd hodd
    have hgap : ¬ (significand = 2 ^ 52 ∧ 0 < shift) := by
      rintro ⟨rfl, -⟩
      exact absurd hodd (by decide)
    have hsub : (4 * significand - 2) * spacing + 2 * spacing = 4 * significand * spacing := by
      rw [← Nat.add_mul, Nat.sub_add_cancel (by omega)]
    rw [if_neg hgap]
    constructor <;> linarith

/-- What is rounded up to the next binade is in the interval of its first double. -/
theorem has_next (h : RoundsInBinade units spacing (2 ^ 53) shift)
    (hunits : numerator * 2 ^ unitExponent = units) (hspacing : denominator * 2 ^ shift = spacing) :
    (Interval.ofParts (2 ^ 52) (shift + 1)).Has numerator denominator := by
  have hlow := h.low
  have hhigh := h.high
  have hdoubled : denominator * 2 ^ (shift + 1) = 2 * spacing := by
    rw [← hspacing, Nat.pow_succ]
    ring
  refine Interval.has_of_units hunits hdoubled ?_ (by linarith)
    fun hodd => absurd hodd (by decide)
  rw [if_pos ⟨rfl, Nat.succ_pos shift⟩, Nat.sub_mul, Nat.sub_le_iff_le_add]
  linarith

/-- What is past the greatest double, or rounded up from it, is as large as the limit. -/
theorem limit_le (h : RoundsInBinade units spacing significand shift)
    (hunits : numerator * 2 ^ unitExponent = units) (hspacing : denominator * 2 ^ shift = spacing)
    (hlarge : 2045 < shift ∨ shift = 2045 ∧ significand = 2 ^ 53) :
    (2 ^ 1024 - 2 ^ 970) * denominator ≤ numerator := by
  have hreaches : (2 ^ 54 - 1) * (denominator * 2 ^ 2045) ≤ 2 * units := by
    refine half_unit_le hspacing (hlarge.imp (fun hshift => ⟨hshift, h.binade (by omega)⟩) ?_)
    rintro ⟨hshift, rfl⟩
    exact ⟨hshift, h.low⟩
  have hlast : 2045 = 970 + (unitExponent + 1) := rfl
  have hgreatest : 1024 = 54 + 970 := rfl
  have htwice : numerator * 2 ^ (unitExponent + 1) = 2 * units := by
    rw [Nat.pow_succ, ← hunits]
    ring
  rw [hlast, ← htwice] at hreaches
  rw [hgreatest]
  exact Number.limit_le hreaches

end RoundsInBinade

/-- A fraction is in the interval of the double that is chosen for it, or it is as large as the
limit and infinity is chosen. -/
theorem nearestBits_cases (numerator : Nat) {denominator : Nat} (hd : 0 < denominator) :
    (∃ significand shift, IsDouble significand shift ∧
      nearestBits numerator denominator = bitsOf significand shift ∧
      (Interval.ofParts significand shift).Has numerator denominator) ∨
    nearestBits numerator denominator = infinityBits ∧
      (2 ^ 1024 - 2 ^ 970) * denominator ≤ numerator := by
  obtain ⟨units, hunits⟩ : ∃ units, numerator * 2 ^ unitExponent = units := ⟨_, rfl⟩
  have hbits : nearestBits numerator denominator =
      min (((units / denominator).log2 - 52) * 2 ^ 52 +
        divRoundEven units (denominator * 2 ^ ((units / denominator).log2 - 52))) infinityBits := by
    simp only [nearestBits, Nat.pow_eq, hunits]
  have hrounds := roundsInBinade units hd
  generalize (units / denominator).log2 - 52 = shift at *
  obtain ⟨spacing, hspacing⟩ : ∃ spacing, denominator * 2 ^ shift = spacing := ⟨_, rfl⟩
  rw [hspacing] at hbits hrounds
  generalize divRoundEven units spacing = significand at *
  have hmost := hrounds.significand_le
  by_cases hfinite : significand < 2 ^ 53 ∧ shift ≤ 2045
  · have hdouble : IsDouble significand shift :=
      ⟨hfinite.1, hrounds.le_significand, hfinite.2⟩
    exact .inl ⟨significand, shift, hdouble, hbits.trans (Nat.min_eq_left hdouble.bitsOf_le),
      hrounds.has hunits hspacing⟩
  by_cases hcarry : significand = 2 ^ 53 ∧ shift < 2045
  · obtain ⟨rfl, hshift⟩ := hcarry
    have hdouble : IsDouble (2 ^ 52) (shift + 1) := ⟨by decide, fun _ => Nat.le_refl _, hshift⟩
    have hnext : shift * 2 ^ 52 + 2 ^ 53 = bitsOf (2 ^ 52) (shift + 1) := by
      simp only [bitsOf]
      omega
    rw [hnext] at hbits
    exact .inl ⟨2 ^ 52, shift + 1, hdouble, hbits.trans (Nat.min_eq_left hdouble.bitsOf_le),
      hrounds.has_next hunits hspacing⟩
  · have hlarge : 2045 < shift ∨ shift = 2045 ∧ significand = 2 ^ 53 := by omega
    have hleast : shift ≠ 0 → 2 ^ 52 ≤ significand := hrounds.le_significand
    refine .inr ⟨hbits.trans (Nat.min_eq_right ?_), hrounds.limit_le hunits hspacing hlarge⟩
    simp only [infinityBits, Nat.pow_eq]
    omega

/-- Zero is written with the least exponent only. -/
theorem IsDouble.shift_eq_zero {shift : Nat} (h : IsDouble 0 shift) : shift = 0 := by
  by_contra hne
  have := h.le_significand hne
  omega

/-- Only zero is in reach of numbers up to half a unit. -/
theorem Interval.Spans.significand_eq_zero_iff {significand shift : Nat} {t : ℚ}
    (ht : (ofParts significand shift).Spans t) (h : IsDouble significand shift) :
    significand = 0 ↔ t ≤ 2 := by
  constructor
  · rintro rfl
    obtain rfl := h.shift_eq_zero
    simpa [ofParts] using ht.le_high
  · intro hsmall
    by_contra hne
    have hpow := Nat.one_le_two_pow (n := shift)
    by_cases hone : significand = 1
    · -- The interval of the least double above zero starts at half a unit and is open there.
      subst hone
      have hlow : 2 ≤ (ofParts 1 shift).low := by
        simpa [ofParts] using Nat.mul_le_mul_left 2 hpow
      have hstarts : (2 : ℚ) ≤ (ofParts 1 shift).low := mod_cast hlow
      linarith [(ht.inside rfl).1]
    · have hlow : 6 * 1 ≤ (ofParts significand shift).low :=
        Nat.mul_le_mul (by split <;> omega) hpow
      have hstarts : (6 : ℚ) ≤ (ofParts significand shift).low := mod_cast hlow
      linarith [ht.low_le]

/-- The bits of infinity are read as it. -/
theorem ofFloat_infinity :
    Parts.ofFloat (.ofBits (.ofNat infinityBits)) = .infinite false := by decide

section

variable (numerator : Nat) {denominator : Nat} (hd : 0 < denominator)
include hd

/-- The double that is chosen is one without a sign in whose interval the fraction is, or it is
infinity and the fraction is as large as the limit. -/
theorem ofFloat_nearest :
    (∃ significand shift,
      Parts.ofFloat (nearest numerator denominator) = .finite false significand shift ∧
        (Interval.ofParts significand shift).Has numerator denominator) ∨
    Parts.ofFloat (nearest numerator denominator) = .infinite false ∧
      (2 ^ 1024 - 2 ^ 970 : ℚ) ≤ numerator / denominator := by
  rcases nearestBits_cases numerator hd with
    ⟨significand, shift, hdouble, hbits, hhas⟩ | ⟨hbits, hle⟩
  · refine .inl ⟨significand, shift, ?_, hhas⟩
    rw [nearest, hbits, ofFloat_ofBits hdouble]
  · refine .inr ⟨by rw [nearest, hbits, ofFloat_infinity], ?_⟩
    have hlimit (low high : Nat) (h : low ≤ high) :
        ((2 ^ high - 2 ^ low : Nat) : ℚ) = 2 ^ high - 2 ^ low := by
      rw [Nat.cast_sub (Nat.pow_le_pow_right Nat.two_pos h)]
      push_cast
      rfl
    rw [le_div_iff₀ (Nat.cast_pos.mpr hd), ← hlimit 970 1024 (by decide), ← Nat.cast_mul,
      Nat.cast_le]
    exact hle

/-- A fraction below the limit rounds to the double that is chosen for it. -/
theorem roundsTo_nearest (hlt : (numerator / denominator : ℚ) < 2 ^ 1024 - 2 ^ 970) :
    RoundsTo (numerator / denominator) (nearest numerator denominator) := by
  rcases ofFloat_nearest numerator hd with ⟨significand, shift, hparts, hhas⟩ | ⟨-, hle⟩
  · exact hhas.roundsTo hd hparts
  · exact absurd hlt (not_lt_of_ge hle)

/-- Infinity is chosen for what is as large as the limit, and for nothing else. -/
theorem ofFloat_nearest_infinite :
    Parts.ofFloat (nearest numerator denominator) = .infinite false ↔
      (2 ^ 1024 - 2 ^ 970 : ℚ) ≤ numerator / denominator := by
  rcases ofFloat_nearest numerator hd with ⟨significand, shift, hparts, hhas⟩ | ⟨hparts, hle⟩
  · have hlt := (le_abs_self _).trans_lt (hhas.roundsTo hd hparts).lt
    rw [hparts]
    exact ⟨fun h => (nomatch h), fun hle => absurd hlt (not_lt_of_ge hle)⟩
  · exact iff_of_true hparts hle

/-- No sign is chosen. -/
theorem toBits_nearest_lt : (nearest numerator denominator).toBits.toNat < 2 ^ 63 := by
  rcases nearestBits_cases numerator hd with ⟨significand, shift, hdouble, hbits, -⟩ | ⟨hbits, -⟩
  · obtain ⟨-, hsame⟩ := Parts.bits_eq (UInt64.toNat_lt _) (ofFloat_ofBits hdouble)
    rw [nearest, hbits, hsame, if_neg Bool.false_ne_true, Nat.zero_add]
    exact hdouble.bitsOf_le.trans_lt (by decide)
  · rw [nearest, hbits]
    decide

/-- Zero is chosen for what is at most half a unit, and for nothing else. -/
theorem nearest_eq_zero_iff :
    nearest numerator denominator = 0 ↔ (numerator / denominator : ℚ) ≤ 1 / 2 ^ 1075 := by
  have hzero : Parts.ofFloat 0 = .finite false 0 0 := by decide
  rcases ofFloat_nearest numerator hd with ⟨significand, shift, hparts, hhas⟩ | ⟨hparts, hle⟩
  · have hdouble := isDouble_of_ofFloat hparts
    have hunits (k : Nat) (q : ℚ) : q * 2 ^ (k + 1) ≤ 2 ↔ q ≤ 1 / 2 ^ k := by
      rw [le_div_iff₀ (pow_pos two_pos k), pow_succ]
      constructor <;> intro h <;> linarith
    refine Iff.trans ?_ (((hhas.spans hd).significand_eq_zero_iff hdouble).trans (hunits 1075 _))
    constructor
    · intro h
      rw [h, hzero] at hparts
      cases hparts
      rfl
    · rintro rfl
      obtain rfl := hdouble.shift_eq_zero
      exact eq_of_ofFloat hparts hzero
  · have hone (low high : Nat) (h : low < high) : (1 : ℚ) ≤ 2 ^ high - 2 ^ low := by
      have hle := pow_le_pow_right₀ (one_le_two (α := ℚ)) h
      have hlow := one_le_pow₀ (one_le_two (α := ℚ)) (n := low)
      rw [pow_succ] at hle
      linarith
    have hless (k : Nat) (hk : k ≠ 0) : (1 : ℚ) / 2 ^ k < 1 := by
      rw [div_lt_one (pow_pos two_pos k)]
      exact one_lt_pow₀ one_lt_two hk
    refine iff_of_false (fun h => ?_) fun hsmall => ?_
    · rw [h, hzero] at hparts
      cases hparts
    · have hlimit := (hone 970 1024 (by decide)).trans hle
      exact absurd (hlimit.trans hsmall) (not_le_of_gt (hless 1075 (by decide)))

end

/-! ### No other double is correctly rounded -/

section

variable {significand shift significand' shift' : Nat}

/-- Doubles of one value have the same significand and exponent. -/
theorem IsDouble.eq_of_value (h : IsDouble significand shift) (h' : IsDouble significand' shift')
    (heq : significand * 2 ^ shift = significand' * 2 ^ shift') :
    significand = significand' ∧ shift = shift' := by
  have above {significand significand' shift shift' : Nat} (h : IsDouble significand shift)
      (h' : IsDouble significand' shift') (hlt : shift < shift') :
      significand * 2 ^ shift < significand' * 2 ^ shift' :=
    (h.lt_of_shift_lt hlt).trans_le (Nat.mul_le_mul_right _ (h'.le_significand (by omega)))
  rcases Nat.lt_trichotomy shift shift' with hlt | rfl | hlt
  · exact absurd heq (Nat.ne_of_lt (above h h' hlt))
  · exact ⟨Nat.eq_of_mul_eq_mul_right (Nat.two_pow_pos shift) heq, rfl⟩
  · exact absurd heq.symm (Nat.ne_of_lt (above h' h hlt))

/-- The next double after one with an even significand has the same exponent. -/
theorem IsDouble.succ (h : IsDouble significand shift) (heven : significand % 2 = 0) :
    IsDouble (significand + 1) shift where
  significand_lt := by
    have := h.significand_lt
    omega
  le_significand hne := Nat.le_succ_of_le (h.le_significand hne)
  shift_le := h.shift_le

variable {q : ℚ} {x y : Float}

/-- Between two doubles with even significands there is another one, which is nearer to what is in
the middle between them. -/
theorem RoundsTo.not_lt (hx : RoundsTo q x) (hy : RoundsTo q y)
    (px : Parts.ofFloat x = .finite false significand shift)
    (py : Parts.ofFloat y = .finite false significand' shift') :
    ¬ significand * 2 ^ shift < significand' * 2 ^ shift' := by
  intro hlt
  have hunit : (0 : ℚ) < 2 ^ unitExponent := pow_pos two_pos unitExponent
  have less {a b : Nat} (h : a < b) :
      signed false ((a : ℚ) / 2 ^ unitExponent) < signed false ((b : ℚ) / 2 ^ unitExponent) :=
    div_lt_div_of_pos_right (Nat.cast_lt.mpr h) hunit
  have hdistance := le_antisymm (hx.nearest y hy.isFinite) (hy.nearest x hx.isFinite)
  have hvalues : valueOf x < valueOf y := by
    rw [valueOf_eq px, valueOf_eq py]
    exact less hlt
  have heven := hx.even y hy.isFinite hvalues.ne' hdistance
  have heven' := hy.even x hx.isFinite hvalues.ne hdistance.symm
  rw [toBits_mod_two px] at heven
  rw [toBits_mod_two py] at heven'
  have hdouble := isDouble_of_ofFloat px
  have hdouble' := isDouble_of_ofFloat py
  have hnext := hdouble.succ heven
  have pz := ofFloat_ofBits hnext
  generalize Float.ofBits _ = z at pz
  have hbelow : (significand + 1) * 2 ^ shift < significand' * 2 ^ shift' := by
    refine Nat.lt_of_le_of_ne ?_ fun heq => ?_
    · rw [Nat.succ_mul]
      exact hdouble.add_le hdouble' hlt
    · obtain ⟨rfl, -⟩ := hnext.eq_of_value hdouble' heq
      omega
  have hxz : valueOf x < valueOf z := by
    rw [valueOf_eq px, valueOf_eq pz]
    exact less (Nat.mul_lt_mul_of_pos_right (Nat.lt_succ_self _) (Nat.two_pow_pos shift))
  have hzy : valueOf z < valueOf y := by
    rw [valueOf_eq pz, valueOf_eq py]
    exact less hbelow
  have hmiddle := midpoint_of_abs_sub_eq hvalues.ne' hdistance
  have hnearest := abs_sub_le_abs_sub_iff.mp (hy.nearest z (isFinite_of_ofFloat pz))
  rw [hmiddle] at hnearest
  linarith [mul_pos (sub_pos.mpr hzy) (sub_pos.mpr hxz)]

/-- At most one double without a sign is correctly rounded. -/
theorem RoundsTo.unique (hx : RoundsTo q x) (hy : RoundsTo q y) (sx : x.toBits.toNat < 2 ^ 63)
    (sy : y.toBits.toNat < 2 ^ 63) : x = y := by
  have parts {x : Float} (h : IsFinite x) (s : x.toBits.toNat < 2 ^ 63) :
      ∃ significand shift, Parts.ofFloat x = .finite false significand shift := by
    obtain ⟨negative, significand, shift, hparts⟩ := h.exists_parts
    obtain ⟨-, hbits⟩ := Parts.bits_eq x.toBits.toNat_lt hparts
    cases negative with
    | false => exact ⟨significand, shift, hparts⟩
    | true =>
      rw [if_pos rfl] at hbits
      omega
  obtain ⟨significand, shift, px⟩ := parts hx.isFinite sx
  obtain ⟨significand', shift', py⟩ := parts hy.isFinite sy
  have heq : significand * 2 ^ shift = significand' * 2 ^ shift' :=
    Nat.le_antisymm (Nat.le_of_not_lt (hy.not_lt hx py px)) (Nat.le_of_not_lt (hx.not_lt hy px py))
  obtain ⟨rfl, rfl⟩ := (isDouble_of_ofFloat px).eq_of_value (isDouble_of_ofFloat py) heq
  exact eq_of_ofFloat px py

end

/-! ### Numerals -/

/-- A rational number that is not negative is given as a double in the only correct way: as the
nearest one, ties to even, as infinity from half a unit above the greatest one on, and as zero up
to half a unit above it. There is no sign. -/
structure CorrectlyRounded (q : ℚ) (x : Float) : Prop where
  roundsTo : q < 2 ^ 1024 - 2 ^ 970 → RoundsTo q x
  infinite_iff : Parts.ofFloat x = .infinite false ↔ 2 ^ 1024 - 2 ^ 970 ≤ q
  ne_nan : Parts.ofFloat x ≠ .nan
  unsigned : x.toBits.toNat < 2 ^ 63
  eq_zero_iff : x = 0 ↔ q ≤ 1 / 2 ^ 1075

/-- The nearest double of a fraction rounds it correctly. -/
theorem correctlyRounded_nearest (numerator : Nat) {denominator : Nat} (hd : 0 < denominator) :
    CorrectlyRounded (numerator / denominator) (nearest numerator denominator) where
  roundsTo := roundsTo_nearest numerator hd
  infinite_iff := ofFloat_nearest_infinite numerator hd
  ne_nan := by
    rcases ofFloat_nearest numerator hd with ⟨_, _, hparts, -⟩ | ⟨hparts, -⟩ <;>
      simp [hparts]
  unsigned := toBits_nearest_lt numerator hd
  eq_zero_iff := nearest_eq_zero_iff numerator hd

/-- Infinity without a sign has the bits of infinity. -/
theorem toBits_of_infinite {x : Float} (hx : Parts.ofFloat x = .infinite false) :
    x.toBits.toNat = infinityBits := by
  have hlt := x.toBits.toNat_lt
  simp only [Parts.ofFloat, Parts.ofBits, Nat.pow_eq] at hx
  generalize x.toBits.toNat = bits at hx hlt ⊢
  simp only [infinityBits, Nat.pow_eq]
  split at hx
  · split at hx
    · have hsign : bits / 2 ^ 63 % 2 ≠ 1 := by simpa using hx
      omega
    · contradiction
  · split at hx <;> contradiction

/-- There is one double that rounds a value correctly. -/
theorem CorrectlyRounded.unique {q : ℚ} {x y : Float} (hx : CorrectlyRounded q x)
    (hy : CorrectlyRounded q y) : x = y := by
  by_cases hlt : q < 2 ^ 1024 - 2 ^ 970
  · exact (hx.roundsTo hlt).unique (hy.roundsTo hlt) hx.unsigned hy.unsigned
  · have hle := le_of_not_gt hlt
    have hbits := toBits_of_infinite (hx.infinite_iff.mpr hle)
    rw [← toBits_of_infinite (hy.infinite_iff.mpr hle)] at hbits
    exact eq_of_toBits (UInt64.toNat_inj.mp hbits)

/-- The text of a number: digits, and a point and more digits if there are more. -/
def numeral (whole decimals : List Char) : List Char :=
  if decimals = [] then whole else whole ++ '.' :: decimals

/-- The rational number that digits before and after a point denote. -/
def decimalValue (whole decimals : List Char) : ℚ :=
  Nat.ofDigitChars 10 whole 0 + Nat.ofDigitChars 10 decimals 0 / 10 ^ decimals.length

/-- A numeral is read as what it denotes, correctly rounded. -/
theorem correctlyRounded_read {whole : List Char} (hwhole : '.' ∉ whole) (decimals : List Char) :
    CorrectlyRounded (decimalValue whole decimals) (read (numeral whole decimals)) := by
  obtain ⟨hfraction, hd⟩ : ((fractionOf (numeral whole decimals)).1 /
      (fractionOf (numeral whole decimals)).2 : ℚ) = decimalValue whole decimals ∧
        0 < (fractionOf (numeral whole decimals)).2 := by
    unfold numeral
    split
    · next hnone =>
      subst hnone
      rw [fractionOf_whole hwhole, naturalOf_eq]
      simp [decimalValue]
    · rw [fractionOf_decimal hwhole]
      refine ⟨?_, Nat.pow_pos (by decide)⟩
      have hten : (10 : ℚ) ^ decimals.length ≠ 0 := pow_ne_zero _ (by norm_num)
      rw [naturalOf_eq, Nat.ofDigitChars_append, Nat.ofDigitChars_eq_ofDigitChars_zero,
        decimalValue]
      push_cast
      field_simp
  rw [← hfraction]
  exact correctlyRounded_nearest _ hd

end Lox.Number
