import Mathlib
import Lox.Proofs.Number.Printing

/-!
# Floating-point numbers by their parts

Arithmetic works on unpacked numbers: a sign, a significand and an exponent of two. They are
the same parts as those of `Parts`, and packing gives the bits they were taken from. So a
number is known by its parts, and negation, magnitude and order can be told from them.
-/

namespace Lox.Number

open Float.Model (UnpackedFloat Format)
open Float.Model.UnpackedFloat (Sign unpackExponent unpackExponent_def unpackMantissa
  unpackMantissa_def unpackSign unpackSign_def pack_unpack_of_valid)

/-- A sign as arithmetic has it. -/
def signFor (negative : Bool) : Sign := if negative then .negative else .positive

/-- Parts as arithmetic has them. It keeps zero apart from the other finite numbers. -/
def Parts.unpacked : Parts → UnpackedFloat
  | .nan => .notANumber
  | .infinite negative => .infinity (signFor negative)
  | .finite negative significand shift =>
    if h : significand = 0 then .zero (signFor negative)
    else
      .finite (signFor negative) significand (shift - unitExponent) (Nat.pos_of_ne_zero h)

/-! ### Unpacking and packing -/

/-- The low 52 bits are the mantissa. -/
theorem toNat_unpackMantissa (b : BitVec 64) :
    (@unpackMantissa .binary64 b).toNat = b.toNat % 2 ^ 52 := by
  simp [unpackMantissa_def]

/-- The 11 bits above them are the exponent. -/
theorem toNat_unpackExponent (b : BitVec 64) :
    (@unpackExponent .binary64 b).toNat = b.toNat / 2 ^ 52 % 2 ^ 11 := by
  simp [unpackExponent_def, Nat.shiftRight_eq_div_pow]

/-- The highest bit is the sign. -/
theorem toNat_unpackSign (b : BitVec 64) :
    (@unpackSign .binary64 b).toNat = b.toNat / 2 ^ 63 % 2 := by
  simp [unpackSign_def, Nat.shiftRight_eq_div_pow]

/-- The sign is negative if its bit is set. -/
theorem ofBitVec_eq (b : BitVec 1) : Sign.ofBitVec b = signFor (b.toNat == 1) := by
  rcases BitVec.eq_zero_or_eq_one b with rfl | rfl <;> rfl

/-- Unpacking gives the parts of the bits. -/
theorem unpack_eq (b : BitVec 64) :
    UnpackedFloat.unpack .binary64 b = (Parts.ofBits b.toNat).unpacked := by
  have hmost : @unpackExponent .binary64 b = -1#11 ↔ b.toNat / 2 ^ 52 % 2 ^ 11 = 2047 := by
    rw [← BitVec.toNat_inj, toNat_unpackExponent]
    rfl
  have hleast : @unpackExponent .binary64 b = 0#11 ↔ b.toNat / 2 ^ 52 % 2 ^ 11 = 0 := by
    rw [← BitVec.toNat_inj, toNat_unpackExponent]
    rfl
  have hfraction : @unpackMantissa .binary64 b = 0#52 ↔ b.toNat % 2 ^ 52 = 0 := by
    rw [← BitVec.toNat_inj, toNat_unpackMantissa]
    rfl
  have hleading : (1#1 ++ @unpackMantissa .binary64 b).toNat = 2 ^ 52 + b.toNat % 2 ^ 52 := by
    rw [BitVec.toNat_append, ← Nat.shiftLeft_add_eq_or_of_lt (BitVec.isLt _),
      toNat_unpackMantissa]
    rfl
  have hbias : ((Format.binary64.exponentBias : Int) +
      Format.binary64.mantissaBitsWithoutImplicit) = 1075 := rfl
  simp only [UnpackedFloat.unpack, ofBitVec_eq, toNat_unpackSign, toNat_unpackExponent,
    toNat_unpackMantissa, Parts.ofBits, Nat.pow_eq, hmost, hleast, hfraction, hleading, hbias]
  by_cases hfield : b.toNat / 2 ^ 52 % 2 ^ 11 = 2047
  · simp only [hfield, if_true]
    by_cases hzero : b.toNat % 2 ^ 52 = 0
    · simp only [hzero, if_true]
      rfl
    · simp only [hzero, if_false]
      rfl
  · simp only [hfield, if_false]
    by_cases hsubnormal : b.toNat / 2 ^ 52 % 2 ^ 11 = 0
    · simp only [hsubnormal, if_true, Parts.unpacked]
      rfl
    · simp only [hsubnormal, if_false, Parts.unpacked]
      rw [dif_neg (by omega)]
      simp only [UnpackedFloat.finite.injEq, true_and, unitExponent]
      omega

/-- The bits of a finite double are taken apart into what they were made of. -/
theorem Parts.ofBits_bitsOf {significand shift : Nat} (h : IsDouble significand shift)
    (negative : Bool) :
    Parts.ofBits ((if negative then 2 ^ 63 else 0) + bitsOf significand shift) =
      .finite negative significand shift := by
  have hlt := h.significand_lt
  have hshift := h.shift_le
  generalize hbits : (if negative then 2 ^ 63 else 0) + bitsOf significand shift = bits
  rw [bitsOf] at hbits
  obtain ⟨hsign, hrest⟩ : (bits / 2 ^ 63 % 2 == 1) = negative ∧
      bits % 2 ^ 63 = shift * 2 ^ 52 + significand := by
    cases negative
    · rw [if_neg Bool.false_ne_true] at hbits
      rw [beq_eq_false_iff_ne]
      omega
    · rw [if_pos rfl] at hbits
      rw [beq_iff_eq]
      omega
  simp only [Parts.ofBits, Nat.pow_eq, hsign]
  by_cases hleading : 2 ^ 52 ≤ significand
  · rw [if_neg (by omega), if_neg (by omega)]
    simp only [Parts.finite.injEq, true_and]
    omega
  · have hleast : shift = 0 := by
      by_contra hne
      exact hleading (h.le_significand hne)
    rw [if_neg (by omega), if_pos (by omega)]
    simp only [Parts.finite.injEq, true_and]
    omega

/-- Packing gives the bits of the parts. -/
theorem toNat_pack {significand shift : Nat} (h : IsDouble significand shift) (negative : Bool) :
    (UnpackedFloat.pack .binary64 (Parts.finite negative significand shift).unpacked).toNat =
      (if negative then 2 ^ 63 else 0) + bitsOf significand shift := by
  have hparts := Parts.ofBits_bitsOf h negative
  have hlt := h.significand_lt
  have hshift := h.shift_le
  generalize hbits : (if negative then 2 ^ 63 else 0) + bitsOf significand shift = bits at *
  rw [bitsOf] at hbits
  have htoNat : (BitVec.ofNat 64 bits).toNat = bits := by
    rw [BitVec.toNat_ofNat]
    split at hbits <;> omega
  have hunpack := unpack_eq (BitVec.ofNat 64 bits)
  rw [htoNat, hparts] at hunpack
  have hvalid : Format.binary64.Valid (BitVec.ofNat 64 bits) := by
    constructor
    intro hexponent
    have hfield := toNat_unpackExponent (BitVec.ofNat 64 bits)
    rw [hexponent, htoNat] at hfield
    change 2047 = bits / 2 ^ 52 % 2 ^ 11 at hfield
    split at hbits <;> omega
  rw [← hunpack, pack_unpack_of_valid hvalid]
  exact htoNat

section

variable {x y : Float} {negative : Bool} {significand shift : Nat}

/-- A number unpacks to its parts. -/
theorem unpack_toModel (x : Float) : x.toModel.unpack = (Parts.ofFloat x).unpacked :=
  unpack_eq x.toBits.toBitVec

/-- A finite number has parts that a double may have. -/
theorem isDouble_of_ofFloat (h : Parts.ofFloat x = .finite negative significand shift) :
    IsDouble significand shift := (Parts.bits_eq x.toBits.toNat_lt h).1

/-- Finite numbers with the same parts are the same. -/
theorem eq_of_ofFloat (hx : Parts.ofFloat x = .finite negative significand shift)
    (hy : Parts.ofFloat y = .finite negative significand shift) : x = y := by
  obtain ⟨-, hx⟩ := Parts.bits_eq x.toBits.toNat_lt hx
  obtain ⟨-, hy⟩ := Parts.bits_eq y.toBits.toNat_lt hy
  exact eq_of_toBits (UInt64.toNat_inj.mp (hx.trans hy.symm))

/-- A number that is packed has the parts that were packed. -/
theorem ofFloat_pack (h : IsDouble significand shift) :
    Parts.ofFloat (.ofModel (.pack (Parts.finite negative significand shift).unpacked)) =
      .finite negative significand shift :=
  (congrArg Parts.ofBits (toNat_pack h negative)).trans (Parts.ofBits_bitsOf h negative)

/-- The bits of a double are those of its parts. -/
theorem ofFloat_ofBits (h : IsDouble significand shift) :
    Parts.ofFloat (.ofBits (.ofNat (bitsOf significand shift))) =
      .finite false significand shift := by
  have hbits : (UInt64.ofNat (bitsOf significand shift)).toBitVec.toNat =
      bitsOf significand shift := by
    have hle := h.bitsOf_le
    have hlt : infinityBits < 2 ^ 64 := by decide
    change (BitVec.ofNat 64 _).toNat = _
    rw [BitVec.toNat_ofNat]
    omega
  have hparts := Parts.ofBits_bitsOf h false
  rw [if_neg Bool.false_ne_true, Nat.zero_add] at hparts
  have hpacked : Float.ofBits (.ofNat (bitsOf significand shift)) =
      .ofModel (.pack (UnpackedFloat.unpack .binary64
        (UInt64.ofNat (bitsOf significand shift)).toBitVec)) := rfl
  rw [hpacked, unpack_eq, hbits, hparts, ofFloat_pack h]

/-- Negation changes the sign alone. -/
theorem ofFloat_neg (h : Parts.ofFloat x = .finite negative significand shift) :
    Parts.ofFloat (-x) = .finite (!negative) significand shift := by
  have hpacked : -x = .ofModel (.pack x.toModel.unpack.neg) := rfl
  have hneg : (Parts.finite negative significand shift).unpacked.neg =
      (Parts.finite (!negative) significand shift).unpacked := by
    simp only [Parts.unpacked]
    split <;> cases negative <;> rfl
  rw [hpacked, unpack_toModel, h, hneg, ofFloat_pack (isDouble_of_ofFloat h)]

/-- The magnitude has the same parts without the sign. -/
theorem ofFloat_abs (h : Parts.ofFloat x = .finite negative significand shift) :
    Parts.ofFloat x.abs = .finite false significand shift := by
  have hpacked : x.abs = .ofModel (.pack x.toModel.unpack.abs) := rfl
  have habs : (Parts.finite negative significand shift).unpacked.abs =
      (Parts.finite false significand shift).unpacked := by
    simp only [Parts.unpacked]
    split <;> cases negative <;> rfl
  rw [hpacked, unpack_toModel, h, habs, ofFloat_pack (isDouble_of_ofFloat h)]

/-- A number with a significand is finite. -/
theorem isFinite_of_ofFloat (h : Parts.ofFloat x = .finite negative significand shift) :
    IsFinite x := by
  rw [IsFinite, h]
  rfl

/-- The zeros are the numbers without significant digits. -/
theorem eq_zero_iff (h : Parts.ofFloat x = .finite negative significand shift) :
    x = 0 ∨ x = -0 ↔ significand = 0 := by
  have hpositive : Parts.ofFloat 0 = .finite false 0 0 := by decide
  have hnegative : Parts.ofFloat (-0) = .finite true 0 0 := by decide
  constructor
  · rintro (rfl | rfl)
    · cases h.symm.trans hpositive
      rfl
    · cases h.symm.trans hnegative
      rfl
  · rintro rfl
    obtain rfl : shift = 0 := by
      by_contra hne
      have := (isDouble_of_ofFloat h).le_significand hne
      omega
    cases negative
    · exact .inl (eq_of_ofFloat h hpositive)
    · exact .inr (eq_of_ofFloat h hnegative)

end

/-! ### Order -/

/-- Comparison the other way round is swapped. -/
theorem compare_swap (a b : UnpackedFloat) : a.compare b = (b.compare a).map Ordering.swap := by
  cases a with
  | notANumber => cases b <;> rfl
  | infinity s =>
    cases b with
    | notANumber => cases s <;> rfl
    | infinity s' | zero s' | finite s' => cases s <;> cases s' <;> rfl
  | zero s =>
    cases b with
    | notANumber => rfl
    | infinity s' | zero s' | finite s' => cases s' <;> rfl
  | finite s m e =>
    cases b with
    | notANumber => cases s <;> rfl
    | infinity s' | zero s' => cases s <;> cases s' <;> rfl
    | finite s' m' e' =>
      have hswap : (compare e e').then (compare m m') =
          ((compare e' e).then (compare m' m)).swap := by
        rw [Ordering.swap_then, Int.compare_swap, Nat.compare_swap]
      cases s <;> cases s' <;> simp [UnpackedFloat.compare, hswap]

/-- Only what is not a number compares with nothing. -/
theorem compare_eq_none {a b : UnpackedFloat} (h : a.compare b = none) :
    a = .notANumber ∨ b = .notANumber := by
  cases a with
  | notANumber => exact .inl rfl
  | infinity s | zero s | finite s =>
    cases b with
    | notANumber => exact .inr rfl
    | infinity s' | zero s' | finite s' => cases s <;> cases s' <;> contradiction

/-- A finite number is a number. -/
theorem IsFinite.unpack_ne {x : Float} (h : IsFinite x) : x.toModel.unpack ≠ .notANumber := by
  obtain ⟨negative, significand, shift, hparts⟩ := h.exists_parts
  rw [unpack_toModel, hparts, Parts.unpacked]
  split <;> exact nofun

/-- Numbers are less where their parts compare so. -/
theorem float_lt_iff {x y : Float} :
    x < y ↔ x.toModel.unpack.compare y.toModel.unpack = some .lt := by
  have hlt : x < y ↔ x.toModel.unpack.lt y.toModel.unpack = true := decide_eq_true_iff
  rw [hlt, UnpackedFloat.lt, beq_iff_eq]

theorem float_le_iff {x y : Float} :
    x ≤ y ↔ (x.toModel.unpack.compare y.toModel.unpack).any (·.isLE) = true :=
  decide_eq_true_iff

/-- Finite numbers are in order, one way or the other. -/
theorem float_not_lt {x y : Float} (hx : IsFinite x) (hy : IsFinite y) : ¬ y < x ↔ x ≤ y := by
  rw [float_le_iff, float_lt_iff, compare_swap x.toModel.unpack]
  cases h : y.toModel.unpack.compare x.toModel.unpack with
  | none =>
    rcases compare_eq_none h with h | h
    · exact absurd h hy.unpack_ne
    · exact absurd h hx.unpack_ne
  | some o => cases o <;> decide

end Lox.Number
