import ComponentGraph.Document.Number
import Mathlib.Algebra.Order.Field.Power
import Mathlib.Tactic.Linarith
import Mathlib.Tactic.Ring

/-!
# Integers that become doubles

An integer from `2 ^ 63` on is not kept as an integer. It becomes the double that is nearest to it
among all finite doubles, of two that are equally near the one with the even significand. Doubles of
that size are the multiples of `2 ^ 11`, and conversion cuts off eleven binary digits and rounds.
-/

set_option autoImplicit false

namespace ComponentGraph

open Float.Model Float.Model.UnpackedFloat
open Float.Model.Format (binary64 mantissaBits minExponent targetExponent)

namespace Binary64

/-- The significand `m` and the exponent `e` of a finite double, which is `m * 2 ^ e`. -/
def dyadic? (x : Float) : Option (Int × Int) :=
  match x.toModel.unpack with
  | .zero _ => some (0, 0)
  | .finite sign m e _ => some (sign.apply m, e)
  | .infinity _ | .notANumber => none

/-- Every finite double is farther from `n` than `x`, or as far and then `x` has the same value or
an even significand. -/
def Nearest (n : Int) (x : Float) : Prop :=
  ∃ m e, dyadic? x = some (m, e) ∧ ∀ y m' e', dyadic? y = some (m', e') →
    |(m * 2 ^ e - n : ℚ)| < |(m' * 2 ^ e' - n : ℚ)| ∨
      |(m * 2 ^ e - n : ℚ)| = |(m' * 2 ^ e' - n : ℚ)| ∧
        ((m * 2 ^ e : ℚ) = m' * 2 ^ e' ∨ Even m)

/-! ## Rounding -/

/-- The integer `r` is nearest to `m / d`, and even if it is halfway between two. -/
structure Rounds (m d r : Int) : Prop where
  lower : (2 * r - 1) * d ≤ 2 * m
  upper : 2 * m ≤ (2 * r + 1) * d
  even_of_tie : 2 * m = (2 * r - 1) * d ∨ 2 * m = (2 * r + 1) * d → Even r

theorem Rounds.nearest {m d r : Int} (h : Rounds m d r) (k : Int) :
    |r * d - m| < |k * d - m| ∨ |r * d - m| = |k * d - m| ∧ (r = k ∨ Even r) := by
  have hd : 0 ≤ d := by linarith [h.lower, h.upper]
  have hnear : 2 * |r * d - m| ≤ d := by
    rcases abs_cases (r * d - m) with ⟨he, _⟩ | ⟨he, _⟩ <;> linarith [h.lower, h.upper]
  by_cases hk : r = k
  · exact .inr ⟨by rw [hk], .inl hk⟩
  have hfar : d ≤ 2 * |k * d - m| := by
    rcases lt_or_gt_of_ne hk with hlt | hlt
    · have := mul_le_mul_of_nonneg_right (Int.add_one_le_of_lt hlt) hd
      linarith [le_abs_self (k * d - m), h.upper]
    · have := mul_le_mul_of_nonneg_right (Int.add_one_le_of_lt hlt) hd
      linarith [neg_abs_le (k * d - m), h.lower]
  rcases (show |r * d - m| ≤ |k * d - m| by omega).lt_or_eq with hlt | heq
  · exact .inl hlt
  · have htie : 2 * |r * d - m| = d := by omega
    refine .inr ⟨heq, .inr (h.even_of_tie ?_)⟩
    rcases abs_cases (r * d - m) with ⟨he, _⟩ | ⟨he, _⟩
    · left; linarith
    · right; linarith

theorem shiftRight_exact (m k : Nat) :
    (⟨m, false, false⟩ : ExtendedMantissa) >>> (k + 1) =
      ⟨m / 2 ^ (k + 1), m / 2 ^ k % 2 != 0, m % 2 ^ k != 0⟩ := by
  induction k with
  | zero =>
    rw [pow_zero, Nat.mod_one, Nat.div_one]
    rfl
  | succ k ih =>
    have hsticky : (m / 2 ^ k % 2 != 0 || m % 2 ^ k != 0) = (m % 2 ^ (k + 1) != 0) := by
      have hpos : 2 ^ k ≠ 0 := by positivity
      rw [Nat.mod_pow_succ, Bool.eq_iff_iff]
      simp only [Bool.or_eq_true, bne_iff_ne, ne_eq, Nat.add_eq_zero_iff, Nat.mul_eq_zero, hpos,
        false_or]
      tauto
    change ((⟨m, false, false⟩ : ExtendedMantissa) >>> (k + 1)).shiftRightOne = _
    rw [ih, ExtendedMantissa.shiftRightOne, Nat.div_div_eq_div_mul, ← pow_succ, hsticky]

/-- The digit `b` is cut off, and `s` below it. -/
theorem rounds_roundedMantissa {q b s h : Nat} (hb : b < 2) (hs : s < h) :
    Rounds ((2 * q + b) * h + s : Nat) (2 * h : Nat)
      (⟨q, b != 0, s != 0⟩ : ExtendedMantissa).roundedMantissa := by
  have hhalf : (s : Int) < h := by exact_mod_cast hs
  obtain rfl | rfl : b = 0 ∨ b = 1 := by omega
  · have hdown : (⟨q, 0 != 0, s != 0⟩ : ExtendedMantissa).roundedMantissa = q := by
      cases s != 0 <;> rfl
    rw [hdown]
    push_cast
    refine ⟨by linarith, by linarith, ?_⟩
    rintro (htie | htie) <;> exfalso <;> linarith
  · rcases Nat.eq_zero_or_pos s with rfl | hpos
    · -- Halfway, an odd `q` is rounded up.
      change Rounds _ _ ((q + q % 2 : Nat) : Int)
      have heven : Even ((q + q % 2 : Nat) : Int) := by
        rw [Int.even_coe_nat, Nat.even_iff]
        omega
      rcases Nat.mod_two_eq_zero_or_one q with hq | hq <;> rw [hq] at heven ⊢ <;> push_cast at *
      all_goals exact ⟨by linarith, by linarith, fun _ => heven⟩
    · have hup : (⟨q, 1 != 0, s != 0⟩ : ExtendedMantissa).roundedMantissa = q + 1 := by
        rw [bne_iff_ne.mpr hpos.ne']
        rfl
      have hpos' : (0 : Int) < s := by exact_mod_cast hpos
      rw [hup]
      push_cast
      refine ⟨by linarith, by linarith, ?_⟩
      rintro (htie | htie) <;> exfalso <;> linarith

theorem rounds_shiftRight (m k : Nat) :
    Rounds m (2 ^ (k + 1) : Nat)
      ((⟨m, false, false⟩ : ExtendedMantissa) >>> (k + 1)).roundedMantissa := by
  have hm : (2 * (m / 2 ^ (k + 1)) + m / 2 ^ k % 2) * 2 ^ k + m % 2 ^ k = m := by
    rw [pow_succ, ← Nat.div_div_eq_div_mul, Nat.div_add_mod, Nat.div_add_mod']
  have h := rounds_roundedMantissa (q := m / 2 ^ (k + 1))
    (Nat.mod_lt (m / 2 ^ k) Nat.two_pos) (Nat.mod_lt m (Nat.two_pow_pos k))
  rwa [hm, ← pow_succ', ← shiftRight_exact] at h

/-! ## Significands and exponents -/

theorem toNat_one_append {k : Nat} (m : BitVec k) : (1#1 ++ m).toNat = 2 ^ k + m.toNat := by
  rw [BitVec.toNat_append, ← Nat.shiftLeft_add_eq_or_of_lt m.isLt, Nat.shiftLeft_eq,
    BitVec.toNat_ofNat, pow_one, Nat.mod_succ, one_mul]

theorem toNat_one_append_pos {k : Nat} (m : BitVec k) : 0 < (1#1 ++ m).toNat := by
  rw [toNat_one_append]
  exact Nat.add_pos_left (Nat.two_pow_pos k) _

section Unpack

variable {spec : Float.Model.Format} {b : BitVec spec.numBits}

theorem unpack_special (hmax : unpackExponent b = -1#_) :
    UnpackedFloat.unpack spec b = .infinity (.ofBitVec (unpackSign b)) ∨
      UnpackedFloat.unpack spec b = .notANumber := by
  by_cases hm : unpackMantissa b = 0#_
  · exact .inl ((if_pos hmax).trans (if_pos hm))
  · exact .inr ((if_pos hmax).trans (if_neg hm))

theorem unpack_zero (hmax : unpackExponent b ≠ -1#_) (hzero : unpackExponent b = 0#_)
    (hm : unpackMantissa b = 0#_) :
    UnpackedFloat.unpack spec b = .zero (.ofBitVec (unpackSign b)) :=
  (if_neg hmax).trans ((if_pos hzero).trans (dif_pos hm))

theorem exists_unpack_subnormal (hmax : unpackExponent b ≠ -1#_) (hzero : unpackExponent b = 0#_)
    (hm : unpackMantissa b ≠ 0#_) :
    ∃ e hpos, UnpackedFloat.unpack spec b =
      .finite (.ofBitVec (unpackSign b)) (unpackMantissa b).toNat e hpos :=
  ⟨_, _, (if_neg hmax).trans ((if_pos hzero).trans (dif_neg hm))⟩

theorem unpack_normal (hmax : unpackExponent b ≠ -1#_) (hzero : unpackExponent b ≠ 0#_) :
    UnpackedFloat.unpack spec b = .finite (.ofBitVec (unpackSign b)) (1#1 ++ unpackMantissa b).toNat
      ((unpackExponent b).toNat - (spec.exponentBias + spec.mantissaBitsWithoutImplicit))
      (toNat_one_append_pos _) :=
  (if_neg hmax).trans (if_neg hzero)

theorem lt_of_unpack_eq_finite {sign : Sign} {m : Nat} {e : Int} {hpos : 0 < m}
    (h : UnpackedFloat.unpack spec b = .finite sign m e hpos) : m < 2 ^ spec.mantissaBits := by
  have hfraction := (unpackMantissa b).isLt
  change m < 2 ^ (1 + spec.mantissaBitsWithoutImplicit)
  rw [pow_add, pow_one]
  by_cases hmax : unpackExponent b = -1#_
  · obtain hb | hb := unpack_special hmax <;> cases h.symm.trans hb
  by_cases hzero : unpackExponent b = 0#_
  · by_cases hm : unpackMantissa b = 0#_
    · cases h.symm.trans (unpack_zero hmax hzero hm)
    · obtain ⟨_, _, hb⟩ := exists_unpack_subnormal hmax hzero hm
      injection h.symm.trans hb with _ hm
      omega
  · injection h.symm.trans (unpack_normal hmax hzero) with _ hm
    rw [toNat_one_append] at hm
    omega

theorem unpackSign_components (sign : Sign) (e : BitVec spec.exponentBits)
    (m : BitVec spec.mantissaBitsWithoutImplicit) :
    Sign.ofBitVec (unpackSign (packComponents spec sign e m)) = sign := by
  have hsign : unpackSign (packComponents spec sign e m) = sign.toBitVec := by
    change BitVec.cast _ (BitVec.extractLsb _ _ (sign.toBitVec ++ e ++ m)) = _
    ext i hi
    obtain rfl : i = 0 := by omega
    simp [BitVec.getLsbD_append, BitVec.getElem_append]
  rw [hsign]
  cases sign <;> rfl

theorem unpack_packComponents {sign : Sign} {e : BitVec spec.exponentBits}
    {m : BitVec spec.mantissaBitsWithoutImplicit} (hzero : e ≠ 0#_) (hmax : e ≠ -1#_) :
    UnpackedFloat.unpack spec (packComponents spec sign e m) =
      .finite sign (1#1 ++ m).toNat
        (e.toNat - (spec.exponentBias + spec.mantissaBitsWithoutImplicit))
        (toNat_one_append_pos m) := by
  have h := unpack_normal (b := packComponents spec sign e m)
  rw [unpackExponent_packComponents, unpackMantissa_packComponents, unpackSign_components] at h
  exact h hmax hzero

end Unpack

theorem unpack_pack (x : UnpackedFloat) :
    (Float.ofModel (.pack x)).toModel.unpack =
      UnpackedFloat.unpack .binary64 (UnpackedFloat.pack .binary64 x) :=
  rfl

theorem pack_finite {spec : Float.Model.Format} {sign : Sign} {m : Nat} {e : Int} {hpos : 0 < m} :
    UnpackedFloat.pack spec (.finite sign m e hpos) =
      if 2 ^ spec.exponentBits ≤
          (e + spec.exponentBias + spec.mantissaBitsWithoutImplicit).toNat + 1 then
        packedInfinity spec sign
      else if m.log2 + 1 = spec.mantissaBits then
        packComponents spec sign
          (.ofNat _ (e + spec.exponentBias + spec.mantissaBitsWithoutImplicit).toNat) (.ofNat _ m)
      else packComponents spec sign 0#_ (.ofNat _ m) :=
  rfl

theorem dyadic?_pack {m k : Nat} (hm : m.log2 = 52) (hk : k < 971) (hpos : 0 < m) :
    dyadic? (.ofModel (.pack (.finite .positive m k hpos))) = some (↑m, ↑k) := by
  obtain ⟨hlower, hupper⟩ := (Nat.log2_eq_iff hpos.ne').mp hm
  have hexponent : (BitVec.ofNat 11 (k + 1075)).toNat = k + 1075 := Nat.mod_eq_of_lt (by omega)
  have hsignificand : (1#1 ++ BitVec.ofNat 52 m).toNat = m := by
    rw [toNat_one_append, BitVec.toNat_ofNat]
    omega
  have hpack : UnpackedFloat.pack .binary64 (.finite .positive m k hpos) =
      packComponents .binary64 .positive (.ofNat 11 (k + 1075)) (.ofNat 52 m) := by
    have hfits : ¬2 ^ 11 ≤ k + 1075 + 1 := by omega
    have hbiased : (k + (binary64.exponentBias : Int) +
        (binary64.mantissaBitsWithoutImplicit : Int)).toNat = k + 1075 := rfl
    rw [pack_finite, hbiased, hm, if_neg hfits]
    exact if_pos rfl
  have hzero : BitVec.ofNat 11 (k + 1075) ≠ 0#11 := by
    rw [← BitVec.toNat_ne_iff_ne, hexponent]
    exact Nat.succ_ne_zero _
  have hmax : BitVec.ofNat 11 (k + 1075) ≠ -1#11 := by
    rw [← BitVec.toNat_ne_iff_ne, hexponent]
    change _ ≠ 2047
    omega
  have hbias : ((BitVec.ofNat 11 (k + 1075)).toNat : Int) - (binary64.exponentBias +
      binary64.mantissaBitsWithoutImplicit) = k := by
    rw [hexponent]
    change ((k + 1075 : Nat) : Int) - 1075 = k
    omega
  rw [dyadic?, unpack_pack, hpack, unpack_packComponents hzero hmax]
  exact congrArg₂ (fun m e => some (m, e)) (congrArg Int.ofNat hsignificand) hbias

theorem abs_lt_of_dyadic? {x : Float} {m e : Int} (h : dyadic? x = some (m, e)) :
    |m| < 2 ^ 53 := by
  unfold dyadic? at h
  split at h
  · cases h
    decide
  · next sign significand e _ hunpack =>
    cases h
    have hlt : significand < 2 ^ 53 := lt_of_unpack_eq_finite hunpack
    rw [abs_lt]
    cases sign <;> simp only [Sign.apply] <;> omega
  · cases h
  · cases h

/-! ## Conversion -/

theorem shiftToTargetExponent_exact {m k : Nat} {e : Int} (hm : m.log2 = 52 + k) (he : 0 ≤ e + k) :
    shiftToTargetExponent .binary64 m e .exact =
      ((⟨m, false, false⟩ : ExtendedMantissa) >>> k, e + k) := by
  have htarget : binary64.targetExponent (totalExponent m e) = e + k := by
    have hbits : binary64.mantissaBits = 53 := rfl
    rw [targetExponent, totalExponent, hm, minExponent, hbits]
    norm_num
    omega
  have hshift : (e + k - e).toNat = k := by omega
  rw [shiftToTargetExponent, htarget, shiftToExponent, hshift]
  rfl

/-- A significand that is rounded up to `2 ^ 53` is halved. -/
theorem exists_shiftToTargetExponent {r : Nat} (hlower : 2 ^ 52 ≤ r) (hupper : r ≤ 2 ^ 53) :
    ∃ m k : Nat, shiftToTargetExponent .binary64 r 11 .exact = (⟨m, false, false⟩, ↑k) ∧
      m.log2 = 52 ∧ k < 971 ∧ m * 2 ^ k = r * 2048 ∧ (Even r → Even m) := by
  obtain hlt | rfl : r < 2 ^ 53 ∨ r = 2 ^ 53 := by omega
  · have hlog : r.log2 = 52 := (Nat.log2_eq_iff (by omega)).mpr ⟨hlower, hlt⟩
    exact ⟨r, 11, shiftToTargetExponent_exact (k := 0) hlog (by decide), hlog, by decide, rfl, id⟩
  · exact ⟨2 ^ 52, 12, shiftToTargetExponent_exact (k := 1) Nat.log2_two_pow (by decide),
      Nat.log2_two_pow, by decide, rfl, fun _ => by decide⟩

theorem mul_finite {spec : Float.Model.Format} {s s' : Sign} {m m' : Nat} {e e' : Int}
    {hpos : 0 < m} {hpos' : 0 < m'} :
    UnpackedFloat.mul spec (.finite s m e hpos) (.finite s' m' e' hpos') =
      roundWithAccuracy spec (s * s') (m * m') (e + e') .exact :=
  rfl

theorem ofInt_eq_pack {n : Nat} (h : 2 ^ 53 ≤ n) :
    Float.ofInt n =
      .ofModel (.pack (roundWithAccuracy .binary64 .positive (n <<< 53) (-53) .exact)) := by
  have hexact : ¬(n < 2 ^ 53 ∧ 0 ≤ 22) := by omega
  have hscientific : Float.ofInt n = .ofModel (.pack (UnpackedFloat.ofScientific .binary64 n 0)) :=
    dif_neg hexact
  have hzero : n ≠ 0 := by omega
  have hlow : ¬(0 : Int) < -(2 ^ binary64.exponentBits + n.log2) := by
    change ¬(0 : Int) < -(2048 + n.log2)
    omega
  rw [hscientific, UnpackedFloat.ofScientific, dif_neg hzero, if_neg (by decide), if_neg hlow,
    if_pos (le_refl 0), mul_finite, Int.toNat_zero, pow_zero, mul_one]
  rfl

theorem exists_dyadic?_ofInt {n : Nat} (hlower : 2 ^ 63 ≤ n) (hupper : n < 2 ^ 64) :
    ∃ r m e : Int, Rounds n 2048 r ∧ dyadic? (Float.ofInt n) = some (m, e) ∧
      (m * 2 ^ e : ℚ) = r * 2048 ∧ (Even r → Even m) := by
  -- The model writes the integer with 53 digits more, and so it cuts off 64.
  obtain ⟨r, hr⟩ :
      ∃ r, ((⟨n <<< 53, false, false⟩ : ExtendedMantissa) >>> 64).roundedMantissa = r := ⟨_, rfl⟩
  have hrounds : Rounds n 2048 r := by
    obtain ⟨hrl, hru, heven⟩ := hr ▸ rounds_shiftRight (n <<< 53) 63
    rw [Nat.shiftLeft_eq] at *
    push_cast at *
    exact ⟨by omega, by omega, fun htie => heven (by omega)⟩
  have hrl := hrounds.lower
  have hru := hrounds.upper
  obtain ⟨m, k, hcarry, hlog, hk, hvalue, heven⟩ :=
    exists_shiftToTargetExponent (r := r) (by omega) (by omega)
  have hpos : 0 < m := Nat.pos_of_ne_zero (by rintro rfl; cases hlog)
  have hround : roundWithAccuracy .binary64 .positive (n <<< 53) (-53) .exact =
      .finite .positive m k hpos := by
    have hcut : (n <<< 53).log2 = 52 + 64 := by
      rw [Nat.log2_eq_iff (by rw [Nat.shiftLeft_eq]; omega), Nat.shiftLeft_eq]
      omega
    rw [roundWithAccuracy, shiftToTargetExponent_exact hcut (by decide)]
    dsimp only
    rw [hr, show (-53 : Int) + (64 : Nat) = 11 by rfl, hcarry]
    exact dif_neg hpos.ne'
  refine ⟨r, m, k, hrounds, ?_, by exact_mod_cast hvalue, by exact_mod_cast heven⟩
  rw [ofInt_eq_pack (by omega), hround, dyadic?_pack hlog hk]

/-- A double from `2 ^ 63` on is a multiple of `2 ^ 11`, and one below is no nearer to `n` than
`2 ^ 63` is. -/
theorem Rounds.nearest_dyadic {n r m e : Int} (hn : 2 ^ 63 ≤ n) (h : Rounds n 2048 r)
    (hm : |m| < 2 ^ 53) :
    |(r * 2048 - n : ℚ)| < |(m * 2 ^ e - n : ℚ)| ∨
      |(r * 2048 - n : ℚ)| = |(m * 2 ^ e - n : ℚ)| ∧ ((r * 2048 : ℚ) = m * 2 ^ e ∨ Even r) := by
  rcases le_or_gt 11 e with he | he
  · obtain ⟨k, rfl⟩ := Int.le.dest he
    have hvalue : (m * 2 ^ (11 + (k : Int)) : ℚ) = (m * 2 ^ k : Int) * 2048 := by
      rw [zpow_add₀ two_ne_zero, zpow_natCast]
      push_cast
      ring
    rw [hvalue]
    rcases h.nearest (m * 2 ^ k) with hlt | ⟨heq, hsame⟩
    · exact .inl (by exact_mod_cast hlt)
    · refine .inr ⟨by exact_mod_cast heq, hsame.imp_left ?_⟩
      rintro rfl
      rfl
  · left
    have hvalue : (m * 2 ^ e : ℚ) < 2 ^ 63 := by
      have hm' : |(m : ℚ)| < 2 ^ 53 := by exact_mod_cast hm
      have hpow : (2 : ℚ) ^ e ≤ 2 ^ (10 : Int) :=
        zpow_le_zpow_right₀ one_le_two (Int.le_of_lt_add_one he)
      norm_cast at hpow
      calc (m * 2 ^ e : ℚ)
        _ ≤ |(m : ℚ)| * 2 ^ e := mul_le_mul_of_nonneg_right (le_abs_self _) (by positivity)
        _ ≤ |(m : ℚ)| * 2 ^ 10 := mul_le_mul_of_nonneg_left hpow (abs_nonneg _)
        _ < 2 ^ 63 := by linarith
    have hbelow : |r * 2048 - n| ≤ n - 2 ^ 63 := by
      have hnear := h.nearest (2 ^ 52)
      rw [abs_of_nonpos (by omega : (2 : Int) ^ 52 * 2048 - n ≤ 0)] at hnear
      omega
    calc |(r * 2048 - n : ℚ)|
      _ ≤ n - 2 ^ 63 := by exact_mod_cast hbelow
      _ < n - m * 2 ^ e := by linarith
      _ ≤ |(m * 2 ^ e - n : ℚ)| := by
        rw [abs_sub_comm]
        exact le_abs_self _

theorem nearest_ofInt {n : Int} (hlower : 2 ^ 63 ≤ n) (hupper : n < 2 ^ 64) :
    Nearest n (.ofInt n) := by
  obtain ⟨n, rfl⟩ := Int.eq_ofNat_of_zero_le (by omega : 0 ≤ n)
  obtain ⟨r, m, e, hrounds, hdyadic, hvalue, heven⟩ :=
    exists_dyadic?_ofInt (n := n) (by omega) (by omega)
  refine ⟨m, e, hdyadic, ?_⟩
  intro y m' e' hy
  rw [hvalue]
  exact (hrounds.nearest_dyadic hlower (abs_lt_of_dyadic? hy)).imp_right
    (And.imp_right (Or.imp_right heven))

end Binary64

namespace Number

/-- The number as configurations can hold it. -/
def widen : Number → Number
  | integer value lower upper =>
    if value < 0x8000000000000000 then integer value lower upper else double (.ofInt value)
  | double value => double value

inductive Widens : Number → Number → Prop
  | kept {value : Int} {lower : -0x8000000000000000 ≤ value} {upper : value < 0x10000000000000000} :
    value < 0x8000000000000000 → Widens (integer value lower upper) (integer value lower upper)
  | rounded {value : Int} {lower : -0x8000000000000000 ≤ value}
    {upper : value < 0x10000000000000000} {x : Float} :
    0x8000000000000000 ≤ value → Binary64.Nearest value x →
    Widens (integer value lower upper) (double x)
  | double {value : Float} : Widens (double value) (double value)

theorem widens_widen (n : Number) : n.Widens n.widen := by
  cases n with
  | integer value lower upper =>
    rw [widen]
    split
    · next h => exact .kept h
    · next h =>
      have h : 0x8000000000000000 ≤ value := by omega
      exact .rounded h (Binary64.nearest_ofInt h upper)
  | double value => exact .double

end Number

end ComponentGraph
