import Mathlib
import PageScript.Proofs.Integers

/-!
# Rounding to single precision

A mantissa and the two bits that are kept of what is behind it tell where a number is: at the
mantissa, before the middle between it and the next integer, at the middle or past it. This is all
that it takes to round the number. A shift does not lose it, and a quotient is taken with so many
bits that there are at least those of a mantissa in front. The decimal numbers of a script are
rounded once, whichever way they are computed.
-/
namespace PageScript

open Float.Model Float.Model.UnpackedFloat

/-- What a mantissa says of a number that it has been taken from, with the first bit behind it and
whether there are others. -/
def Represents : ExtendedMantissa → ℚ → Prop
  | ⟨m, false, false⟩, u => u = m
  | ⟨m, false, true⟩, u => m < u ∧ u < m + 1 / 2
  | ⟨m, true, false⟩, u => u = m + 1 / 2
  | ⟨m, true, true⟩, u => m + 1 / 2 < u ∧ u < m + 1

/-- The nearest integer, or the even one if there are two. -/
structure RoundsTo (u : ℚ) (k : ℕ) : Prop where
  near : |(k : ℚ) - u| ≤ 1 / 2
  even : |(k : ℚ) - u| = 1 / 2 → Even k

theorem Represents.bounds {em : ExtendedMantissa} {u : ℚ} (h : Represents em u) :
    (em.mantissa : ℚ) ≤ u ∧ u < em.mantissa + 1 := by
  obtain ⟨m, bit, sticky⟩ := em
  cases bit <;> cases sticky <;> simp only [Represents] at h ⊢ <;> constructor <;> linarith

theorem shiftRightOne_even (q : ℕ) (bit sticky : Bool) :
    (⟨2 * q, bit, sticky⟩ : ExtendedMantissa).shiftRightOne = ⟨q, false, bit || sticky⟩ := by
  simp [ExtendedMantissa.shiftRightOne]

theorem shiftRightOne_odd (q : ℕ) (bit sticky : Bool) :
    (⟨2 * q + 1, bit, sticky⟩ : ExtendedMantissa).shiftRightOne = ⟨q, true, bit || sticky⟩ := by
  simp [ExtendedMantissa.shiftRightOne, Nat.add_mod]
  omega

/-- A shift keeps what is behind the mantissa. -/
theorem Represents.shiftRightOne {em : ExtendedMantissa} {u : ℚ} (h : Represents em u) :
    Represents em.shiftRightOne (u / 2) := by
  obtain ⟨m, bit, sticky⟩ := em
  obtain ⟨q, rfl | rfl⟩ := m.even_or_odd'
  · rw [shiftRightOne_even]
    cases bit <;> cases sticky <;> simp only [Represents, Bool.or_false, Bool.or_true] at h ⊢ <;>
      push_cast at h
    · linarith
    · constructor <;> linarith
    · constructor <;> linarith
    · constructor <;> linarith
  · rw [shiftRightOne_odd]
    cases bit <;> cases sticky <;> simp only [Represents, Bool.or_false, Bool.or_true] at h ⊢ <;>
      push_cast at h
    · linarith
    · constructor <;> linarith
    · constructor <;> linarith
    · constructor <;> linarith

theorem Represents.shiftRight {em : ExtendedMantissa} {u : ℚ} (h : Represents em u) (n : ℕ) :
    Represents (em >>> n) (u / 2 ^ n) := by
  change Represents (n.repeat ExtendedMantissa.shiftRightOne em) _
  induction n with
  | zero => simpa [Nat.repeat] using h
  | succ n ih =>
    rw [Nat.repeat, pow_succ, ← div_div]
    exact ih.shiftRightOne

theorem Represents.roundsTo {em : ExtendedMantissa} {u : ℚ} (h : Represents em u) :
    RoundsTo u em.roundedMantissa := by
  obtain ⟨m, bit, sticky⟩ := em
  cases bit <;> cases sticky <;> simp only [Represents] at h <;>
    simp only [ExtendedMantissa.roundedMantissa, ExtendedMantissa.accuracy,
      Accuracy.roundToNearestEven]
  · subst h
    constructor <;> norm_num
  · have hdist : |(m : ℚ) - u| < 1 / 2 := by
      rw [abs_lt]
      constructor <;> linarith
    exact ⟨hdist.le, fun heq => absurd heq hdist.ne⟩
  · subst h
    refine ⟨?_, fun _ => ?_⟩
    · have hbit : m % 2 = 0 ∨ m % 2 = 1 := Nat.mod_two_eq_zero_or_one m
      rcases hbit with hbit | hbit <;> rw [hbit, abs_le] <;> push_cast <;> constructor <;> linarith
    · rw [Nat.even_iff]
      omega
  · have hdist : |((m + 1 : ℕ) : ℚ) - u| < 1 / 2 := by
      rw [abs_lt]
      push_cast
      constructor <;> linarith
    exact ⟨hdist.le, fun heq => absurd heq hdist.ne⟩

/-- An exponent at which a number has all the bits of a mantissa in front of the point. Only the
least exponent may leave it with fewer bits. -/
structure ScaledBy (v : ℚ) (e : ℤ) : Prop where
  least : -149 ≤ e
  below : v < 2 ^ (e + 24)
  full : e = -149 ∨ 2 ^ (e + 23) ≤ v

/-- What is rounded to a mantissa. If that comes to one bit more, the exponent is greater by one. -/
def ofRounded (s : Sign) (k : ℕ) (e : ℤ) : UnpackedFloat :=
  if hk : k = 0 then .zero s
  else if k = 2 ^ 24 then .finite s (2 ^ 23) (e + 1) (by decide)
  else .finite s k e (Nat.pos_of_ne_zero hk)

theorem targetExponent_single (total : ℤ) :
    Format.binary32.targetExponent total = max (total - 24) (-149) := rfl

theorem ScaledBy.quotient_lt {v : ℚ} {e : ℤ} (hv : ScaledBy v e) : v / 2 ^ e < 2 ^ 24 := by
  rw [div_lt_iff₀ (by positivity), ← zpow_natCast, ← zpow_add₀ two_ne_zero, add_comm]
  exact hv.below

theorem RoundsTo.le {u : ℚ} {k : ℕ} (h : RoundsTo u k) (hu : u < 2 ^ 24) : k ≤ 2 ^ 24 := by
  by_contra hlt
  have hk : (2 ^ 24 + 1 : ℚ) ≤ k := by exact_mod_cast Nat.lt_of_not_le hlt
  have hdist := (abs_le.mp h.near).2
  linarith

theorem log2_le_of_lt {k n : ℕ} (hk : k < 2 ^ (n + 1)) : k.log2 ≤ n := by
  by_cases hzero : k = 0
  · subst hzero
    exact Nat.zero_le n
  · exact Nat.le_of_lt_succ ((Nat.log2_lt hzero).mpr hk)

/-- A second shift does nothing if the mantissa is as short as it has to be. -/
theorem shiftToTargetExponent_short {k : ℕ} {e : ℤ} (hk : k < 2 ^ 24) (he : -149 ≤ e) :
    shiftToTargetExponent .binary32 k e .exact = (⟨k, false, false⟩, e) := by
  have hlog : k.log2 ≤ 23 := log2_le_of_lt hk
  have hshift : (max ((k.log2 : ℤ) + 1 + e - 24) (-149) - e).toNat = 0 := by omega
  have hexact := shiftRight_exact k 0
  rw [pow_zero, mul_one] at hexact
  simp only [shiftToTargetExponent, shiftToExponent, totalExponent, targetExponent_single, hshift,
    ExtendedMantissa.ofMantissaAndAccuracy, hexact]
  simp

theorem shiftToTargetExponent_top {e : ℤ} (he : -149 ≤ e) :
    shiftToTargetExponent .binary32 (2 ^ 24) e .exact = (⟨2 ^ 23, false, false⟩, e + 1) := by
  have hlog : (2 ^ 24 : ℕ).log2 = 24 := by decide
  have hshift : (max (((24 : ℕ) : ℤ) + 1 + e - 24) (-149) - e).toNat = 1 := by omega
  have hexact := shiftRight_exact (2 ^ 23) 1
  rw [← pow_add] at hexact
  simp only [shiftToTargetExponent, shiftToExponent, totalExponent, targetExponent_single, hlog,
    hshift, ExtendedMantissa.ofMantissaAndAccuracy, hexact]
  rfl

/-- A number is rounded to a mantissa. -/
def Rounds (s : Sign) (v : ℚ) (r : UnpackedFloat) : Prop :=
  ∃ k e, ScaledBy v e ∧ RoundsTo (v / 2 ^ e) k ∧ r = ofRounded s k e

section Accurate

variable {m : ℕ} {e : ℤ} {acc : Accuracy} {v : ℚ}

/-- The exponent for the bits that there are is the one for the number. -/
theorem scaledBy_target (h : Represents (.ofMantissaAndAccuracy m acc) (v / 2 ^ e))
    (he : e ≤ Format.binary32.targetExponent (totalExponent m e)) :
    ScaledBy v (Format.binary32.targetExponent (totalExponent m e)) := by
  have hmantissa : (ExtendedMantissa.ofMantissaAndAccuracy m acc).mantissa = m := by
    cases acc with
    | exact => rfl
    | inexact o => cases o <;> rfl
  obtain ⟨hlow, hhigh⟩ := h.bounds
  rw [hmantissa] at hlow hhigh
  have hpos : (0 : ℚ) < 2 ^ e := by positivity
  rw [le_div_iff₀ hpos] at hlow
  rw [div_lt_iff₀ hpos] at hhigh
  rw [targetExponent_single, totalExponent] at he ⊢
  refine ⟨le_max_right _ _, ?_, ?_⟩
  · have hbits : (m + 1 : ℚ) ≤ 2 ^ (m.log2 + 1) := by exact_mod_cast Nat.lt_log2_self
    calc v < (m + 1) * 2 ^ e := hhigh
      _ ≤ 2 ^ (m.log2 + 1) * 2 ^ e := by gcongr
      _ = 2 ^ ((m.log2 : ℤ) + 1 + e) := by rw [← zpow_natCast, ← zpow_add₀ two_ne_zero]; rfl
      _ ≤ _ := zpow_le_zpow_right₀ one_le_two (by omega)
  · rcases max_choice ((m.log2 : ℤ) + 1 + e - 24) (-149) with hmax | hmax
    · right
      have hne : m ≠ 0 := by
        rintro rfl
        simp at hmax he
        omega
      have hbits : (2 ^ m.log2 : ℚ) ≤ m := by exact_mod_cast Nat.log2_self_le hne
      calc (2 : ℚ) ^ (max ((m.log2 : ℤ) + 1 + e - 24) (-149) + 23)
          = 2 ^ m.log2 * 2 ^ e := by
            rw [hmax, ← zpow_natCast, ← zpow_add₀ two_ne_zero]
            congr 1
            omega
        _ ≤ m * 2 ^ e := by gcongr
        _ ≤ v := hlow
    · exact .inl hmax

/-- What has been computed with enough bits is rounded to the nearest number. -/
theorem rounds_roundWithAccuracy (s : Sign)
    (h : Represents (.ofMantissaAndAccuracy m acc) (v / 2 ^ e))
    (he : e ≤ Format.binary32.targetExponent (totalExponent m e)) :
    Rounds s v (roundWithAccuracy .binary32 s m e acc) := by
  have hscaled := scaledBy_target h he
  generalize ht : Format.binary32.targetExponent (totalExponent m e) = t at *
  obtain ⟨n, rfl⟩ : ∃ n : ℕ, t = e + n := ⟨(t - e).toNat, by omega⟩
  have hfirst : shiftToTargetExponent .binary32 m e acc =
      (ExtendedMantissa.ofMantissaAndAccuracy m acc >>> n, e + n) := by
    have hshift : (e + n - e).toNat = n := by omega
    simp only [shiftToTargetExponent, shiftToExponent, ht, hshift]
  have hrounds : RoundsTo (v / 2 ^ (e + n))
      (ExtendedMantissa.ofMantissaAndAccuracy m acc >>> n).roundedMantissa := by
    rw [zpow_add₀ two_ne_zero, ← div_div, zpow_natCast]
    exact (h.shiftRight n).roundsTo
  refine ⟨_, _, hscaled, hrounds, ?_⟩
  simp only [roundWithAccuracy, hfirst, ofRounded]
  -- rounding may have made the mantissa longer by one bit
  rcases (hrounds.le hscaled.quotient_lt).lt_or_eq with hshort | htop
  · simp only [shiftToTargetExponent_short hshort hscaled.least, if_neg hshort.ne]
  · simp only [htop, shiftToTargetExponent_top hscaled.least]
    rfl

end Accurate

section Quotient

variable {m₁ m₂ : ℕ}

/-- What a remainder says of a quotient. -/
theorem represents_fraction (n : ℕ) {d : ℕ} (hd : 0 < d) :
    Represents (.ofMantissaAndAccuracy (n / d) (accuracyOfFraction (n % d) d)) (n / d) := by
  have hpos : (0 : ℚ) < d := by exact_mod_cast hd
  have hsplit : (n : ℚ) / d = (n / d : ℕ) + (n % d : ℕ) / d := by
    rw [div_eq_iff hpos.ne', add_mul, div_mul_cancel₀ _ hpos.ne', mul_comm]
    exact_mod_cast (Nat.div_add_mod n d).symm
  have hlt : ((n % d : ℕ) : ℚ) / d < 1 := by
    rw [div_lt_one hpos]
    exact_mod_cast Nat.mod_lt n hd
  rw [hsplit]
  unfold accuracyOfFraction
  by_cases hzero : n % d = 0
  · simp [hzero, ExtendedMantissa.ofMantissaAndAccuracy, Represents]
  have hsome : (0 : ℚ) < ((n % d : ℕ) : ℚ) / d := by
    have hrest : (0 : ℚ) < (n % d : ℕ) := by exact_mod_cast Nat.pos_of_ne_zero hzero
    positivity
  rw [if_neg hzero]
  rcases hcompare : compare (2 * (n % d)) d with _ | _ | _
  · have hhalf : ((n % d : ℕ) : ℚ) / d < 1 / 2 := by
      rw [div_lt_div_iff₀ hpos two_pos, one_mul, mul_comm]
      exact_mod_cast Nat.compare_eq_lt.mp hcompare
    exact ⟨by linarith, by linarith⟩
  · have hhalf : ((n % d : ℕ) : ℚ) / d = 1 / 2 := by
      rw [div_eq_div_iff hpos.ne' two_ne_zero, one_mul, mul_comm]
      exact_mod_cast Nat.compare_eq_eq.mp hcompare
    exact congrArg (_ + ·) hhalf
  · have hhalf : 1 / 2 < ((n % d : ℕ) : ℚ) / d := by
      rw [div_lt_div_iff₀ two_pos hpos, one_mul, mul_comm _ 2]
      exact_mod_cast Nat.compare_eq_gt.mp hcompare
    exact ⟨by linarith, by linarith⟩

/-- Bits are put behind the dividend until there are enough for the quotient. -/
theorem log2_quotient (h₁ : 0 < m₁) (h₂ : 0 < m₂) {n : ℕ} (h : m₂.log2 + 24 ≤ m₁.log2 + n) :
    23 ≤ (m₁ * 2 ^ n / m₂).log2 := by
  have hlow : 2 ^ m₁.log2 ≤ m₁ := Nat.log2_self_le h₁.ne'
  have hhigh : m₂ < 2 ^ (m₂.log2 + 1) := Nat.lt_log2_self
  have hquotient : 2 ^ 23 ≤ m₁ * 2 ^ n / m₂ := by
    rw [Nat.le_div_iff_mul_le h₂]
    calc 2 ^ 23 * m₂ ≤ 2 ^ 23 * 2 ^ (m₂.log2 + 1) := Nat.mul_le_mul_left _ hhigh.le
      _ = 2 ^ (m₂.log2 + 24) := by rw [← pow_add]; congr 1; omega
      _ ≤ 2 ^ (m₁.log2 + n) := Nat.pow_le_pow_right two_pos h
      _ = 2 ^ m₁.log2 * 2 ^ n := pow_add ..
      _ ≤ m₁ * 2 ^ n := Nat.mul_le_mul_right _ hlow
  exact (Nat.le_log2 (by omega)).mpr hquotient

/-- A quotient is taken with as many bits as a mantissa has, or with all that there can be. -/
theorem rounds_div (s : Sign) (h₁ : 0 < m₁) (h₂ : 0 < m₂) (e₁ e₂ : ℤ) :
    let core := divCore .binary32 m₁ e₁ m₂ e₂
    Rounds s (m₁ * 2 ^ e₁ / (m₂ * 2 ^ e₂))
      (roundWithAccuracy .binary32 s core.1 core.2.1 core.2.2) := by
  intro core
  obtain ⟨e, he⟩ : ∃ e, e = min (e₁ - e₂)
    (Format.binary32.targetExponent (totalExponent m₁ e₁ - totalExponent m₂ e₂)) := ⟨_, rfl⟩
  obtain ⟨n, hn⟩ : ∃ n : ℕ, e₁ - e₂ - e = n := ⟨(e₁ - e₂ - e).toNat, by omega⟩
  have hcore : core = (m₁ * 2 ^ n / m₂, e, accuracyOfFraction (m₁ * 2 ^ n % m₂) m₂) := by
    simp only [core, divCore, ← he, hn, Int.toNat_natCast, Nat.shiftLeft_eq]
  rw [hcore]
  refine rounds_roundWithAccuracy s ?_ ?_
  · have hvalue : (m₁ * 2 ^ e₁ / (m₂ * 2 ^ e₂) / 2 ^ e : ℚ) = (m₁ * 2 ^ n : ℕ) / m₂ := by
      have he₁ : e₁ = n + e + e₂ := by omega
      have hne : (m₂ : ℚ) ≠ 0 := by exact_mod_cast h₂.ne'
      rw [he₁, zpow_add₀ two_ne_zero, zpow_add₀ two_ne_zero, zpow_natCast]
      push_cast
      field_simp
    rw [hvalue]
    exact represents_fraction _ h₂
  · rw [targetExponent_single, totalExponent, totalExponent] at he
    rw [targetExponent_single, totalExponent]
    by_cases hleast : e ≤ -149
    · exact hleast.trans (le_max_right _ _)
    · have hbits := @log2_quotient _ _ h₁ h₂ n (by omega)
      refine le_trans ?_ (le_max_left _ _)
      dsimp only
      omega

end Quotient

theorem rounds_zero (s : Sign) : Rounds s 0 (.zero s) := by
  refine ⟨0, -149, ⟨le_rfl, by positivity, .inl rfl⟩, ?_, rfl⟩
  constructor <;> norm_num

/-- What is less than half of the least number is rounded to zero. -/
theorem rounds_tiny (s : Sign) {v : ℚ} (hv : 0 ≤ v) (hlt : v < 2 ^ (-150 : ℤ)) :
    Rounds s v (.zero s) := by
  have hdist : |((0 : ℕ) : ℚ) - v / 2 ^ (-149 : ℤ)| < 1 / 2 := by
    rw [Nat.cast_zero, zero_sub, abs_neg, abs_of_nonneg (by positivity),
      div_lt_iff₀ (by positivity)]
    exact hlt.trans_eq (by norm_num)
  refine ⟨0, -149, ⟨le_rfl, hlt.trans ?_, .inl rfl⟩, ⟨hdist.le, fun heq => ?_⟩, rfl⟩
  · exact zpow_lt_zpow_right₀ one_lt_two (by norm_num)
  · exact absurd heq hdist.ne

/-- A number has all its bits. -/
theorem represents_exact (m : ℕ) (e : ℤ) :
    Represents (.ofMantissaAndAccuracy m .exact) (m * 2 ^ e / 2 ^ e) :=
  mul_div_cancel_right₀ _ (by positivity)

theorem powerOfFive_lt {p : ℕ} (hp : p ≤ 10) : 5 ^ p < 2 ^ 24 :=
  (Nat.pow_le_pow_right (by decide) hp).trans_lt (by decide)

/-- The powers of ten that are single precision numbers. -/
theorem powerOfTen_eq : ∀ p (hp : p ≤ 10)
    (hsize : p < Float32.exactlyRepresentablePowersOfTen.size),
    Float32.exactlyRepresentablePowersOfTen[p] = singleOf .positive (p + (5 ^ p).log2 - 23)
      (isMantissa_whole (by positivity) (powerOfFive_lt hp)).1 := by
  decide +kernel

theorem value_whole {k : ℕ} (hk : k.log2 ≤ 23) :
    ((k * 2 ^ (23 - k.log2) : ℕ) : ℚ) * 2 ^ ((k.log2 : ℤ) - 23) = k := by
  have hcast : ((23 - k.log2 : ℕ) : ℤ) + ((k.log2 : ℤ) - 23) = 0 := by omega
  rw [Nat.cast_mul, Nat.cast_pow, Nat.cast_two, ← zpow_natCast, mul_assoc, ← zpow_add₀ two_ne_zero,
    hcast, zpow_zero, mul_one]

theorem value_powerOfTen {p : ℕ} (hp : p ≤ 10) :
    ((5 ^ p * 2 ^ (23 - (5 ^ p).log2) : ℕ) : ℚ) * 2 ^ ((p : ℤ) + (5 ^ p).log2 - 23) = 10 ^ p := by
  have hlog := (isMantissa_whole (by positivity) (powerOfFive_lt hp)).2
  have hten : (10 : ℚ) ^ p = 2 ^ p * (5 ^ p : ℕ) := by
    rw [Nat.cast_pow, ← mul_pow]
    norm_num
  rw [add_sub_assoc, zpow_add₀ two_ne_zero, mul_left_comm, value_whole hlog, zpow_natCast, hten]

theorem ofScientific_zero : ∀ p ≤ 10,
    Float32.ofScientific 0 true p = .ofModel (.pack (.zero .positive)) := by
  decide +kernel

/-- The quotient of two integers that are single precision numbers. -/
theorem rounds_fast {m p : ℕ} (hpos : 0 < m) (hm : m < 2 ^ 23) (hp : p ≤ 10) :
    ∃ r, Rounds .positive (m / 10 ^ p) r ∧
      Float32.ofScientific m true p = .ofModel (.pack r) := by
  have hlong : m < 2 ^ 24 := hm.trans (by norm_num)
  obtain ⟨hmantissa, hlog⟩ := isMantissa_whole hpos hlong
  obtain ⟨hfive, hlog'⟩ := isMantissa_whole (by positivity) (powerOfFive_lt hp)
  refine ⟨_, value_whole hlog ▸ value_powerOfTen hp ▸
    rounds_div .positive hmantissa.pos hfive.pos _ _, ?_⟩
  have hdiv (x y : Float32) : x / y =
      .ofModel (.pack (UnpackedFloat.div .binary32 x.toModel.unpack y.toModel.unpack)) := rfl
  rw [Float32.ofScientific, dif_pos ⟨hm, hp⟩]
  simp only [if_true]
  rw [hdiv, convert_whole hpos hlong, powerOfTen_eq p hp,
    unpack_finite _ _ (by omega) (by omega), unpack_finite _ _ (by omega) (by omega)]
  rfl

/-- Behind so many places a number is less than half of the least one. -/
theorem scaled_tiny {m p : ℕ} (hp : m.log2 + 257 ≤ p) : (m / 10 ^ p : ℚ) < 2 ^ (-150 : ℤ) := by
  have hbits : (m : ℚ) < 2 ^ (m.log2 + 1) := by exact_mod_cast Nat.lt_log2_self
  have hsplit : ((m.log2 + 1 : ℕ) : ℤ) = -150 + (m.log2 + 151 : ℕ) := by
    push_cast
    ring
  rw [div_lt_iff₀ (by positivity)]
  calc (m : ℚ) < 2 ^ (m.log2 + 1) := hbits
    _ = 2 ^ (-150 : ℤ) * 2 ^ (m.log2 + 151) := by
      rw [← zpow_natCast, hsplit, zpow_add₀ two_ne_zero, zpow_natCast]
    _ ≤ 2 ^ (-150 : ℤ) * 2 ^ p := by gcongr; exacts [one_le_two, by omega]
    _ ≤ 2 ^ (-150 : ℤ) * 10 ^ p := by gcongr; norm_num

/-- An integer is multiplied by one, with bits enough behind the point. -/
theorem rounds_integer {m : ℕ} (hpos : 0 < m) :
    Rounds .positive m (roundWithAccuracy .binary32 .positive (m * 2 ^ 24) (-24) .exact) := by
  have hvalue : (m : ℚ) = (m * 2 ^ 24 : ℕ) * 2 ^ (-24 : ℤ) := by
    rw [Nat.cast_mul, mul_assoc]
    norm_num
  have hbits : 24 ≤ (m * 2 ^ 24).log2 := by
    rw [Nat.le_log2 (by positivity)]
    exact Nat.le_mul_of_pos_left _ hpos
  have hexact := represents_exact (m * 2 ^ 24) (-24)
  rw [← hvalue] at hexact
  refine rounds_roundWithAccuracy _ hexact ?_
  rw [targetExponent_single, totalExponent]
  omega

/-- The other numbers are a product with one, a quotient by a power of ten, or too small. -/
theorem rounds_slow (m p : ℕ) :
    Rounds .positive (m / 10 ^ p) (UnpackedFloat.ofScientific .binary32 m (Int.negOfNat p)) := by
  have hexp : Int.negOfNat p = -(p : ℤ) := Int.negOfNat_eq
  have hrange : (2 : ℤ) ^ Format.binary32.exponentBits = 256 := rfl
  rw [hexp, UnpackedFloat.ofScientific]
  by_cases hm : m = 0
  · rw [dif_pos hm, hm, Nat.cast_zero, zero_div]
    exact rounds_zero .positive
  have hpos : 0 < m := Nat.pos_of_ne_zero hm
  rw [dif_neg hm, if_neg (by omega)]
  by_cases hsafe : -(p : ℤ) < -(2 ^ Format.binary32.exponentBits + m.log2)
  · rw [if_pos hsafe]
    exact rounds_tiny _ (by positivity) (scaled_tiny (by omega))
  rw [if_neg hsafe]
  by_cases hp : p = 0
  · subst hp
    have hround := rounds_integer hpos
    rw [Nat.cast_zero, neg_zero, if_pos le_rfl, pow_zero, div_one]
    simp only [UnpackedFloat.mul, Nat.shiftLeft_eq, Int.toNat_zero, pow_zero, mul_one, add_zero]
    exact hround
  · have hround := rounds_div .positive hpos (show 0 < 10 ^ p by positivity) 0 0
    have hplaces : (-(-(p : ℤ))).toNat = p := by omega
    simp only [hplaces]
    rw [if_neg (by omega)]
    simp only [zpow_zero, mul_one, Nat.cast_pow, Nat.cast_ofNat] at hround
    exact hround

/-- A decimal number is rounded. -/
theorem rounds_ofScientific (m p : ℕ) : ∃ r, Rounds .positive (m / 10 ^ p) r ∧
    Float32.ofScientific m true p = .ofModel (.pack r) := by
  by_cases hfast : m < 2 ^ 23 ∧ p ≤ 10
  · rcases Nat.eq_zero_or_pos m with rfl | hpos
    · refine ⟨_, ?_, ofScientific_zero p hfast.2⟩
      rw [Nat.cast_zero, zero_div]
      exact rounds_zero .positive
    · exact rounds_fast hpos hfast.1 hfast.2
  · refine ⟨_, rounds_slow m p, ?_⟩
    rw [Float32.ofScientific, dif_neg hfast]
    rfl

end PageScript
