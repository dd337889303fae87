import Mathlib
import PageScript.Proofs.Rounding

/-!
# The nearest number in single precision

Rounding a number leads to the number in single precision that is nearest to it, and to the one
with an even mantissa if there are two. It leads to an infinite one where that is out of range. The
decimal numbers of a script are rounded in this way.
-/
namespace PageScript

open Float.Model Float.Model.UnpackedFloat

/-- Mantissas and exponents of numbers other than zero. Numbers with the least exponent may have
fewer bits. -/
structure IsNormal (m : ℕ) (e : ℤ) : Prop where
  pos : 0 < m
  short : m < 2 ^ 24
  least : -149 ≤ e
  full : e = -149 ∨ 2 ^ 23 ≤ m

theorem packed_zero (s : Sign) : unpack .binary32 (pack .binary32 (.zero s)) = .zero s := by
  cases s <;> rfl

theorem packed_infinity (s : Sign) :
    unpack .binary32 (pack .binary32 (.infinity s)) = .infinity s := by
  cases s <;> rfl

section Packed

variable {m : ℕ} {e : ℤ} (h : IsNormal m e) (s : Sign)
include h

theorem pack_overflow (he : 104 < e) :
    pack .binary32 (.finite s m e h.pos) = packedInfinity .binary32 s := by
  have hexp : 2 ^ 8 ≤ (e + (Format.binary32.exponentBias : ℤ) +
      (Format.binary32.mantissaBitsWithoutImplicit : ℤ)).toNat + 1 := by
    change 2 ^ 8 ≤ (e + 127 + 23).toNat + 1
    omega
  simp only [UnpackedFloat.pack]
  rw [if_pos hexp]

theorem pack_small (hm : m < 2 ^ 23) : pack .binary32 (.finite s m e h.pos) =
    packComponents .binary32 s 0#8 (BitVec.ofNat 23 m) := by
  have he : e = -149 := h.full.resolve_right (by omega)
  subst he
  have hlog : m.log2 ≠ 23 := by
    have := log2_le_of_lt (n := 22) hm
    omega
  have hexp : ¬ 2 ^ 8 ≤ (-149 + (Format.binary32.exponentBias : ℤ) +
      (Format.binary32.mantissaBitsWithoutImplicit : ℤ)).toNat + 1 := by decide
  have hbits : ¬ m.log2 + 1 = Format.binary32.mantissaBits := by
    change ¬ m.log2 + 1 = 24
    omega
  simp only [UnpackedFloat.pack]
  rw [if_neg hexp, if_neg hbits]

theorem unpack_pack_small (hm : m < 2 ^ 23) :
    unpack .binary32 (pack .binary32 (.finite s m e h.pos)) = .finite s m e h.pos := by
  have he : e = -149 := h.full.resolve_right (by omega)
  have hmantissa : (BitVec.ofNat 23 m).toNat = m := by
    rw [BitVec.toNat_ofNat, Nat.mod_eq_of_lt hm]
  have hsome : BitVec.ofNat 23 m ≠ 0#23 := by
    intro heq
    have := congrArg BitVec.toNat heq
    rw [hmantissa] at this
    exact h.pos.ne' this
  rw [pack_small h s hm]
  simp only [UnpackedFloat.unpack, unpackMantissa_packComponents, unpackExponent_packComponents,
    unpackSign_packComponents, Sign.ofBitVec_toBitVec, hmantissa]
  rw [if_neg (by decide), if_true, dif_neg hsome]
  subst he
  rfl

theorem unpack_pack_normal (he : e ≤ 104) :
    unpack .binary32 (pack .binary32 (.finite s m e h.pos)) = .finite s m e h.pos := by
  by_cases hm : m < 2 ^ 23
  · exact unpack_pack_small h s hm
  · exact unpack_pack_finite s ⟨by omega, h.short⟩ h.least he

end Packed

theorem toNat_implicit (v : BitVec 23) : (1#1 ++ v).toNat = 2 ^ 23 + v.toNat := by
  rw [BitVec.toNat_append, ← Nat.shiftLeft_add_eq_or_of_lt v.isLt]
  rfl

/-- The mantissa and the exponent of any number, from its bits. -/
theorem unpack_range {b : BitVec Format.binary32.numBits} {s : Sign} {m : ℕ} {e : ℤ} {hm : 0 < m}
    (h : unpack .binary32 b = .finite s m e hm) : m < 2 ^ 24 ∧ -149 ≤ e := by
  have hbias : (Format.binary32.exponentBias : ℤ) + (23 : ℕ) = 150 := rfl
  have hmantissa : (unpackMantissa b).toNat < 2 ^ 23 := (unpackMantissa b).isLt
  simp only [UnpackedFloat.unpack, hbias] at h
  split at h
  · split at h <;> cases h
  split at h
  · split at h
    · cases h
    · -- no implicit bit
      injection h with _ hm' he
      omega
  case isFalse hexp =>
    injection h with _ hm' he
    have hpos : (unpackExponent b).toNat ≠ 0 := fun hzero => hexp (BitVec.eq_of_toNat_eq hzero)
    rw [toNat_implicit] at hm'
    omega

/-- The last bit is that of the mantissa. -/
theorem even_packComponents (s : Sign) (e : BitVec 8) (v : BitVec 23) :
    Even (packComponents .binary32 s e v).toNat ↔ Even v.toNat := by
  have hbit : (packComponents .binary32 s e v).getLsbD 0 = v.getLsbD 0 := by
    rw [packComponents, BitVec.getLsbD_append]
    rfl
  rw [BitVec.getLsbD, BitVec.getLsbD, Nat.testBit_zero, Nat.testBit_zero, decide_eq_decide] at hbit
  rw [Nat.even_iff, Nat.even_iff]
  omega

/-- A sign as a factor. -/
def signed : Sign → ℚ
  | .negative => -1
  | .positive => 1

def unpackedValue : UnpackedFloat → ℚ
  | .finite s m e _ => signed s * (m * 2 ^ e)
  | _ => 0

def unpackedSign : UnpackedFloat → Sign
  | .infinity s | .zero s | .finite s _ _ _ => s
  | .notANumber => .positive

/-- The number that is stored in single precision, if it is finite. -/
def valueOf (x : Float32) : ℚ := unpackedValue x.toModel.unpack

/-- Zero has a sign, too. -/
def signOf (x : Float32) : Sign := unpackedSign x.toModel.unpack

/-- A finite number that none is nearer to than a given one. Of two of them, it is the one that has
a zero for the last bit of its mantissa. -/
structure NearestTo (v : ℚ) (x : Float32) : Prop where
  finite : x.isFinite
  near : ∀ y : Float32, y.isFinite → |valueOf x - v| ≤ |valueOf y - v|
  even : ∀ y : Float32, y.isFinite → |valueOf x - v| = |valueOf y - v| → valueOf y ≠ valueOf x →
    Even x.toBits.toNat

theorem signed_mul_self (s : Sign) : signed s * signed s = 1 := by
  cases s <;> norm_num [signed]

theorem abs_signed (s : Sign) : |signed s| = 1 := by
  cases s <;> norm_num [signed]

theorem signed_mul_int (s : Sign) (j : ℤ) : signed s * j = (s.apply j : ℤ) := by
  cases s <;> simp [signed, Sign.apply]

theorem abs_apply (s : Sign) (j : ℤ) : |s.apply j| = |j| := by
  cases s
  · exact abs_neg j
  · rfl

/-- A finite number is an integer of twenty-four bits, scaled. -/
theorem exists_scaled {y : Float32} (hy : y.isFinite) :
    ∃ (j : ℤ) (e : ℤ), valueOf y = j * 2 ^ e ∧ |j| < 2 ^ 24 ∧ -149 ≤ e := by
  change y.toModel.unpack.isFinite at hy
  rw [valueOf]
  rcases hunpack : y.toModel.unpack with s | _ | s | ⟨s, m, e, hm⟩
  · rw [hunpack] at hy
    cases hy
  · rw [hunpack] at hy
    cases hy
  · exact ⟨0, 0, by simp [unpackedValue], by norm_num, by norm_num⟩
  · obtain ⟨hshort, hleast⟩ := unpack_range hunpack
    refine ⟨s.apply m, e, ?_, ?_, hleast⟩
    · rw [← signed_mul_int, Int.cast_natCast, mul_assoc, unpackedValue]
    · rw [abs_apply, Nat.abs_cast]
      exact_mod_cast hshort

section Grid

variable {u v : ℚ} {k : ℕ} {e : ℤ}

/-- No integer is nearer. -/
theorem RoundsTo.near_int (h : RoundsTo u k) (z : ℤ) : |(k : ℚ) - u| ≤ |(z : ℚ) - u| ∧
    (|(k : ℚ) - u| = |(z : ℚ) - u| → z ≠ k → Even k) := by
  by_cases hz : z = k
  · subst hz
    exact ⟨le_rfl, fun _ hne => absurd rfl hne⟩
  have hgap : (1 : ℚ) ≤ |(z : ℚ) - k| := by exact_mod_cast Int.one_le_abs (sub_ne_zero.mpr hz)
  have htriangle := abs_sub_le (z : ℚ) u k
  rw [abs_sub_comm u] at htriangle
  have hnear := h.near
  refine ⟨by linarith, fun heq _ => h.even (by linarith)⟩

theorem sub_scaled (w : ℚ) : |w * 2 ^ e - v| = |w - v / 2 ^ e| * 2 ^ e := by
  have hpos : (0 : ℚ) < 2 ^ e := by positivity
  rw [← abs_of_pos hpos, ← abs_mul, abs_of_pos hpos, sub_mul, div_mul_cancel₀ _ hpos.ne']

/-- No scaled integer of twenty-four bits is nearer. -/
theorem RoundsTo.near_scaled (h : RoundsTo (v / 2 ^ e) k) (hv : ScaledBy v e) {j e' : ℤ}
    (hj : |j| < 2 ^ 24) (he' : -149 ≤ e') : |(k : ℚ) * 2 ^ e - v| ≤ |(j : ℚ) * 2 ^ e' - v| ∧
      (|(k : ℚ) * 2 ^ e - v| = |(j : ℚ) * 2 ^ e' - v| → (j : ℚ) * 2 ^ e' ≠ k * 2 ^ e → Even k) := by
  have hpos : (0 : ℚ) < 2 ^ e := by positivity
  by_cases hle : e ≤ e'
  · -- a multiple of the same power of two
    obtain ⟨n, rfl⟩ : ∃ n : ℕ, e' = n + e := ⟨(e' - e).toNat, by omega⟩
    have hmultiple : (j : ℚ) * 2 ^ (n + e) = ((j * 2 ^ n : ℤ) : ℚ) * 2 ^ e := by
      rw [zpow_add₀ two_ne_zero, zpow_natCast, ← mul_assoc]
      push_cast
      rfl
    obtain ⟨hnear, heven⟩ := h.near_int (j * 2 ^ n)
    rw [hmultiple, sub_scaled, sub_scaled]
    refine ⟨by gcongr, fun heq hne => heven (mul_right_cancel₀ hpos.ne' heq) fun hsame => hne ?_⟩
    rw [hsame, Int.cast_natCast]
  · -- less than the least number with all its bits
    have hfull : 2 ^ (e + 23) ≤ v := hv.full.resolve_left (by omega)
    have hbound : (j : ℚ) < 2 ^ 24 := by exact_mod_cast (abs_lt.mp hj).2
    have hless : (j : ℚ) * 2 ^ e' < ((2 ^ 23 : ℤ) : ℚ) * 2 ^ e :=
      calc (j : ℚ) * 2 ^ e' < 2 ^ 24 * 2 ^ e' := by gcongr
        _ ≤ 2 ^ 24 * 2 ^ (e - 1) := by
          gcongr
          · exact one_le_two
          · omega
        _ = _ := by
          rw [zpow_sub₀ two_ne_zero]
          push_cast
          ring
    have htop : ((2 ^ 23 : ℤ) : ℚ) * 2 ^ e ≤ v := by
      rw [zpow_add₀ two_ne_zero] at hfull
      push_cast
      linarith
    have hnear := (h.near_int (2 ^ 23)).1
    have hfar : |(k : ℚ) * 2 ^ e - v| < |(j : ℚ) * 2 ^ e' - v| :=
      calc |(k : ℚ) * 2 ^ e - v| ≤ |((2 ^ 23 : ℤ) : ℚ) * 2 ^ e - v| := by
            rw [sub_scaled, sub_scaled]
            gcongr
        _ < |(j : ℚ) * 2 ^ e' - v| := by
          rw [abs_sub_comm, abs_sub_comm _ v, abs_of_nonneg (by linarith), abs_of_pos (by linarith)]
          linarith
    exact ⟨hfar.le, fun heq => absurd heq hfar.ne⟩

end Grid

section Overflow

variable {u v : ℚ} {k m : ℕ} {e : ℤ}

/-- The exponent fits if the number is less than the power of two behind the greatest one. -/
theorem IsNormal.exponent_le_iff (h : IsNormal m e) : e ≤ 104 ↔ (m : ℚ) * 2 ^ e < 2 ^ 128 := by
  have hpos : (0 : ℚ) < 2 ^ e := by positivity
  constructor
  · intro he
    have hshort : (m : ℚ) < 2 ^ 24 := by exact_mod_cast h.short
    calc (m : ℚ) * 2 ^ e < 2 ^ 24 * 2 ^ e := by gcongr
      _ ≤ 2 ^ 24 * 2 ^ (104 : ℤ) := by gcongr; exact one_le_two
      _ = 2 ^ 128 := by norm_num
  · intro hlt
    by_contra hgt
    have hfull : (2 ^ 23 : ℚ) ≤ m := by exact_mod_cast h.full.resolve_left (by omega)
    refine hlt.not_ge ?_
    calc (2 : ℚ) ^ 128 = 2 ^ 23 * 2 ^ (105 : ℤ) := by norm_num
      _ ≤ 2 ^ 23 * 2 ^ e := by
        gcongr
        · exact one_le_two
        · omega
      _ ≤ m * 2 ^ e := by gcongr

theorem ScaledBy.full_mantissa (hv : ScaledBy v e) (h : RoundsTo (v / 2 ^ e) k) :
    e = -149 ∨ 2 ^ 23 ≤ k := by
  refine hv.full.imp_right fun hfull => ?_
  rw [add_comm, zpow_add₀ two_ne_zero, ← le_div_iff₀ (by positivity)] at hfull
  have hdist := (abs_le.mp h.near).1
  by_contra hlt
  have hk : (k : ℚ) + 1 ≤ 2 ^ 23 := by exact_mod_cast Nat.lt_of_not_le hlt
  norm_num at hfull hk
  linarith

/-- An odd integer is not what the middle behind it is rounded to. -/
theorem RoundsTo.le_iff {n : ℕ} (h : RoundsTo u k) (hn : Odd n) : k ≤ n ↔ u < n + 1 / 2 := by
  obtain ⟨hlow, hhigh⟩ := abs_le.mp h.near
  constructor
  · intro hle
    have hcast : (k : ℚ) ≤ n := by exact_mod_cast hle
    refine lt_of_le_of_ne (by linarith) fun htie => ?_
    obtain rfl : k = n := by
      refine le_antisymm hle ?_
      have hge : (n : ℚ) ≤ k := by linarith
      exact_mod_cast hge
    refine Nat.not_even_iff_odd.mpr hn (h.even ?_)
    rw [htie, sub_add_cancel_left, abs_neg, abs_of_pos one_half_pos]
  · intro hlt
    have hcast : (k : ℚ) < n + 1 := by linarith
    exact Nat.lt_succ_iff.mp (by exact_mod_cast hcast)

/-- Rounding leads beyond the greatest number from half of its last bit on. -/
theorem RoundsTo.lt_top_iff (h : RoundsTo (v / 2 ^ e) k) (hv : ScaledBy v e) :
    (k : ℚ) * 2 ^ e < 2 ^ 128 ↔ v < 2 ^ 128 - 2 ^ 103 := by
  have hpos : (0 : ℚ) < 2 ^ e := by positivity
  rcases lt_trichotomy e 104 with he | rfl | he
  · have hk : (k : ℚ) ≤ 2 ^ 24 := by exact_mod_cast h.le hv.quotient_lt
    have hpow : (2 : ℚ) ^ e ≤ 2 ^ (103 : ℤ) := zpow_le_zpow_right₀ one_le_two (by omega)
    have hbelow := hv.below
    rw [zpow_add₀ two_ne_zero] at hbelow
    norm_num at hpow hbelow
    refine iff_of_true ?_ (by linarith)
    calc (k : ℚ) * 2 ^ e ≤ 2 ^ 24 * 2 ^ e := by gcongr
      _ < 2 ^ 128 := by norm_num; linarith
  · have hk : (k : ℚ) * 2 ^ (104 : ℤ) < 2 ^ 128 ↔ k ≤ 2 ^ 24 - 1 := by
      have htop : (2 : ℚ) ^ 128 = (2 ^ 24 : ℕ) * 2 ^ (104 : ℤ) := by norm_num
      rw [htop, mul_lt_mul_iff_left₀ hpos, Nat.cast_lt]
      omega
    rw [hk, h.le_iff (by decide), div_lt_iff₀ hpos]
    norm_num
  · have hk : (2 ^ 23 : ℚ) ≤ k := by
      exact_mod_cast (hv.full_mantissa h).resolve_left (by omega)
    have hpow : (2 : ℚ) ^ (105 : ℤ) ≤ 2 ^ e := zpow_le_zpow_right₀ one_le_two (by omega)
    have hfull := hv.full.resolve_left (by omega)
    rw [zpow_add₀ two_ne_zero] at hfull
    norm_num at hpow hfull
    refine iff_of_false (not_lt.mpr ?_) (by linarith)
    calc (2 : ℚ) ^ 128 ≤ (2 : ℚ) ^ 23 * 2 ^ e := by norm_num; linarith
      _ ≤ (k : ℚ) * 2 ^ e := by gcongr

end Overflow

/-- The last bit of what is packed is that of the mantissa. -/
theorem even_pack {m : ℕ} {e : ℤ} (h : IsNormal m e) (s : Sign) (he : e ≤ 104) (hm : Even m) :
    Even (pack .binary32 (.finite s m e h.pos)).toNat := by
  have hmantissa : Even (BitVec.ofNat 23 m).toNat := by
    rw [BitVec.toNat_ofNat]
    exact hm.mod_even (by decide)
  have hexp : ¬ 2 ^ 8 ≤ (e + (Format.binary32.exponentBias : ℤ) +
      (Format.binary32.mantissaBitsWithoutImplicit : ℤ)).toNat + 1 := by
    change ¬ 2 ^ 8 ≤ (e + 127 + 23).toNat + 1
    omega
  simp only [UnpackedFloat.pack]
  rw [if_neg hexp]
  split
  · exact (even_packComponents _ _ _).mpr hmantissa
  · exact (even_packComponents _ _ _).mpr hmantissa

section Packing

variable {s : Sign} {v : ℚ} {r : UnpackedFloat}

/-- What comes from rounding is zero, or it has a mantissa and an exponent. They fit if the number
is not too great. -/
theorem Rounds.exists_cases (h : Rounds s v r) : ∃ k e, ScaledBy v e ∧ RoundsTo (v / 2 ^ e) k ∧
    unpackedValue r = signed s * (k * 2 ^ e) ∧
    (r = .zero s ∧ v < 2 ^ 128 - 2 ^ 103 ∨ ∃ m e', ∃ hm : IsNormal m e',
      r = .finite s m e' hm.pos ∧ (Even k → Even m) ∧ (e' ≤ 104 ↔ v < 2 ^ 128 - 2 ^ 103)) := by
  obtain ⟨k, e, hscaled, hround, rfl⟩ := h
  refine ⟨k, e, hscaled, hround, ?_⟩
  have hk := hround.le hscaled.quotient_lt
  rw [← hround.lt_top_iff hscaled, ofRounded]
  by_cases hzero : k = 0
  · rw [dif_pos hzero, hzero]
    exact ⟨by simp [unpackedValue], .inl ⟨rfl, by norm_num⟩⟩
  rw [dif_neg hzero]
  by_cases htop : k = 2 ^ 24
  · have hm : IsNormal (2 ^ 23) (e + 1) :=
      ⟨by decide, by decide, by have := hscaled.least; omega, .inr le_rfl⟩
    have hvalue : ((2 ^ 23 : ℕ) : ℚ) * 2 ^ (e + 1) = k * 2 ^ e := by
      rw [htop, zpow_add₀ two_ne_zero]
      push_cast
      ring
    rw [if_pos htop, ← hvalue, ← hm.exponent_le_iff]
    exact ⟨rfl, .inr ⟨_, _, hm, rfl, fun _ => by decide, Iff.rfl⟩⟩
  · have hm : IsNormal k e :=
      ⟨Nat.pos_of_ne_zero hzero, by omega, hscaled.least, hscaled.full_mantissa hround⟩
    rw [if_neg htop, ← hm.exponent_le_iff]
    exact ⟨rfl, .inr ⟨_, _, hm, rfl, id, Iff.rfl⟩⟩

/-- A number that is not too great is stored as it has been rounded. -/
theorem unpack_pack_rounds (h : Rounds s v r) (hlt : v < 2 ^ 128 - 2 ^ 103) :
    unpack .binary32 (pack .binary32 r) = r := by
  obtain ⟨k, e, -, -, -, ⟨rfl, -⟩ | ⟨m, e', hm, rfl, -, hfits⟩⟩ := h.exists_cases
  · exact packed_zero s
  · exact unpack_pack_normal hm s (hfits.mpr hlt)

/-- Others are stored as infinite. -/
theorem pack_rounds_overflow (h : Rounds s v r) (hge : 2 ^ 128 - 2 ^ 103 ≤ v) :
    pack .binary32 r = pack .binary32 (.infinity s) := by
  obtain ⟨k, e, -, -, -, ⟨-, hlt⟩ | ⟨m, e', hm, rfl, -, hfits⟩⟩ := h.exists_cases
  · exact absurd hge hlt.not_ge
  · exact pack_overflow hm s (not_le.mp (mt hfits.mp hge.not_gt))

theorem unpack_pack_overflow (h : Rounds s v r) (hge : 2 ^ 128 - 2 ^ 103 ≤ v) :
    unpack .binary32 (pack .binary32 r) = .infinity s := by
  rw [pack_rounds_overflow h hge, packed_infinity]

theorem Rounds.isFinite (h : Rounds s v r) : r.isFinite := by
  obtain ⟨k, e, -, -, -, ⟨rfl, -⟩ | ⟨m, e', hm, rfl, -, -⟩⟩ := h.exists_cases <;> rfl

theorem Rounds.sign (h : Rounds s v r) : unpackedSign r = s := by
  obtain ⟨k, e, -, -, -, ⟨rfl, -⟩ | ⟨m, e', hm, rfl, -, -⟩⟩ := h.exists_cases <;> rfl

theorem abs_sub_signed (s : Sign) (w v : ℚ) : |signed s * w - signed s * v| = |w - v| := by
  rw [← mul_sub, abs_mul, abs_signed, one_mul]

/-- What comes from rounding is nearest. -/
theorem nearestTo_of_rounds (h : Rounds s v r) (hlt : v < 2 ^ 128 - 2 ^ 103) :
    NearestTo (signed s * v) (.ofModel (.pack r)) := by
  have hunpack := unpack_pack_rounds h hlt
  obtain ⟨k, e, hscaled, hround, hvalue, hcases⟩ := h.exists_cases
  have hx : valueOf (.ofModel (.pack r)) = signed s * (k * 2 ^ e) :=
    (congrArg unpackedValue hunpack).trans hvalue
  have hother {y : Float32} (hy : y.isFinite) : ∃ (j : ℤ) (e' : ℤ),
      valueOf y = signed s * (j * 2 ^ e') ∧ |j| < 2 ^ 24 ∧ -149 ≤ e' := by
    obtain ⟨j, e', hj, hshort, hleast⟩ := exists_scaled hy
    refine ⟨s.apply j, e', ?_, (abs_apply s j).trans_lt hshort, hleast⟩
    rw [hj, ← signed_mul_int, mul_assoc, ← mul_assoc, signed_mul_self, one_mul]
  refine ⟨(congrArg UnpackedFloat.isFinite hunpack).trans h.isFinite, fun y hy => ?_,
    fun y hy htie hne => ?_⟩
  · obtain ⟨j, e', hj, hshort, hleast⟩ := hother hy
    rw [hx, hj, abs_sub_signed, abs_sub_signed]
    exact (hround.near_scaled hscaled hshort hleast).1
  · obtain ⟨j, e', hj, hshort, hleast⟩ := hother hy
    rw [hx, hj, abs_sub_signed, abs_sub_signed] at htie
    have hk : Even k := (hround.near_scaled hscaled hshort hleast).2 htie fun heq => hne (by
      rw [hx, hj, heq])
    change Even (pack .binary32 r).toNat
    rcases hcases with ⟨rfl, -⟩ | ⟨m, e'', hm, rfl, heven, hfits⟩
    · cases s <;> decide
    · exact even_pack hm s (hfits.mpr hlt) (heven hk)

theorem neg_ofRounded (s : Sign) (k : ℕ) (e : ℤ) : (ofRounded s k e).neg = ofRounded (-s) k e := by
  unfold ofRounded
  split
  · rfl
  · split <;> rfl

theorem Rounds.neg (h : Rounds s v r) : Rounds (-s) v r.neg := by
  obtain ⟨k, e, hscaled, hround, rfl⟩ := h
  exact ⟨k, e, hscaled, hround, neg_ofRounded s k e⟩

theorem neg_pack (h : Rounds s v r) :
    -Float32.ofModel (.pack r) = .ofModel (.pack r.neg) := by
  have hneg : pack .binary32 (unpack .binary32 (pack .binary32 r)).neg = pack .binary32 r.neg := by
    by_cases hlt : v < 2 ^ 128 - 2 ^ 103
    · rw [unpack_pack_rounds h hlt]
    · rw [unpack_pack_overflow h (not_lt.mp hlt), pack_rounds_overflow h.neg (not_lt.mp hlt)]
      rfl
  refine congrArg Float32.ofModel ?_
  change Float32.Model.pack (unpack .binary32 (pack .binary32 r)).neg = Float32.Model.pack r.neg
  simp only [Float32.Model.pack, hneg]

theorem signOf_rounds (h : Rounds s v r) : signOf (.ofModel (.pack r)) = s := by
  change unpackedSign (unpack .binary32 (pack .binary32 r)) = s
  by_cases hlt : v < 2 ^ 128 - 2 ^ 103
  · rw [unpack_pack_rounds h hlt, h.sign]
  · rw [unpack_pack_overflow h (not_lt.mp hlt)]
    rfl

end Packing

namespace Numeral

def sign (n : Numeral) : Sign := if n.negative then .negative else .positive

/-- The number that the digits and the sign stand for. -/
def value (n : Numeral) : ℚ := signed n.sign * (n.digits / 10 ^ n.places)

variable (n : Numeral)

theorem abs_value : |n.value| = n.digits / 10 ^ n.places := by
  rw [value, abs_mul, abs_signed, one_mul, abs_of_nonneg (by positivity)]

theorem rounds_toFloat32 : ∃ r, Rounds n.sign (n.digits / 10 ^ n.places) r ∧
    n.toFloat32 = .ofModel (.pack r) := by
  obtain ⟨r, hr, hsingle⟩ := rounds_ofScientific n.digits n.places
  rw [toFloat32, sign, hsingle]
  cases n.negative with
  | false => exact ⟨r, hr, rfl⟩
  | true => exact ⟨r.neg, hr.neg, neg_pack hr⟩

/-- The sign is kept, that of zero as well. -/
theorem signOf_toFloat32 : signOf n.toFloat32 = n.sign := by
  obtain ⟨r, hr, hsingle⟩ := n.rounds_toFloat32
  rw [hsingle, signOf_rounds hr]

/-- A number that is read is the nearest one. -/
theorem nearestTo_toFloat32 (h : |n.value| < 2 ^ 128 - 2 ^ 103) :
    NearestTo n.value n.toFloat32 := by
  obtain ⟨r, hr, hsingle⟩ := n.rounds_toFloat32
  rw [hsingle]
  exact nearestTo_of_rounds hr (n.abs_value ▸ h)

/-- A number is finite unless it is rounded to the power of two behind the greatest one. -/
theorem isFinite_toFloat32_iff : n.toFloat32.isFinite ↔ |n.value| < 2 ^ 128 - 2 ^ 103 := by
  refine ⟨fun hfinite => ?_, fun h => (n.nearestTo_toFloat32 h).finite⟩
  by_contra hge
  obtain ⟨r, hr, hsingle⟩ := n.rounds_toFloat32
  rw [abs_value, not_lt] at hge
  rw [hsingle] at hfinite
  change (unpack .binary32 (pack .binary32 r)).isFinite at hfinite
  rw [unpack_pack_overflow hr hge] at hfinite
  cases hfinite

end Numeral

end PageScript
