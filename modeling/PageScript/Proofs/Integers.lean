import Mathlib
import PageScript.Decimal.Numeral

/-!
# Integers in single precision

Integers up to the twenty-fourth power of two are single precision numbers. Each of them is read
from its digits, and told from its bits.
-/
namespace PageScript

open Float.Model Float.Model.UnpackedFloat

/-- A mantissa that is shifted back has lost nothing. -/
theorem shiftRight_exact (m n : Nat) :
    (⟨m * 2 ^ n, false, false⟩ : ExtendedMantissa) >>> n = ⟨m, false, false⟩ := by
  change n.repeat ExtendedMantissa.shiftRightOne _ = _
  induction n generalizing m with
  | zero => simp [Nat.repeat]
  | succ n ih =>
    have hm : m * 2 ^ (n + 1) = 2 * m * 2 ^ n := by rw [Nat.pow_succ]; ac_rfl
    rw [Nat.repeat, hm, ih, ExtendedMantissa.shiftRightOne]
    simp

/-- Mantissas of numbers that are not too small have twenty-four bits. -/
def IsMantissa (m : Nat) : Prop := 2 ^ 23 ≤ m ∧ m < 2 ^ 24

instance (m : Nat) : Decidable (IsMantissa m) := inferInstanceAs (Decidable (_ ∧ _))

theorem IsMantissa.pos {m : Nat} (h : IsMantissa m) : 0 < m :=
  Nat.lt_of_lt_of_le (by decide) h.1

theorem IsMantissa.log2_mul {m : Nat} (h : IsMantissa m) (n : Nat) :
    (m * 2 ^ n).log2 = 23 + n := by
  have hpos : m * 2 ^ n ≠ 0 :=
    Nat.mul_ne_zero (Nat.ne_of_gt h.pos) (Nat.ne_of_gt (Nat.two_pow_pos n))
  rw [Nat.log2_eq_iff hpos, Nat.pow_add, show 23 + n + 1 = 24 + n by omega, Nat.pow_add]
  exact ⟨Nat.mul_le_mul_right _ h.1, Nat.mul_lt_mul_of_pos_right h.2 (Nat.two_pow_pos n)⟩

theorem IsMantissa.log2 {m : Nat} (h : IsMantissa m) : m.log2 = 23 := by
  simpa using h.log2_mul 0

/-- A mantissa with zeros behind it is rounded to itself. -/
theorem roundWithAccuracy_exact (s : Sign) {m n : Nat} {e : Int} (h : IsMantissa m)
    (he : -149 ≤ e) : roundWithAccuracy .binary32 s (m * 2 ^ n) (e - n) .exact =
      .finite s m e h.pos := by
  have target (total : Int) : Format.binary32.targetExponent total = max (total - 24) (-149) := rfl
  have hfirst : shiftToTargetExponent .binary32 (m * 2 ^ n) (e - n) .exact =
      (⟨m, false, false⟩, e) := by
    have hshift : (max (((23 + n : Nat) : Int) + 1 + (e - n) - 24) (-149) - (e - n)).toNat = n := by
      omega
    simp only [shiftToTargetExponent, shiftToExponent, totalExponent, target, h.log2_mul, hshift,
      ExtendedMantissa.ofMantissaAndAccuracy, shiftRight_exact]
    rw [Int.sub_add_cancel]
  have hsecond : shiftToTargetExponent .binary32 m e .exact = (⟨m, false, false⟩, e) := by
    have hshift : (max (((23 : Nat) : Int) + 1 + e - 24) (-149) - e).toNat = 0 := by omega
    simp only [shiftToTargetExponent, shiftToExponent, totalExponent, target, h.log2, hshift]
    simpa [ExtendedMantissa.ofMantissaAndAccuracy] using shiftRight_exact m 0
  have hround : (⟨m, false, false⟩ : ExtendedMantissa).roundedMantissa = m := rfl
  simp only [roundWithAccuracy, hfirst, hround, hsecond]
  rw [dif_neg (Nat.ne_of_gt h.pos)]

/-- A number with a full mantissa is what its bits are read as. -/
theorem unpack_pack_finite (s : Sign) {m : Nat} {e : Int} (h : IsMantissa m) (hlow : -149 ≤ e)
    (hhigh : e ≤ 104) : unpack .binary32 (pack .binary32 (.finite s m e h.pos)) =
      .finite s m e h.pos := by
  obtain ⟨biased, hb⟩ : ∃ n : Nat, (n : Int) = e + 150 := ⟨(e + 150).toNat, by omega⟩
  have hpack : pack .binary32 (.finite s m e h.pos) =
      packComponents .binary32 s (BitVec.ofNat 8 biased) (BitVec.ofNat 23 m) := by
    have hexp : (e + (Format.binary32.exponentBias : Int) +
        (Format.binary32.mantissaBitsWithoutImplicit : Int)).toNat = biased := by
      change (e + 127 + 23).toNat = biased
      omega
    simp only [UnpackedFloat.pack, hexp, h.log2]
    rw [if_neg (by omega), if_pos (by decide)]
  have hbits : (BitVec.ofNat 8 biased).toNat = biased := by
    rw [BitVec.toNat_ofNat, Nat.mod_eq_of_lt (by omega)]
  have hfull : BitVec.ofNat 8 biased ≠ -1#8 := by
    intro heq
    have := congrArg BitVec.toNat heq
    rw [hbits] at this
    simp at this
    omega
  have hsub : BitVec.ofNat 8 biased ≠ 0#8 := by
    intro heq
    have := congrArg BitVec.toNat heq
    rw [hbits] at this
    simp at this
    omega
  have hmantissa : (1#1 ++ BitVec.ofNat 23 m).toNat = m := by
    rw [BitVec.toNat_append, ← Nat.shiftLeft_add_eq_or_of_lt (BitVec.isLt _)]
    obtain ⟨hlo, hhi⟩ := h
    simp
    omega
  have hexponent : (biased : Int) - ((Format.binary32.exponentBias : Int) +
      (Format.binary32.mantissaBitsWithoutImplicit : Int)) = e := by
    change (biased : Int) - (127 + 23) = e
    omega
  rw [hpack]
  simp only [UnpackedFloat.unpack, unpackMantissa_packComponents, unpackExponent_packComponents,
    unpackSign_packComponents, Sign.ofBitVec_toBitVec, hmantissa, hbits, hexponent]
  rw [if_neg hfull, if_neg hsub]

/-- The number with a given sign, mantissa and exponent. -/
def singleOf (s : Sign) {m : Nat} (e : Int) (h : IsMantissa m) : Float32 :=
  .ofModel (.pack (.finite s m e h.pos))

section One

variable {m : Nat} {e : Int} (h : IsMantissa m)

theorem unpack_finite (s : Sign) (hlow : -149 ≤ e) (hhigh : e ≤ 104) :
    (singleOf s e h).toModel.unpack = .finite s m e h.pos :=
  unpack_pack_finite s h hlow hhigh

theorem unpack_one :
    (Float32.ofBits 0x3F800000).toModel.unpack = .finite .positive (2 ^ 23) (-23) (by decide) := rfl

theorem finite_mul_one (hlow : -149 ≤ e) (hhigh : e ≤ 104) :
    singleOf .positive e h * Float32.ofBits 0x3F800000 = singleOf .positive e h := by
  have hmul : singleOf .positive e h * Float32.ofBits 0x3F800000 =
      .ofModel (.pack (UnpackedFloat.mul .binary32 (singleOf .positive e h).toModel.unpack
        (Float32.ofBits 0x3F800000).toModel.unpack)) := rfl
  have hround := @roundWithAccuracy_exact .positive m 23 e h hlow
  rw [hmul, unpack_finite h _ hlow hhigh, unpack_one]
  simp only [UnpackedFloat.mul]
  exact congrArg (fun u => Float32.ofModel (.pack u)) hround

theorem finite_div_one (hlow : -148 ≤ e) (hhigh : e ≤ 104) :
    singleOf .positive e h / Float32.ofBits 0x3F800000 = singleOf .positive e h := by
  have hdiv : singleOf .positive e h / Float32.ofBits 0x3F800000 =
      .ofModel (.pack (UnpackedFloat.div .binary32 (singleOf .positive e h).toModel.unpack
        (Float32.ofBits 0x3F800000).toModel.unpack)) := rfl
  -- the quotient is taken with one bit more than the mantissa has
  have hcore : divCore .binary32 m e (2 ^ 23) (-23) = (m * 2 ^ 1, e - 1, .exact) := by
    have hone : (2 ^ 23 : Nat).log2 = 23 := by decide
    have htarget : min (e - -23) (Format.binary32.targetExponent
        (totalExponent m e - totalExponent (2 ^ 23) (-23))) = e - 1 := by
      simp only [totalExponent, h.log2, hone]
      change min (e - -23) (max (((23 : Nat) : Int) + 1 + e - (((23 : Nat) : Int) + 1 + -23) - 24)
        (-149)) = e - 1
      omega
    have hshift : (e - -23 - (e - 1)).toNat = 24 := by omega
    simp only [divCore, htarget, hshift, Nat.shiftLeft_eq]
    have hquotient : m * 2 ^ 24 / 2 ^ 23 = m * 2 ^ 1 := by omega
    have hremainder : m * 2 ^ 24 % 2 ^ 23 = 0 := by omega
    rw [hquotient, hremainder]
    rfl
  have hround := @roundWithAccuracy_exact .positive m 1 e h (by omega)
  rw [hdiv, unpack_finite h _ (by omega) hhigh, unpack_one]
  simp only [UnpackedFloat.div, hcore]
  exact congrArg (fun u => Float32.ofModel (.pack u)) hround

end One

theorem round_whole {k : Nat} (h : IsMantissa (k * 2 ^ (23 - k.log2))) (hk : k.log2 ≤ 23) :
    UnpackedFloat.ofNat .binary32 k =
      .finite .positive (k * 2 ^ (23 - k.log2)) (k.log2 - 23) h.pos := by
  have hpos : 0 < k := Nat.pos_of_mul_pos_right h.pos
  have hcompare : compare (k : Int) 0 = .gt := by
    rw [Int.compare_eq_gt]
    omega
  have htarget : Format.binary32.targetExponent (totalExponent k 0) = (k.log2 : Int) - 23 := by
    change max ((k.log2 : Int) + 1 + 0 - 24) (-149) = _
    omega
  have hshift : (0 - ((k.log2 : Int) - 23)).toNat = 23 - k.log2 := by omega
  have hexp : (0 : Int) - ((23 - k.log2 : Nat) : Int) = k.log2 - 23 := by omega
  have hround := @roundWithAccuracy_exact .positive _ 0 ((k.log2 : Int) - 23) h (by omega)
  simp only [UnpackedFloat.ofNat, UnpackedFloat.ofInt, UnpackedFloat.normalize, hcompare,
    Int.toNat_natCast, UnpackedFloat.round, decreaseExponent, htarget, hshift, hexp, Nat.shiftLeft_eq]
  simpa using hround

theorem isMantissa_whole {k : Nat} (hpos : 0 < k) (hk : k < 2 ^ 24) :
    IsMantissa (k * 2 ^ (23 - k.log2)) ∧ k.log2 ≤ 23 := by
  have hlog : k.log2 < 24 := (Nat.log2_lt (by omega)).mpr hk
  have hlow : 2 ^ k.log2 ≤ k := Nat.log2_self_le (Nat.ne_of_gt hpos)
  have hhigh : k < 2 ^ (k.log2 + 1) := Nat.lt_log2_self
  have hscaled (l : Nat) (hl : k.log2 ≤ l + 23) :
      2 ^ (k.log2 + l) * 2 ^ (23 - k.log2) = 2 ^ (23 + l) := by
    rw [← Nat.pow_add]
    congr 1
    omega
  refine ⟨⟨?_, ?_⟩, by omega⟩
  · rw [← hscaled 0 (by omega)]
    exact Nat.mul_le_mul_right _ hlow
  · rw [← hscaled 1 (by omega)]
    exact Nat.mul_lt_mul_of_pos_right hhigh (Nat.two_pow_pos _)

theorem convert_whole {k : Nat} (hpos : 0 < k) (hk : k < 2 ^ 24) :
    k.toUInt64.toFloat32 = singleOf .positive (k.log2 - 23) (isMantissa_whole hpos hk).1 := by
  have hmodel : k.toUInt64.toFloat32 =
      .ofModel (.pack (UnpackedFloat.ofNat .binary32 k.toUInt64.toNat)) := rfl
  have hnat : k.toUInt64.toNat = k := Nat.mod_eq_of_lt (by omega)
  obtain ⟨hm, hlog⟩ := isMantissa_whole hpos hk
  rw [hmodel, hnat, round_whole hm hlog]
  rfl

/-- A power of ten that is one changes nothing, whether it is multiplied or divided by. -/
theorem ofScientific_whole {k : Nat} (hpos : 0 < k) (hk : k < 2 ^ 24) (divided : Bool) :
    Float32.ofScientific k divided 0 =
      singleOf .positive (k.log2 - 23) (isMantissa_whole hpos hk).1 := by
  obtain ⟨hm, hlog⟩ := isMantissa_whole hpos hk
  by_cases hsmall : k < 2 ^ 23
  · have hsize : 0 < Float32.exactlyRepresentablePowersOfTen.size := by decide
    have hone : Float32.exactlyRepresentablePowersOfTen[0] = Float32.ofBits 0x3F800000 := rfl
    rw [Float32.ofScientific, dif_pos ⟨hsmall, by omega⟩]
    simp only [hone, convert_whole hpos hk]
    cases divided
    · exact finite_mul_one hm (by omega) (by omega)
    · exact finite_div_one hm (by omega) (by omega)
  · have hlog' : k.log2 = 23 := by
      have := (Nat.le_log2 (k := 23) (Nat.ne_of_gt hpos)).mpr (by omega)
      omega
    have hk' : IsMantissa k := ⟨by omega, hk⟩
    have hsame : (finite .positive (k * 2 ^ (23 - k.log2)) (k.log2 - 23) hm.pos) =
        .finite .positive k 0 hpos := by
      simp [hlog']
    have hexp : (if divided then Int.negOfNat 0 else Int.ofNat 0) = 0 := by cases divided <;> rfl
    have hround := @roundWithAccuracy_exact .positive k 24 0 hk' (by omega)
    rw [Float32.ofScientific, dif_neg (by omega), singleOf, hsame]
    simp only [hexp, Float32.Model.ofScientific, UnpackedFloat.ofScientific]
    rw [dif_neg (by omega), if_neg (by decide), if_neg (by have := k.log2; omega),
      if_pos (by decide)]
    have hten : k * 2 ^ Format.binary32.mantissaBits * 10 ^ (0 : Int).toNat = k * 2 ^ 24 :=
      Nat.mul_one _
    simp only [UnpackedFloat.mul, Nat.shiftLeft_eq, hten]
    exact congrArg (fun u => Float32.ofModel (.pack u)) hround

theorem isMantissa_top : IsMantissa (2 ^ 23) := by decide

/-- The least integer that does not fit a mantissa has one with a greater exponent. -/
theorem ofScientific_top : ∀ divided,
    Float32.ofScientific (2 ^ 24) divided 0 = singleOf .positive 1 isMantissa_top := by
  decide +kernel

/-- An integer as it is written: a sign and digits. A zero may have either sign. -/
structure Whole where
  negative : Bool
  magnitude : Nat
  deriving DecidableEq, Repr

namespace Whole

def toFloat32 (w : Whole) : Float32 :=
  if w.negative then -Float32.ofNat w.magnitude else Float32.ofNat w.magnitude

/-- The integer that a number is, if it is one. -/
def ofFloat32 (x : Float32) : Whole :=
  match x.toModel.unpack with
  | .zero s => ⟨s == .negative, 0⟩
  | .finite s m e _ => ⟨s == .negative, m <<< e.toNat >>> (-e).toNat⟩
  | _ => ⟨false, 0⟩

/-- The integer is small enough for every one up to it to be a single precision number. -/
def Exact (w : Whole) : Prop := w.magnitude ≤ 2 ^ 24

instance (w : Whole) : Decidable w.Exact := inferInstanceAs (Decidable (_ ≤ _))

def sign (w : Whole) : Sign := if w.negative then .negative else .positive

/-- What there is to know of an integer in single precision. -/
structure Represented (w : Whole) : Prop where
  same : Float32.ofScientific w.magnitude true 0 = Float32.ofNat w.magnitude
  finite : w.toFloat32.isFinite
  whole : ofFloat32 w.toFloat32 = w

theorem represented_of_finite {w : Whole} {m : Nat} {e : Int} (h : IsMantissa m) (hlow : -149 ≤ e)
    (hhigh : e ≤ 104) (hm : m <<< e.toNat >>> (-e).toNat = w.magnitude)
    (hw : ∀ divided, Float32.ofScientific w.magnitude divided 0 = singleOf .positive e h) :
    w.Represented := by
  have hunpack : w.toFloat32.toModel.unpack = .finite w.sign m e h.pos := by
    have hnat : Float32.ofNat w.magnitude = singleOf .positive e h := hw false
    have hneg : -singleOf .positive e h = .ofModel (.pack
        (UnpackedFloat.neg (singleOf .positive e h).toModel.unpack)) := rfl
    have hcase : w.toFloat32 = singleOf w.sign e h := by
      cases hn : w.negative with
      | false => simp [toFloat32, sign, hn, hnat]
      | true =>
        simp only [toFloat32, sign, hn, if_true, hnat]
        rw [hneg, unpack_finite h _ hlow hhigh]
        rfl
    rw [hcase, unpack_finite h _ hlow hhigh]
  refine ⟨(hw true).trans (hw false).symm, ?_, ?_⟩
  · change w.toFloat32.toModel.unpack.isFinite = true
    rw [hunpack]
    rfl
  · rw [ofFloat32, hunpack]
    simp only [hm]
    cases w with
    | mk negative magnitude => cases negative <;> rfl

theorem represented {w : Whole} (h : w.Exact) : w.Represented := by
  obtain ⟨negative, k⟩ := w
  have hk : k ≤ 2 ^ 24 := h
  by_cases hzero : k = 0
  · subst hzero
    cases negative <;> exact ⟨by decide +kernel, by decide +kernel, by decide +kernel⟩
  · by_cases htop : k = 2 ^ 24
    · subst htop
      exact represented_of_finite isMantissa_top (by decide) (by decide) rfl ofScientific_top
    · have hlt : k < 2 ^ 24 := by omega
      have hpos : 0 < k := by omega
      obtain ⟨hm, hlog⟩ := isMantissa_whole hpos hlt
      apply represented_of_finite hm (by omega) (by omega) _ (ofScientific_whole hpos hlt)
      have hleft : ((k.log2 : Int) - 23).toNat = 0 := by omega
      have hright : (-((k.log2 : Int) - 23)).toNat = 23 - k.log2 := by omega
      rw [hleft, hright, Nat.shiftLeft_zero, Nat.shiftRight_eq_div_pow]
      exact Nat.mul_div_cancel _ (Nat.two_pow_pos _)

theorem numeral_toFloat32 {w : Whole} (h : w.Exact) :
    Numeral.toFloat32 ⟨w.negative, w.magnitude, 0⟩ = w.toFloat32 := by
  simp only [Numeral.toFloat32, toFloat32, (represented h).same]

end Whole

end PageScript
