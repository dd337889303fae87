import Mathlib.Data.Nat.Digits.Defs
import PageScript.Proofs.NearestNumbers
import PageScript.Proofs.WrittenNumbers

/-!
# Numbers that are read

The lexer takes the longest number ahead. Its token is the nearest number in single precision if
there is a digit, and the keyword of the same bytes if there is none, or the number is too great.
-/
namespace PageScript

namespace Utf8

theorem encodeChar_ascii {b : UInt8} (h : b < 0x80) :
    String.utf8EncodeChar (Latin1.charOfByte b) = [b] := by
  have hb : b.toNat < 128 := h
  have hvalid : b.toNat.isValidChar := .inl (by omega)
  have hchar : (Latin1.charOfByte b).val.toNat = b.toNat := toNat_ofNat hvalid
  have hsize : (Latin1.charOfByte b).utf8Size = 1 := by
    rw [Char.utf8Size_eq_one_iff, UInt32.le_iff_toNat_le, hchar]
    exact Nat.le_of_lt_succ hb
  rw [String.utf8EncodeChar_eq_singleton hsize, List.singleton_inj, ← UInt8.toNat_inj,
    UInt32.toNat_toUInt8, hchar, Nat.mod_eq_of_lt b.toNat_lt]

/-- Bytes of ASCII are the bytes of a text. -/
theorem encode_ascii {bytes : List UInt8} (h : ∀ b ∈ bytes, b < 0x80) :
    encode (String.ofList (bytes.map Latin1.charOfByte)) = bytes := by
  rw [encode, String.toList_ofList, List.flatMap_map]
  induction bytes with
  | nil => rfl
  | cons b bytes ih =>
    obtain ⟨hb, hmore⟩ := List.forall_mem_cons.mp h
    rw [List.flatMap_cons, encodeChar_ascii hb, ih hmore]
    rfl

end Utf8

namespace Numeral

variable {bytes own : List UInt8}

/-- The digits of a text, read as one number. -/
def digitsOf (bytes : List UInt8) : Nat :=
  Nat.ofDigits 10 ((bytes.filter Byte.isDigit).reverse.map fun b => b.toNat - 0x30)

/-- How many digits stand behind the point. -/
def placesOf (bytes : List UInt8) : Nat := (bytes.dropWhile (· != 0x2E)).tail.length

/-- What a text with a digit is read as. -/
def ofText (bytes : List UInt8) : Numeral where
  negative := bytes.head? == some 0x2D
  digits := digitsOf bytes
  places := placesOf bytes

theorem digitsOf_eq (bytes : List UInt8) : digitsOf bytes =
    (bytes.filter Byte.isDigit).foldl (fun n b => n * 10 + (b.toNat - 0x30)) 0 := by
  rw [digitsOf, Nat.ofDigits_eq_foldr, List.foldr_map, List.foldr_reverse]
  simp [Nat.add_comm, Nat.mul_comm]

theorem fraction_eq (digits places : Nat) (h : ∀ b ∈ bytes, Byte.isDigit b) :
    fraction digits places bytes =
      some (bytes.foldl (fun n b => n * 10 + (b.toNat - 0x30)) digits, places + bytes.length) := by
  induction bytes generalizing digits places with
  | nil => rfl
  | cons b bytes ih =>
    obtain ⟨hb, hmore⟩ := List.forall_mem_cons.mp h
    rw [fraction, if_pos hb, ih _ _ hmore, List.foldl_cons, List.length_cons]
    congr 2
    omega

theorem whole_eq (empty : Bool) (digits : Nat) (h : ∀ b ∈ bytes, Byte.isDigit b ∨ b = 0x2E)
    (hcount : bytes.count 0x2E ≤ 1) : whole empty digits bytes =
      if empty && !bytes.any Byte.isDigit then none
      else some ((bytes.filter Byte.isDigit).foldl (fun n b => n * 10 + (b.toNat - 0x30)) digits,
        placesOf bytes) := by
  induction bytes generalizing empty digits with
  | nil => cases empty <;> rfl
  | cons b bytes ih =>
    obtain ⟨hb, hmore⟩ := List.forall_mem_cons.mp h
    by_cases hd : Byte.isDigit b
    · have hp : b ≠ 0x2E := Scanner.ne_point_of_digit hd
      have hcount' : bytes.count 0x2E ≤ 1 := by simpa [hp] using hcount
      rw [whole, if_pos hd, ih _ _ hmore hcount']
      simp [hd, placesOf, hp]
    · obtain rfl : b = 0x2E := hb.resolve_left hd
      have hall : ∀ b ∈ bytes, Byte.isDigit b := by
        have hnone : 0x2E ∉ bytes := List.count_eq_zero.mp (by simpa using hcount)
        exact fun b hb => (hmore b hb).resolve_right fun he => hnone (he ▸ hb)
      have hfilter : bytes.filter Byte.isDigit = bytes := List.filter_eq_self.mpr hall
      rw [whole, if_neg hd, if_pos (beq_self_eq_true _), fraction_eq _ _ hall]
      cases bytes with
      | nil => cases empty <;> rfl
      | cons c more =>
        have hc := hall c List.mem_cons_self
        simp [hd, hc, hfilter, placesOf]

/-- A written number has a value if and only if there is a digit in it. -/
theorem ofBytes?_written (h : Written bytes) :
    ofBytes? bytes = if bytes.any Byte.isDigit then some (ofText bytes) else none := by
  cases bytes with
  | nil => exact h.elim
  | cons first more =>
    obtain ⟨hfirst, hmore, hcount⟩ := h
    have hsign (hdigit : Byte.isDigit first = false) (hp : first ≠ 0x2E) :
        whole true 0 more = if more.any Byte.isDigit then
          some (digitsOf (first :: more), placesOf (first :: more)) else none := by
      rw [whole_eq true 0 hmore (by simpa [hp] using hcount), digitsOf_eq]
      cases hany : more.any Byte.isDigit <;> simp [hdigit, placesOf, hp]
    by_cases hminus : first = 0x2D
    · subst hminus
      rw [ofBytes?, if_pos (beq_self_eq_true _), hsign rfl (by decide)]
      have hd : Byte.isDigit 0x2D = false := rfl
      cases hany : more.any Byte.isDigit <;> simp [hd, hany, ofText]
    by_cases hplus : first = 0x2B
    · subst hplus
      rw [ofBytes?, if_neg (by decide), if_pos (beq_self_eq_true _), hsign rfl (by decide)]
      have hd : Byte.isDigit 0x2B = false := rfl
      cases hany : more.any Byte.isDigit <;> simp [hd, hany, ofText]
    · have hall : ∀ b ∈ first :: more, Byte.isDigit b ∨ b = 0x2E := by
        refine List.forall_mem_cons.mpr ⟨?_, hmore⟩
        simpa [Byte.startsNumber, hminus, hplus] using hfirst
      rw [ofBytes?, if_neg (by simpa using hminus), if_neg (by simpa using hplus),
        whole_eq true 0 hall hcount]
      cases hany : (first :: more).any Byte.isDigit <;> simp [ofText, digitsOf_eq, hminus]

/-- There is a digit, and the number is not so great that it is rounded to two to the power of one
hundred and twenty-eight, where single precision ends. -/
def HasValue (own : List UInt8) : Prop :=
  (∃ b ∈ own, Byte.isDigit b) ∧ |(ofText own).value| < 2 ^ 128 - 2 ^ 103

theorem ascii_startsNumber {b : UInt8} (h : Byte.startsNumber b) : b < 0x80 := by
  have hcases : 0x30 ≤ b ∧ b ≤ 0x39 ∨ b = 0x2B ∨ b = 0x2D ∨ b = 0x2E := by
    simpa [Byte.startsNumber, Byte.isDigit, or_assoc] using h
  rcases hcases with ⟨-, hb⟩ | rfl | rfl | rfl
  · exact UInt8.lt_of_le_of_lt hb (by decide)
  all_goals decide

theorem ascii_written (h : Written own) : ∀ b ∈ own, b < 0x80 := by
  cases own with
  | nil => exact nofun
  | cons first more =>
    obtain ⟨hfirst, hmore, -⟩ := h
    refine List.forall_mem_cons.mpr ⟨ascii_startsNumber hfirst, fun b hb => ?_⟩
    refine ascii_startsNumber ?_
    rcases hmore b hb with hd | rfl
    · simp [Byte.startsNumber, hd]
    · rfl

theorem numberToken_written (h : Written own) :
    (HasValue own → Scanner.numberToken own.toArray = .number (ofText own).toFloat32) ∧
      (¬ HasValue own →
        ∃ text, Utf8.encode text = own ∧ Scanner.numberToken own.toArray = .keyword text) := by
  obtain ⟨text, htext⟩ : ∃ text, Utf8.encode text = own :=
    ⟨_, Utf8.encode_ascii (ascii_written h)⟩
  have hlossy : Utf8.decodeLossy own = text := by rw [← htext, Utf8.decodeLossy_encode]
  have hsome : (∃ b ∈ own, Byte.isDigit b) ↔ own.any Byte.isDigit := List.any_eq_true.symm
  rw [HasValue, hsome, ← isFinite_toFloat32_iff, Scanner.numberToken, List.toList_toArray,
    ofBytes?_written h, hlossy]
  cases own.any Byte.isDigit with
  | false => exact ⟨fun hvalue => by simp at hvalue, fun _ => ⟨text, htext, rfl⟩⟩
  | true =>
    simp only [if_true, Option.map_some, true_and]
    exact ⟨fun hfinite => if_pos hfinite, fun hfinite => ⟨text, htext, if_neg hfinite⟩⟩

end Numeral

namespace Lexer

open Numeral Scanner

/-- Where a number may start, the lexer takes the longest one. Its token is the nearest number in
single precision if there is one, and the keyword of the same bytes if not. -/
theorem read_number (lx : Lexer) (offset : Nat) (first : UInt8) (more : List UInt8)
    (hz : lx.options.zeroContinuesNumber) (hfirst : Byte.startsNumber first) :
    let here : Lexer := { lx with ending := .complete, cursor := ⟨offset, first :: more⟩ }
    ∃ own behind, first :: more = own ++ behind ∧ Longest own (first :: more) ∧
      (own.length ≤ lx.options.maxTokenLength → ∃ t, here.read = (.ok t,
          { here with cursor := ⟨offset + own.length, behind⟩, unterminated := false }) ∧
        (HasValue own → ∃ x, t = .number x ∧ NearestTo (ofText own).value x ∧
          signOf x = (ofText own).sign) ∧
        (¬ HasValue own → ∃ text, Utf8.encode text = own ∧ t = .keyword text)) := by
  intro here
  obtain ⟨own, behind, hown, hlongest, hscan⟩ := scan_written (o := lx.options) hz hfirst more
  refine ⟨own, behind, hown, hlongest, fun hfit => ?_⟩
  obtain ⟨looks, hscan⟩ := hscan (.inl hfit)
  obtain ⟨hnumber, hkeyword⟩ := numberToken_written hlongest.written
  refine ⟨numberToken own.toArray, ?_, fun hvalue => ?_, hkeyword⟩
  · have htaken : scan here.options here.cursor.ahead = _ := hscan
    rw [read, htaken]
    rfl
  · exact ⟨_, hnumber hvalue, nearestTo_toFloat32 _ hvalue.2, signOf_toFloat32 _⟩

theorem read_number_second_point :
    let here := ofBytes [0x2D, 0x33, 0x2E, 0x35, 0x2E, 0x32]
    here.options.zeroContinuesNumber ∧ Byte.startsNumber 0x2D ∧
      ∃ x, here.read = (.ok (.number x), { here with cursor := ⟨4, [0x2E, 0x32]⟩ }) ∧
        NearestTo (-7 / 2) x ∧ signOf x = .negative := by
  intro here
  obtain ⟨own, behind, hown, hlongest, hread⟩ :=
    read_number here 0 0x2D [0x33, 0x2E, 0x35, 0x2E, 0x32] rfl rfl
  have hwritten : Written [0x2D, 0x33, 0x2E, 0x35] := ⟨rfl, by decide +kernel, by decide +kernel⟩
  have hsecond : Longest [0x2D, 0x33, 0x2E, 0x35] ([0x2D, 0x33, 0x2E, 0x35] ++ [0x2E, 0x32]) := by
    refine longest_of_stops hwritten fun b hb => ?_
    obtain rfl : 0x2E = b := Option.some.inj hb
    exact mt (written_snoc hwritten).mp (by decide +kernel)
  obtain rfl := hlongest.unique hsecond
  obtain rfl : [0x2E, 0x32] = behind := @List.append_cancel_left _ [0x2D, 0x33, 0x2E, 0x35] _ _ hown
  obtain ⟨t, ht, hnumber, -⟩ := hread (by decide)
  have hvalue : (ofText [0x2D, 0x33, 0x2E, 0x35]).value = -7 / 2 := by
    have htext : ofText [0x2D, 0x33, 0x2E, 0x35] = ⟨true, 35, 1⟩ := by decide +kernel
    rw [htext]
    norm_num [value, sign, signed]
  have hfinite : HasValue [0x2D, 0x33, 0x2E, 0x35] := by
    refine ⟨⟨0x33, by decide, rfl⟩, ?_⟩
    rw [hvalue]
    norm_num [abs_div]
  obtain ⟨x, rfl, hnear, hsign⟩ := hnumber hfinite
  exact ⟨rfl, rfl, x, ht, hvalue ▸ hnear, hsign⟩

end Lexer

end PageScript
