import Mathlib.Data.List.Forall2
import PageScript.Proofs.Utf8Text
import PageScript.Text.Latin1

/-!
# Texts and their bytes

Bytes are read as UTF-8 if and only if they are the UTF-8 of a text. Strings of a script come back
as they were when they are shown, unless they are UTF-8 with a character that takes several bytes.
-/
namespace PageScript

namespace Utf8

section Characters

variable {v : Nat} {b₀ b₁ b₂ b₃ : UInt8}

theorem toNat_ofNat (h : v.isValidChar) : (Char.ofNat v).val.toNat = v := by
  rw [Char.ofNat, dif_pos h]
  rfl

/-- A byte is the one with its number. -/
theorem byte_eq {b : UInt8} {n : Nat} (h : n = b.toNat) : UInt8.ofNat n = b := by
  rw [h, UInt8.ofNat_toNat]

/-- A byte that is at least one of two bounds is at least the weaker one. -/
theorem bounded_below {p : Prop} [Decidable p] {narrow low b : UInt8} (hle : low ≤ narrow)
    (h : (if p then narrow else low).toNat ≤ b.toNat) :
    low.toNat ≤ b.toNat ∧ (p → narrow.toNat ≤ b.toNat) := by
  split at h
  · exact ⟨Nat.le_trans hle h, fun _ => h⟩
  · next hp => exact ⟨h, fun hp' => absurd hp' hp⟩

theorem bounded_above {p : Prop} [Decidable p] {narrow high b : UInt8} (hle : narrow ≤ high)
    (h : b.toNat ≤ (if p then narrow else high).toNat) :
    b.toNat ≤ high.toNat ∧ (p → b.toNat ≤ narrow.toNat) := by
  split at h
  · exact ⟨Nat.le_trans h hle, fun _ => h⟩
  · next hp => exact ⟨h, fun hp' => absurd hp' hp⟩

theorem exists_char_two (h₀ : 0xC2 ≤ b₀.toNat) (h₀' : b₀.toNat < 0xE0)
    (h₁ : 0x80 ≤ b₁.toNat) (h₁' : b₁.toNat ≤ 0xBF) :
    ∃ c, String.utf8EncodeChar c = [b₀, b₁] := by
  obtain ⟨v, hv⟩ : ∃ v, v = (b₀.toNat - 0xC0) * 64 + (b₁.toNat - 0x80) := ⟨_, rfl⟩
  have hvalid : v.isValidChar := .inl (by omega)
  refine ⟨Char.ofNat v, ?_⟩
  unfold String.utf8EncodeChar
  simp only [toNat_ofNat hvalid]
  rw [if_neg (by omega), if_pos (by omega), byte_eq (b := b₀) (by omega),
    byte_eq (b := b₁) (by omega)]

theorem exists_char_three (h₀ : 0xE0 ≤ b₀.toNat) (h₀' : b₀.toNat < 0xF0)
    (h₁ : 0x80 ≤ b₁.toNat ∧ (b₀.toNat = 0xE0 → 0xA0 ≤ b₁.toNat))
    (h₁' : b₁.toNat ≤ 0xBF ∧ (b₀.toNat = 0xED → b₁.toNat ≤ 0x9F))
    (h₂ : 0x80 ≤ b₂.toNat) (h₂' : b₂.toNat ≤ 0xBF) :
    ∃ c, String.utf8EncodeChar c = [b₀, b₁, b₂] := by
  obtain ⟨v, hv⟩ : ∃ v, v = ((b₀.toNat - 0xE0) * 64 + (b₁.toNat - 0x80)) * 64 +
      (b₂.toNat - 0x80) := ⟨_, rfl⟩
  have hvalid : v.isValidChar := by
    unfold Nat.isValidChar
    omega
  refine ⟨Char.ofNat v, ?_⟩
  unfold String.utf8EncodeChar
  simp only [toNat_ofNat hvalid]
  rw [if_neg (by omega), if_neg (by omega), if_pos (by omega), byte_eq (b := b₀) (by omega),
    byte_eq (b := b₁) (by omega), byte_eq (b := b₂) (by omega)]

theorem exists_char_four (h₀ : 0xF0 ≤ b₀.toNat) (h₀' : b₀.toNat < 0xF5)
    (h₁ : 0x80 ≤ b₁.toNat ∧ (b₀.toNat = 0xF0 → 0x90 ≤ b₁.toNat))
    (h₁' : b₁.toNat ≤ 0xBF ∧ (b₀.toNat = 0xF4 → b₁.toNat ≤ 0x8F))
    (h₂ : 0x80 ≤ b₂.toNat) (h₂' : b₂.toNat ≤ 0xBF)
    (h₃ : 0x80 ≤ b₃.toNat) (h₃' : b₃.toNat ≤ 0xBF) :
    ∃ c, String.utf8EncodeChar c = [b₀, b₁, b₂, b₃] := by
  obtain ⟨v, hv⟩ : ∃ v, v = (((b₀.toNat - 0xF0) * 64 + (b₁.toNat - 0x80)) * 64 +
      (b₂.toNat - 0x80)) * 64 + (b₃.toNat - 0x80) := ⟨_, rfl⟩
  have hvalid : v.isValidChar := by
    unfold Nat.isValidChar
    omega
  refine ⟨Char.ofNat v, ?_⟩
  unfold String.utf8EncodeChar
  simp only [toNat_ofNat hvalid]
  rw [if_neg (by omega), if_neg (by omega), if_neg (by omega), byte_eq (b := b₀) (by omega),
    byte_eq (b := b₁) (by omega), byte_eq (b := b₂) (by omega), byte_eq (b := b₃) (by omega)]

end Characters

section Holes

variable {d : Decoder} {bytes : List UInt8}

theorem decodeOnto_eq (out : Array (Option Char)) (d : Decoder) (bytes : List UInt8) :
    decodeOnto out d bytes = out ++ decodeOnto #[] d bytes := by
  induction bytes generalizing out d with
  | nil => cases d <;> simp [decodeOnto]
  | cons b rest ih =>
    rw [decodeOnto_cons, decodeOnto_cons, ih (out ++ (d.step b).1), ih (#[] ++ (d.step b).1)]
    exact Array.toList_inj.mp (by simp)

/-- The bytes go on from a decoder without a hole. -/
def GoesOn (d : Decoder) (bytes : List UInt8) : Prop := none ∉ decodeOnto #[] d bytes

theorem goesOn_cons {b : UInt8} {rest : List UInt8} :
    GoesOn d (b :: rest) ↔ none ∉ (d.step b).1 ∧ GoesOn (d.step b).2 rest := by
  rw [GoesOn, decodeOnto_cons, decodeOnto_eq]
  simp [GoesOn]

/-- The decoder behind a byte of an open sequence. -/
def Decoder.next (bits : Nat) : Nat → Decoder
  | 0 => .ready
  | more + 1 => .pending bits more 0x80 0xBF

/-- An open sequence goes on with a byte in its range. -/
theorem GoesOn.exists_next {bits more : Nat} {low high : UInt8}
    (h : GoesOn (.pending bits more low high) bytes) :
    ∃ b rest, bytes = b :: rest ∧ low.toNat ≤ b.toNat ∧ b.toNat ≤ high.toNat ∧
      GoesOn (.next (bits * 64 + (b.toNat - 0x80)) more) rest := by
  cases bytes with
  | nil => simp [GoesOn, decodeOnto] at h
  | cons b rest =>
    obtain ⟨hread, hrest⟩ := goesOn_cons.mp h
    rw [Decoder.step] at hread hrest
    split at hread
    · next hb =>
      rw [if_pos hb] at hrest
      refine ⟨b, rest, rfl, hb.1, hb.2, ?_⟩
      cases more <;> exact hrest
    · exact absurd List.mem_cons_self hread

/-- Bytes without a hole begin with a character. -/
theorem GoesOn.exists_char {b : UInt8} {rest : List UInt8} (h : GoesOn .ready (b :: rest)) :
    ∃ c more, b :: rest = String.utf8EncodeChar c ++ more ∧ GoesOn .ready more := by
  obtain ⟨hread, hrest⟩ := goesOn_cons.mp h
  have hb : UInt8.ofNat b.toNat = b := UInt8.ofNat_toNat
  have hbyte : b.toNat < 256 := b.toNat_lt
  rw [Decoder.step, ← hb] at hread hrest
  rcases Nat.lt_or_ge b.toNat 0x80 with h1 | h1
  · rw [lead_ascii h1] at hrest
    have hvalid : b.toNat.isValidChar := .inl (by omega)
    refine ⟨Char.ofNat b.toNat, rest, ?_, hrest⟩
    unfold String.utf8EncodeChar
    simp only [toNat_ofNat hvalid]
    rw [if_pos (by omega), hb, List.singleton_append]
  rcases Nat.lt_or_ge b.toNat 0xC2 with h2 | h2
  · have hlead : lead b = ([none], .ready) := by
      simp [lead, UInt8.lt_iff_toNat_lt, Nat.not_lt.mpr h1, h2]
    rw [hb, hlead] at hread
    exact absurd List.mem_cons_self hread
  rcases Nat.lt_or_ge b.toNat 0xE0 with h3 | h3
  · rw [lead_two h2 h3] at hrest
    obtain ⟨b₁, more, rfl, hlow, hhigh, hmore⟩ := hrest.exists_next
    obtain ⟨c, hc⟩ := exists_char_two h2 h3 hlow hhigh
    exact ⟨c, more, by rw [hc]; rfl, hmore⟩
  rcases Nat.lt_or_ge b.toNat 0xF0 with h4 | h4
  · rw [lead_three h3 h4] at hrest
    obtain ⟨b₁, _, rfl, hlow, hhigh, hrest⟩ := hrest.exists_next
    obtain ⟨b₂, more, rfl, hlow₂, hhigh₂, hmore⟩ := hrest.exists_next
    obtain ⟨c, hc⟩ := exists_char_three h3 h4 (bounded_below (by decide) hlow)
      (bounded_above (by decide) hhigh) hlow₂ hhigh₂
    exact ⟨c, more, by rw [hc]; rfl, hmore⟩
  rcases Nat.lt_or_ge b.toNat 0xF5 with h5 | h5
  · rw [lead_four h4 h5] at hrest
    obtain ⟨b₁, _, rfl, hlow, hhigh, hrest⟩ := hrest.exists_next
    obtain ⟨b₂, _, rfl, hlow₂, hhigh₂, hrest⟩ := hrest.exists_next
    obtain ⟨b₃, more, rfl, hlow₃, hhigh₃, hmore⟩ := hrest.exists_next
    obtain ⟨c, hc⟩ := exists_char_four h4 h5 (bounded_below (by decide) hlow)
      (bounded_above (by decide) hhigh) hlow₂ hhigh₂ hlow₃ hhigh₃
    exact ⟨c, more, by rw [hc]; rfl, hmore⟩
  · have hlead : lead b = ([none], .ready) := by
      simp [lead, UInt8.lt_iff_toNat_lt, Nat.not_lt.mpr h1, Nat.not_lt.mpr h2, Nat.not_lt.mpr h3,
        Nat.not_lt.mpr h4, Nat.not_lt.mpr h5]
    rw [hb, hlead] at hread
    exact absurd List.mem_cons_self hread

theorem GoesOn.exists_text (h : GoesOn .ready bytes) : ∃ text, bytes = encode text := by
  obtain ⟨n, hn⟩ : ∃ n, bytes.length ≤ n := ⟨_, Nat.le_refl _⟩
  induction n generalizing bytes with
  | zero => exact ⟨"", List.eq_nil_of_length_eq_zero (Nat.le_zero.mp hn)⟩
  | succ n ih =>
    cases bytes with
    | nil => exact ⟨"", rfl⟩
    | cons b rest =>
      obtain ⟨c, more, he, hmore⟩ := h.exists_char
      have hlength := congrArg List.length he
      have hpos := c.utf8Size_pos
      rw [List.length_append, String.length_utf8EncodeChar] at hlength
      obtain ⟨text, rfl⟩ := ih hmore (by simp only [List.length_cons] at hn hlength; omega)
      refine ⟨String.ofList (c :: text.toList), ?_⟩
      rw [he, encode, encode, String.toList_ofList, List.flatMap_cons]

end Holes

/-- Bytes are read as a text if and only if they are its UTF-8. -/
theorem decode?_eq_some_iff {bytes : List UInt8} {text : String} :
    decode? bytes = some text ↔ bytes = encode text := by
  have hread (text : String) : decode? (encode text) = some text := by
    simp [decode?, characters_encode, Function.comp_def]
  constructor
  · intro h
    have hall : (characters bytes).all Option.isSome := by
      by_contra hall
      rw [decode?, if_neg hall] at h
      cases h
    have hgoes : GoesOn .ready bytes := fun hm => by
      simpa using List.all_eq_true.mp hall none (by simpa [characters] using hm)
    obtain ⟨text', rfl⟩ := hgoes.exists_text
    rw [Option.some.inj (h.symm.trans (hread text'))]
  · rintro rfl
    exact hread text

theorem isValidUTF8_iff {bytes : List UInt8} :
    bytes.toByteArray.IsValidUTF8 ↔ ∃ text, bytes = encode text := by
  constructor
  · rintro ⟨chars, h⟩
    refine ⟨String.ofList chars, ?_⟩
    rw [encode, String.toList_ofList]
    exact List.toByteArray_inj.mp h
  · rintro ⟨text, rfl⟩
    exact ⟨text.toList, rfl⟩

end Utf8

namespace Latin1

theorem byteOfChar_charOfByte (b : UInt8) : byteOfChar (charOfByte b) = b := by
  have hb : b.toNat < 256 := b.toNat_lt
  have hvalid : b.toNat.isValidChar := .inl (by omega)
  have hchar : (charOfByte b).toNat = b.toNat := Utf8.toNat_ofNat hvalid
  rw [byteOfChar, hchar, if_pos (by omega), UInt8.ofNat_toNat]

theorem encode_decode_of_none {bytes : List UInt8} (h : Utf8.decode? bytes = none) :
    encode (decode bytes) = bytes := by
  rw [decode, h, encode, String.toList_ofList, List.map_map]
  exact (List.map_congr_left fun b _ => byteOfChar_charOfByte b).trans (List.map_id bytes)

theorem encode_decode_encode (text : String) :
    encode (decode (Utf8.encode text)) = text.toList.map byteOfChar := by
  rw [decode, Utf8.decode?_eq_some_iff.mpr rfl, encode]

/-- A character that is written in bytes of ASCII is written as its own byte. -/
theorem utf8EncodeChar_eq {c : Char} (h : ∀ b ∈ String.utf8EncodeChar c, b < 0x80) :
    String.utf8EncodeChar c = [byteOfChar c] := by
  have hfirst : ∀ n, 0x80 ≤ n → n < 256 → ¬ UInt8.ofNat n < 0x80 := by
    intro n hn hn'
    rw [UInt8.lt_iff_toNat_lt, Utf8.toNat_byte hn']
    exact Nat.not_lt.mpr hn
  unfold String.utf8EncodeChar at h ⊢
  dsimp only at h ⊢
  split at h
  · next hc =>
    have hbyte : c.toNat ≤ 0xFF := Nat.le_trans hc (by decide)
    rw [if_pos hc, byteOfChar, if_pos hbyte]
    rfl
  · split at h
    · exact absurd (h _ List.mem_cons_self) (hfirst _ (by omega) (by omega))
    · split at h
      · exact absurd (h _ List.mem_cons_self) (hfirst _ (by omega) (by omega))
      · exact absurd (h _ List.mem_cons_self) (hfirst _ (by omega) (by omega))

theorem length_le_encode (chars : List Char) :
    chars.length ≤ (chars.flatMap String.utf8EncodeChar).length := by
  induction chars with
  | nil => exact Nat.zero_le _
  | cons c chars ih =>
    have hpos := c.utf8Size_pos
    rw [List.flatMap_cons, List.length_append, String.length_utf8EncodeChar, List.length_cons]
    omega

/-- Where no character takes several bytes, all of them are ASCII. -/
theorem forall_ascii {chars : List Char}
    (h : (chars.flatMap String.utf8EncodeChar).length ≤ chars.length) :
    ∀ b ∈ chars.flatMap String.utf8EncodeChar, b < 0x80 := by
  induction chars with
  | nil => exact nofun
  | cons c chars ih =>
    have hpos := c.utf8Size_pos
    have hle := length_le_encode chars
    rw [List.flatMap_cons, List.length_append, String.length_utf8EncodeChar, List.length_cons] at h
    have hsize : c.utf8Size = 1 := by omega
    have hc : c.val ≤ 127 := Char.utf8Size_eq_one_iff.mp hsize
    rw [List.flatMap_cons, List.forall_mem_append]
    refine ⟨fun b hb => ?_, ih (by omega)⟩
    rw [String.utf8EncodeChar_eq_singleton hsize, List.mem_singleton] at hb
    have hlt : c.val.toNat ≤ 127 := hc
    rw [hb, UInt8.lt_iff_toNat_lt, UInt32.toNat_toUInt8]
    exact Nat.lt_of_le_of_lt (Nat.mod_le _ _) (Nat.lt_succ_of_le hlt)

theorem map_byteOfChar_eq_iff {chars : List Char} :
    chars.map byteOfChar = chars.flatMap String.utf8EncodeChar ↔
      ∀ b ∈ chars.flatMap String.utf8EncodeChar, b < 0x80 := by
  constructor
  · intro h
    refine forall_ascii (Nat.le_of_eq ?_)
    rw [← h, List.length_map]
  · intro h
    have hc (c : Char) (hc : c ∈ chars) : String.utf8EncodeChar c = [byteOfChar c] :=
      utf8EncodeChar_eq fun b hb => h b (List.mem_flatMap.mpr ⟨c, hc, hb⟩)
    induction chars with
    | nil => rfl
    | cons c chars ih =>
      rw [List.flatMap_cons, List.forall_mem_append] at h
      rw [List.map_cons, List.flatMap_cons, hc c List.mem_cons_self,
        ih h.2 fun c' hc' => hc c' (List.mem_cons_of_mem _ hc')]
      rfl

/-- A string is shown in the bytes it is written with if and only if they are all ASCII, or no
UTF-8. The UTF-8 of a text is shown with one byte for each character, its code point where that is
a byte and else a question mark. -/
theorem shown_bytes :
    (∀ bytes : List UInt8, encode (decode bytes) = bytes ↔
      (∀ b ∈ bytes, b < 0x80) ∨ ¬ bytes.toByteArray.IsValidUTF8) ∧
    ∀ text : String, List.Forall₂
      (fun (c : Char) (b : UInt8) => b.toNat = if c.toNat ≤ 0xFF then c.toNat else '?'.toNat)
      text.toList (encode (decode text.toUTF8.data.toList)) := by
  constructor
  · intro bytes
    rw [Utf8.isValidUTF8_iff]
    by_cases h : ∃ text, bytes = Utf8.encode text
    · obtain ⟨text, rfl⟩ := h
      rw [encode_decode_encode, or_iff_left (not_not_intro ⟨text, rfl⟩)]
      exact map_byteOfChar_eq_iff
    · have hnone : Utf8.decode? bytes = none := by
        cases hd : Utf8.decode? bytes with
        | none => rfl
        | some text => exact absurd ⟨text, Utf8.decode?_eq_some_iff.mp hd⟩ h
      exact iff_of_true (encode_decode_of_none hnone) (.inr h)
  · intro text
    have hbytes : text.toUTF8.data.toList = Utf8.encode text := by
      rw [String.toUTF8_eq_toByteArray, ← String.utf8Encode_toList]
      exact List.toList_data_toByteArray
    rw [hbytes, encode_decode_encode, List.forall₂_map_right_iff, List.forall₂_same]
    intro c _
    rw [byteOfChar]
    split
    · next hc => exact Utf8.toNat_byte (by omega)
    · rfl

-- One byte for a letter with an accent, and a question mark for one of another script.
example : encode (decode [0xC3, 0xA9, 0xD0, 0xB4]) = [0xE9, 0x3F] := by decide +kernel

end Latin1

end PageScript
