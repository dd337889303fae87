import PageScript.Text.Utf8

/-!
# Text as UTF-8

The bytes of a text are read as that text.
-/
namespace PageScript.Utf8

def encode (text : String) : List UInt8 := text.toList.flatMap String.utf8EncodeChar

section Bytes

variable {n : Nat}

theorem toNat_byte (h : n < 256) : (UInt8.ofNat n).toNat = n := UInt8.toNat_ofNat_of_lt h

theorem lead_ascii (h : n < 0x80) : lead (.ofNat n) = ([some (Char.ofNat n)], .ready) := by
  have hn := toNat_byte (n := n) (by omega)
  simp [lead, UInt8.lt_iff_toNat_lt, hn, h]

theorem lead_two (hlow : 0xC2 ≤ n) (hhigh : n < 0xE0) :
    lead (.ofNat n) = ([], .pending (n - 0xC0) 0 0x80 0xBF) := by
  have hn := toNat_byte (n := n) (by omega)
  have h80 : ¬ n < 0x80 := by omega
  have hC2 : ¬ n < 0xC2 := by omega
  simp [lead, UInt8.lt_iff_toNat_lt, hn, h80, hC2, hhigh]

theorem lead_three (hlow : 0xE0 ≤ n) (hhigh : n < 0xF0) :
    lead (.ofNat n) = ([], .pending (n - 0xE0) 1 (if n = 0xE0 then 0xA0 else 0x80)
      (if n = 0xED then 0x9F else 0xBF)) := by
  have hn := toNat_byte (n := n) (by omega)
  have h80 : ¬ n < 0x80 := by omega
  have hC2 : ¬ n < 0xC2 := by omega
  have hE0 : ¬ n < 0xE0 := by omega
  simp [lead, UInt8.lt_iff_toNat_lt, ← UInt8.toNat_inj, hn, h80, hC2, hE0, hhigh]

theorem lead_four (hlow : 0xF0 ≤ n) (hhigh : n < 0xF5) :
    lead (.ofNat n) = ([], .pending (n - 0xF0) 2 (if n = 0xF0 then 0x90 else 0x80)
      (if n = 0xF4 then 0x8F else 0xBF)) := by
  have hn := toNat_byte (n := n) (by omega)
  have h80 : ¬ n < 0x80 := by omega
  have hC2 : ¬ n < 0xC2 := by omega
  have hE0 : ¬ n < 0xE0 := by omega
  have hF0 : ¬ n < 0xF0 := by omega
  simp [lead, UInt8.lt_iff_toNat_lt, ← UInt8.toNat_inj, hn, h80, hC2, hE0, hF0, hhigh]

section Steps

variable {out : Array (Option Char)} {rest : List UInt8} {bits more : Nat} {low high : UInt8}

theorem decodeOnto_cons (d : Decoder) (b : UInt8) :
    decodeOnto out d (b :: rest) = decodeOnto (out ++ (d.step b).1) (d.step b).2 rest := by
  rw [decodeOnto]

theorem decodeOnto_lead {d : Decoder} (h : lead (.ofNat n) = ([], d)) :
    decodeOnto out .ready (.ofNat n :: rest) = decodeOnto out d rest := by
  rw [decodeOnto_cons, Decoder.step, h]
  simp

/-- A byte in the range of an open sequence adds its six bits. -/
theorem decodeOnto_more (hn : n < 256) (hlow : low.toNat ≤ n) (hhigh : n ≤ high.toNat) :
    decodeOnto out (.pending bits (more + 1) low high) (.ofNat n :: rest) =
      decodeOnto out (.pending (bits * 64 + (n - 0x80)) more 0x80 0xBF) rest := by
  simp only [decodeOnto_cons, Decoder.step, UInt8.le_iff_toNat_le, toNat_byte hn]
  rw [if_pos ⟨hlow, hhigh⟩]
  simp

theorem decodeOnto_last (hn : n < 256) (hlow : low.toNat ≤ n) (hhigh : n ≤ high.toNat) :
    decodeOnto out (.pending bits 0 low high) (.ofNat n :: rest) =
      decodeOnto (out.push (some (Char.ofNat (bits * 64 + (n - 0x80))))) .ready rest := by
  simp only [decodeOnto_cons, Decoder.step, UInt8.le_iff_toNat_le, toNat_byte hn]
  rw [if_pos ⟨hlow, hhigh⟩]
  simp

end Steps

end Bytes

/-- The bytes of a character are read as it, one after the other. -/
theorem decodeOnto_char (out : Array (Option Char)) (c : Char) (rest : List UInt8) :
    decodeOnto out .ready (String.utf8EncodeChar c ++ rest) =
      decodeOnto (out.push (some c)) .ready rest := by
  obtain ⟨v, hv⟩ : ∃ v, v = c.val.toNat := ⟨_, rfl⟩
  have hc : Char.ofNat v = c := by rw [hv]; exact Char.ofNat_toNat c
  have hvalid : v < 0xD800 ∨ 0xDFFF < v ∧ v < 0x110000 := by rw [hv]; exact c.valid
  unfold String.utf8EncodeChar
  simp only [← hv]
  split
  · next h =>
    rw [List.singleton_append, decodeOnto_cons, Decoder.step, lead_ascii (by omega), hc]
    simp
  · split
    · next h =>
      have hbits : (v / 64 % 32 + 192 - 192) * 64 + (v % 64 + 128 - 128) = v := by omega
      rw [List.cons_append, List.singleton_append, decodeOnto_lead (lead_two (by omega) (by omega)),
        decodeOnto_last (by omega) (by simp) (by simp; omega), hbits, hc]
    · split
      · next h =>
        have hbits : ((v / 4096 % 16 + 224 - 224) * 64 + (v / 64 % 64 + 128 - 128)) * 64 +
            (v % 64 + 128 - 128) = v := by omega
        have hlow : (if v / 4096 % 16 + 224 = 224 then 0xA0 else 0x80 : UInt8).toNat ≤
            v / 64 % 64 + 128 := by
          split <;> simp
          omega
        have hhigh : v / 64 % 64 + 128 ≤
            (if v / 4096 % 16 + 224 = 237 then 0x9F else 0xBF : UInt8).toNat := by
          split <;> (simp; omega)
        rw [List.cons_append, List.cons_append, List.singleton_append,
          decodeOnto_lead (lead_three (by omega) (by omega)),
          decodeOnto_more (by omega) hlow hhigh,
          decodeOnto_last (by omega) (by simp) (by simp; omega), hbits, hc]
      · next h =>
        have hbits : (((v / 262144 % 8 + 240 - 240) * 64 + (v / 4096 % 64 + 128 - 128)) * 64 +
            (v / 64 % 64 + 128 - 128)) * 64 + (v % 64 + 128 - 128) = v := by omega
        have hlow : (if v / 262144 % 8 + 240 = 240 then 0x90 else 0x80 : UInt8).toNat ≤
            v / 4096 % 64 + 128 := by
          split <;> simp
          omega
        have hhigh : v / 4096 % 64 + 128 ≤
            (if v / 262144 % 8 + 240 = 244 then 0x8F else 0xBF : UInt8).toNat := by
          split <;> (simp; omega)
        rw [List.cons_append, List.cons_append, List.cons_append, List.singleton_append,
          decodeOnto_lead (lead_four (by omega) (by omega)),
          decodeOnto_more (by omega) hlow hhigh,
          decodeOnto_more (by omega) (by simp) (by simp; omega),
          decodeOnto_last (by omega) (by simp) (by simp; omega), hbits, hc]

theorem characters_encode (text : String) : characters (encode text) = text.toList.map some := by
  have h (chars : List Char) (out : Array (Option Char)) :
      decodeOnto out .ready (chars.flatMap String.utf8EncodeChar) =
        out ++ (chars.map some).toArray := by
    induction chars generalizing out with
    | nil => simp [decodeOnto]
    | cons c chars ih =>
      rw [List.flatMap_cons, decodeOnto_char, ih]
      simp
  simp [characters, encode, h]

@[simp] theorem decodeLossy_encode (text : String) : decodeLossy (encode text) = text := by
  simp [decodeLossy, characters_encode, Function.comp_def]

end PageScript.Utf8
