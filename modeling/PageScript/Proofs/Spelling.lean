import PageScript.Proofs.Integers
import PageScript.Proofs.Literals
import PageScript.Proofs.Utf8Text

/-!
# Tokens as they are written

Each token that a script is made of has a spelling, and what is spelled so is read as that token if
a blank comes behind it.
-/
namespace PageScript

namespace Whole

def digits (chars : List Char) : List UInt8 := chars.map fun c => UInt8.ofNat c.toNat

def spell (w : Whole) : List UInt8 :=
  (if w.negative then [0x2D] else []) ++ digits (Nat.toDigits 10 w.magnitude)

theorem digit_byte {c : Char} (h : c.isDigit) : Byte.isDigit (UInt8.ofNat c.toNat) ∧
    (UInt8.ofNat c.toNat).toNat = c.toNat := by
  have hc : 48 ≤ c.toNat ∧ c.toNat ≤ 57 := by
    simpa [Char.isDigit, UInt32.le_iff_toNat_le] using h
  have hbyte : (UInt8.ofNat c.toNat).toNat = c.toNat :=
    UInt8.toNat_ofNat_of_lt (Nat.lt_of_le_of_lt hc.2 (by decide))
  simp only [Byte.isDigit, UInt8.le_iff_toNat_le, hbyte]
  simpa using hc

theorem isDigit_of_mem_digits {chars : List Char} (h : ∀ c ∈ chars, c.isDigit) {b : UInt8}
    (hb : b ∈ digits chars) : Byte.isDigit b := by
  obtain ⟨c, hc, rfl⟩ := List.mem_map.mp hb
  exact (digit_byte (h c hc)).1

/-- Digits are read as the number that they stand for. -/
theorem whole_digits {chars : List Char} (h : ∀ c ∈ chars, c.isDigit) (n : Nat) :
    Numeral.whole false n (digits chars) = some (Nat.ofDigitChars 10 chars n, 0) := by
  induction chars generalizing n with
  | nil => rfl
  | cons c chars ih =>
    obtain ⟨hc, hmore⟩ := List.forall_mem_cons.mp h
    obtain ⟨hdigit, hbyte⟩ := digit_byte hc
    have hlater := ih hmore (10 * n + (c.toNat - '0'.toNat))
    rw [digits, List.map_cons, Numeral.whole, if_pos hdigit, hbyte, Nat.mul_comm n,
      Nat.ofDigitChars_cons]
    exact hlater

theorem isDigit_toDigits (k : Nat) : ∀ c ∈ Nat.toDigits 10 k, c.isDigit := fun _ =>
  Nat.isDigit_of_mem_toDigits (by decide) (by decide)

/-- The digits of a positive number do not begin with a zero. -/
theorem toDigits_of_pos {k : Nat} (h : 0 < k) :
    ∃ c chars, Nat.toDigits 10 k = c :: chars ∧ c ≠ '0' := by
  induction k using Nat.strongRecOn with
  | ind k ih =>
    by_cases hk : k < 10
    · have hne : ∀ d < 10, 0 < d → Nat.digitChar d ≠ '0' := by decide
      exact ⟨_, [], Nat.toDigits_of_lt_base hk, hne k hk h⟩
    · obtain ⟨c, chars, hchars, hc⟩ := ih (k / 10) (by omega) (by omega)
      refine ⟨c, chars ++ [(k % 10).digitChar], ?_, hc⟩
      rw [Nat.toDigits_of_base_le (by decide) (by omega), hchars]
      rfl

/-- A number is written with a single digit or begins with another one than zero. -/
theorem toDigits_leading (k : Nat) :
    ∃ c chars, Nat.toDigits 10 k = c :: chars ∧ (chars = [] ∨ c ≠ '0') := by
  by_cases hk : 0 < k
  · obtain ⟨c, chars, hchars, hc⟩ := toDigits_of_pos hk
    exact ⟨c, chars, hchars, .inr hc⟩
  · obtain rfl : k = 0 := by omega
    exact ⟨_, [], Nat.toDigits_of_lt_base (by decide), .inl rfl⟩

theorem ofBytes?_spell (w : Whole) :
    Numeral.ofBytes? w.spell = some ⟨w.negative, w.magnitude, 0⟩ := by
  obtain ⟨c, chars, hchars, -⟩ := toDigits_leading w.magnitude
  have hall := isDigit_toDigits w.magnitude
  rw [hchars] at hall
  obtain ⟨hdigit, hbyte⟩ := digit_byte (hall c List.mem_cons_self)
  have hvalue := whole_digits hall 0
  rw [← hchars, Nat.ofDigitChars_ten_toDigits, hchars, digits, List.map_cons, Numeral.whole,
    if_pos hdigit] at hvalue
  have hread : Numeral.whole true 0 (digits (c :: chars)) = some (w.magnitude, 0) := by
    rw [digits, List.map_cons, Numeral.whole, if_pos hdigit]
    exact hvalue
  cases hn : w.negative with
  | true => simp [spell, hn, hchars, Numeral.ofBytes?, hread]
  | false =>
    have hplain (b : UInt8) : Byte.isDigit b → b ≠ 0x2D ∧ b ≠ 0x2B := by
      intro h
      constructor <;> rintro rfl <;> exact absurd h (by decide)
    obtain ⟨hminus, hplus⟩ := hplain _ hdigit
    rw [digits, List.map_cons] at hread
    simp [spell, hn, hchars, digits, Numeral.ofBytes?, hminus, hplus, hread]

theorem numberToken_spell {w : Whole} (h : w.Exact) :
    Scanner.numberToken w.spell.toArray = .number w.toFloat32 := by
  simp [Scanner.numberToken, ofBytes?_spell, numeral_toFloat32 h, (represented h).finite]

end Whole

namespace Token

/-- A byte inside parentheses: what would mean something else there is escaped. -/
def spellByte (b : UInt8) : List UInt8 :=
  if b = 0x28 ∨ b = 0x29 ∨ b = 0x5C then [0x5C, b]
  else if b = 0x0D then [0x5C, 0x72]
  else [b]

/-- The bytes that a token is written with. -/
def spell : Token → List UInt8
  | .number n => (Whole.ofFloat32 n).spell
  | .string bytes => 0x28 :: (bytes.flatMap spellByte ++ [0x29])
  | .name text | .variable text | .keyword text => Utf8.encode text
  | .arrayStart => [0x5B]
  | .arrayEnd => [0x5D]
  | .dictionaryStart => [0x3C, 0x3C]
  | .dictionaryEnd => [0x3E, 0x3E]
  | .objectReference | .blank | .comment _ | .endOfInput => []

/-- The text is a mark with bytes of a certain class behind it. -/
def Marked (mark : UInt8) (member : UInt8 → Bool) (text : String) : Prop :=
  (Utf8.encode text).head? = some mark ∧ (Utf8.encode text).tail.all member

instance (mark : UInt8) (member : UInt8 → Bool) (text : String) :
    Decidable (Marked mark member text) := inferInstanceAs (Decidable (_ ∧ _))

theorem Marked.encode_eq {mark : UInt8} {member : UInt8 → Bool} {text : String}
    (h : Marked mark member text) : ∃ ws, Utf8.encode text = mark :: ws ∧ ∀ b ∈ ws, member b := by
  obtain ⟨hhead, htail⟩ := h
  obtain ⟨ws, hws⟩ := List.head?_eq_some_iff.mp hhead
  rw [hws] at htail
  exact ⟨ws, hws, List.all_eq_true.mp htail⟩

/-- A keyword that may stand anywhere: no `R`, not begun like a number, and without bytes that end a
word. -/
def IsWord (text : String) : Prop :=
  text ≠ "R" ∧ (Utf8.encode text).head?.any (!Byte.startsNumber ·) ∧
    (Utf8.encode text).all Byte.isRegular

instance (text : String) : Decidable (IsWord text) := inferInstanceAs (Decidable (_ ∧ _))

theorem IsWord.encode_eq {text : String} (h : IsWord text) : ∃ first ws,
    Utf8.encode text = first :: ws ∧ ¬ Byte.startsNumber first ∧
      ∀ b ∈ first :: ws, Byte.isRegular b := by
  obtain ⟨-, hfirst, hall⟩ := h
  cases hs : Utf8.encode text with
  | nil => simp [hs] at hfirst
  | cons first ws =>
    rw [hs] at hfirst hall
    exact ⟨first, ws, rfl, by simpa using hfirst, List.all_eq_true.mp hall⟩

/-- The token can be written so that it is read back: its number is an integer and exact, its words
are made of bytes that belong to them, and its text is no longer than the limit. -/
def Spellable (o : LexerOptions) : Token → Prop
  | .number n => ∃ w : Whole, w.Exact ∧ w.toFloat32 = n ∧ w.spell.length ≤ o.maxTokenLength
  | .string bytes => bytes.length ≤ o.maxTokenLength
  | .name text =>
    Marked 0x2F Byte.isRegular text ∧ (Utf8.encode text).length ≤ o.maxTokenLength
  | .variable text =>
    Marked 0x24 Byte.isWord text ∧ (Utf8.encode text).length ≤ o.maxTokenLength
  | .keyword text =>
    (text = "#" ∨ IsWord text) ∧ (Utf8.encode text).length ≤ o.maxTokenLength
  | .arrayStart | .arrayEnd | .dictionaryStart | .dictionaryEnd => True
  | .objectReference | .blank | .comment _ | .endOfInput => False

/-- Parentheses, backslashes and carriage returns are escaped, and all other bytes stand for
themselves. -/
theorem renders_spell (bytes : List UInt8) :
    LiteralString.Renders 0 bytes (bytes.flatMap spellByte) := by
  induction bytes with
  | nil => exact .nil
  | cons b bytes ih =>
    rw [List.flatMap_cons, spellByte]
    split
    · next h => rcases h with rfl | rfl | rfl <;> exact .escaped (by decide) (by decide) ih
    · next h =>
      split
      · next h =>
        subst h
        exact .letter (by decide) ih
      · next h' =>
        simp only [not_or] at h
        exact .raw (by simp [h, h']) ih

/-- There is no need to search for the integer that a number is. -/
theorem spellable_number {o : LexerOptions} {n : Float32} : (number n).Spellable o ↔
    (Whole.ofFloat32 n).Exact ∧ (Whole.ofFloat32 n).toFloat32 = n ∧
      (Whole.ofFloat32 n).spell.length ≤ o.maxTokenLength := by
  constructor
  · rintro ⟨w, hw, rfl, hfit⟩
    rw [(Whole.represented hw).whole]
    exact ⟨hw, rfl, hfit⟩
  · exact fun h => ⟨_, h⟩

instance (o : LexerOptions) : (t : Token) → Decidable (t.Spellable o)
  | .number _ => decidable_of_iff _ spellable_number.symm
  | .string _ => inferInstanceAs (Decidable (_ ≤ _))
  | .name _ | .variable _ | .keyword _ => inferInstanceAs (Decidable (_ ∧ _))
  | .arrayStart | .arrayEnd | .dictionaryStart | .dictionaryEnd => .isTrue trivial
  | .objectReference | .blank | .comment _ | .endOfInput => .isFalse id

end Token

namespace Scanner

variable {o : LexerOptions} {text : Array UInt8} {n : Nat} {ws rest : List UInt8} {b : UInt8}

/-- Bytes that belong to the token are added to its text, as far as the limit allows. -/
theorem run_keep {f : Array UInt8 → Scanner} (Q : Array UInt8 → Prop)
    (hstep : ∀ text, Q text → ∀ b ∈ ws,
      (f text).step o b = .advance (f (keep o text b)) ∧ Q (text.push b))
    (hfit : text.size + ws.length ≤ o.maxTokenLength) (hQ : Q text) :
    run o (f text) n (ws ++ rest) = run o (f (text ++ ws)) (n + ws.length) rest := by
  induction ws generalizing text n with
  | nil => simp
  | cons b ws ih =>
    rw [List.length_cons] at hfit
    obtain ⟨hb, hnext⟩ := hstep text hQ b List.mem_cons_self
    rw [keep_of_lt (by omega)] at hb
    have hlater := @ih (text.push b) (n + 1)
      (fun text hQ b hb => hstep text hQ b (List.mem_cons_of_mem _ hb)) (by simp; omega) hnext
    rw [List.cons_append, run_advance hb, hlater]
    simp [Nat.add_assoc, Nat.add_comm 1]

theorem blank_cases (hb : Byte.isBlank b) :
    b = 0x00 ∨ b = 0x09 ∨ b = 0x0A ∨ b = 0x0C ∨ b = 0x0D ∨ b = 0x20 := by
  simpa [Byte.isBlank, or_assoc] using hb

/-- A blank ends every word and number. -/
theorem ends_of_blank (hb : Byte.isBlank b) : Byte.isRegular b = false ∧ Byte.isWord b = false ∧
    Byte.isDigit b = false ∧ b ≠ 0x2E := by
  rcases blank_cases hb with rfl | rfl | rfl | rfl | rfl | rfl <;> decide

theorem begin_word (hr : Byte.isRegular b) (hn : ¬ Byte.startsNumber b) :
    begin o b = .advance (.word (keep o #[] b)) := by
  simp only [Byte.isRegular, Byte.isDelimiter, Bool.and_eq_true, Bool.not_eq_true',
    Bool.or_eq_false_iff, beq_eq_false_iff_ne] at hr
  simp [begin, hr, hn]

/-- A word up to the blank behind it. -/
theorem run_word (hws : ∀ b ∈ ws, Byte.isRegular b)
    (hfit : text.size + ws.length ≤ o.maxTokenLength) (hb : Byte.isBlank b) : run o (.word text) n (ws ++ b :: rest) =
      ⟨wordToken (text ++ ws), false, n + ws.length, b :: rest, true⟩ := by
  have hstep (text : Array UInt8) (_ : True) (b : UInt8) (h : b ∈ ws) :
      (word text).step o b = .advance (.word (keep o text b)) ∧ True :=
    ⟨if_pos (hws b h), trivial⟩
  rw [run_keep (f := word) (fun _ => True) hstep hfit trivial]
  apply run_finish
  simp [step, (ends_of_blank hb).1]

/-- The first byte of a token that keeps it. -/
theorem scan_first {f : Array UInt8 → Scanner} {first : UInt8}
    (hbegin : begin o first = .advance (f (keep o #[] first))) (hfit : 0 < o.maxTokenLength) :
    scan o (first :: rest) = run o (f #[first]) 1 rest := by
  have hkeep : keep o #[] first = #[first] := keep_of_lt hfit
  rw [hkeep] at hbegin
  exact run_advance hbegin

theorem scan_word {first : UInt8} (hbegin : begin o first = .advance (.word (keep o #[] first)))
    (hws : ∀ b ∈ ws, Byte.isRegular b) (hfit : (first :: ws).length ≤ o.maxTokenLength)
    (hb : Byte.isBlank b) : scan o (first :: ws ++ b :: rest) =
      ⟨wordToken (first :: ws).toArray, false, (first :: ws).length, b :: rest, true⟩ := by
  rw [List.length_cons] at hfit
  have htext : #[first] ++ ws = (first :: ws).toArray := by simp
  have hfit' : #[first].size + ws.length ≤ o.maxTokenLength := by simp; omega
  rw [List.cons_append, scan_first hbegin (by omega), run_word hws hfit' hb, htext]
  simp [Nat.add_comm]

theorem scan_keyword {s : String} {first : UInt8} (hs : Utf8.encode s = first :: ws)
    (hnumber : ¬ Byte.startsNumber first) (hws : ∀ b ∈ first :: ws, Byte.isRegular b) (hR : s ≠ "R")
    (hfit : (Utf8.encode s).length ≤ o.maxTokenLength) (hb : Byte.isBlank b) :
    scan o (Utf8.encode s ++ b :: rest) =
      ⟨.keyword s, false, (Utf8.encode s).length, b :: rest, true⟩ := by
  obtain ⟨hfirst, hmore⟩ := List.forall_mem_cons.mp hws
  have htext : Utf8.decodeLossy (first :: ws) = s := by rw [← hs, Utf8.decodeLossy_encode]
  have htoken : wordToken (first :: ws).toArray = .keyword s := by
    have hslash : first ≠ 0x2F := by
      rintro rfl
      exact absurd hfirst (by decide)
    have hone : (first :: ws).toArray ≠ #[0x52] := by
      intro h
      have hlist : first :: ws = [0x52] := congrArg Array.toList h
      rw [hlist] at htext
      exact hR (htext.symm.trans (by decide +kernel))
    rw [wordToken, if_neg (by simpa using hslash), if_neg hone, htext]
  rw [hs] at hfit ⊢
  rw [scan_word (begin_word hfirst hnumber) hmore hfit hb, htoken]

theorem scan_name {s : String} (hs : Utf8.encode s = 0x2F :: ws)
    (hws : ∀ b ∈ ws, Byte.isRegular b) (hfit : (Utf8.encode s).length ≤ o.maxTokenLength)
    (hb : Byte.isBlank b) : scan o (Utf8.encode s ++ b :: rest) =
      ⟨.name s, false, (Utf8.encode s).length, b :: rest, true⟩ := by
  have htoken : wordToken (0x2F :: ws).toArray = .name s := by
    rw [wordToken, if_pos (by simp), ← hs, Utf8.decodeLossy_encode]
  rw [hs] at hfit ⊢
  rw [scan_word rfl hws hfit hb, htoken]

theorem scan_variable {s : String} (hs : Utf8.encode s = 0x24 :: ws)
    (hws : ∀ b ∈ ws, Byte.isWord b) (hfit : (Utf8.encode s).length ≤ o.maxTokenLength)
    (hb : Byte.isBlank b) : scan o (Utf8.encode s ++ b :: rest) =
      ⟨.variable s, false, (Utf8.encode s).length, b :: rest, true⟩ := by
  have hstep (text : Array UInt8) (_ : True) (b : UInt8) (h : b ∈ ws) :
      (Scanner.variable text).step o b = .advance (.variable (keep o text b)) ∧ True :=
    ⟨if_pos (hws b h), trivial⟩
  have hend : (Scanner.variable (#[(0x24 : UInt8)] ++ ws)).step o b = .finish (.variable s) := by
    simp [step, (ends_of_blank hb).2.1, variableToken, ← hs]
  rw [hs, List.length_cons] at hfit
  rw [hs, List.cons_append, scan_first (f := Scanner.variable) rfl (by omega),
    run_keep (f := Scanner.variable) (fun _ => True) hstep (by simp; omega) trivial,
    run_finish hend]
  simp [Nat.add_comm]

theorem scan_hash (hfit : 0 < o.maxTokenLength) :
    scan o (0x23 :: b :: rest) = ⟨.keyword "#", false, 1, b :: rest, false⟩ := by
  have hkeep : keep o #[] 0x23 = #[0x23] := keep_of_lt hfit
  have htoken : wordToken #[0x23] = .keyword "#" := by decide +kernel
  have hbegin : begin o 0x23 = .finishAfter (wordToken (keep o #[] 0x23)) := rfl
  rw [hkeep, htoken] at hbegin
  exact run_finishAfter hbegin

theorem scan_string (hfit : ws.length ≤ o.maxTokenLength) :
    scan o ((Token.string ws).spell ++ rest) =
      ⟨.string ws, false, (Token.string ws).spell.length, rest, false⟩ := by
  have hscan := scan_renders (Token.renders_spell ws) hfit rest
  simpa [Token.spell, Nat.add_assoc] using hscan

theorem begin_digit (h : Byte.isDigit b) :
    begin o b = .advance (.number (keep o #[] b)) :=
  begin_number o (by simp [Byte.startsNumber, h])

/-- A number up to the blank behind it. A zero that has to stand alone does. -/
theorem scan_number {first : UInt8} (hbegin : begin o first = .advance (.number (keep o #[] first)))
    (hws : ∀ b ∈ ws, Byte.isDigit b) (hlead : ws = [] ∨ first ≠ 0x30)
    (hfit : (first :: ws).length ≤ o.maxTokenLength) (hb : Byte.isBlank b) :
    scan o (first :: ws ++ b :: rest) =
      ⟨numberToken (first :: ws).toArray, false, (first :: ws).length, b :: rest, true⟩ := by
  obtain ⟨-, -, hdigit, hpoint⟩ := ends_of_blank hb
  have hend (text : Array UInt8) : (number text).step o b = .finish (numberToken text) := by
    simp [step, numberStep, hdigit, hpoint]
  have hrun : run o (.number #[first]) 1 (ws ++ b :: rest) =
      run o (.number (#[first] ++ ws)) (1 + ws.length) (b :: rest) := by
    rcases hlead with rfl | hlead
    · simp
    · have hstep (text : Array UInt8) (hQ : text ≠ #[] ∧ text ≠ #[0x30]) (d : UInt8) (h : d ∈ ws) :
          (number text).step o d = .advance (.number (keep o text d)) ∧
            (text.push d ≠ #[] ∧ text.push d ≠ #[0x30]) := by
        have hnew : text.push d ≠ #[] ∧ text.push d ≠ #[0x30] := by
          constructor
          · simp
          · intro hone
            exact hQ.1 (Array.push_eq_push.mp (hone : text.push d = #[].push 0x30)).2
        have hpoint : d ≠ 0x2E := by
          rintro rfl
          exact absurd (hws _ h) (by decide)
        exact ⟨by simp [step, numberStep, hpoint, hws d h, hQ.2], hnew⟩
      exact run_keep (f := number) _ hstep (by simp at hfit ⊢; omega) (by simpa using hlead)
  have htext : #[first] ++ ws = (first :: ws).toArray := by simp
  rw [List.cons_append, scan_first hbegin (by simp at hfit; omega), hrun, htext,
    run_finish (hend _)]
  simp [Nat.add_comm]

theorem scan_whole {w : Whole} (hw : w.Exact) (hfit : w.spell.length ≤ o.maxTokenLength)
    (hb : Byte.isBlank b) : scan o (w.spell ++ b :: rest) =
      ⟨.number w.toFloat32, false, w.spell.length, b :: rest, true⟩ := by
  obtain ⟨c, chars, hchars, hlead⟩ := Whole.toDigits_leading w.magnitude
  have hdigits {b : UInt8} : b ∈ Whole.digits (c :: chars) → Byte.isDigit b := by
    rw [← hchars]
    exact Whole.isDigit_of_mem_digits (Whole.isDigit_toDigits _)
  rw [← Whole.numberToken_spell hw]
  cases hn : w.negative with
  | true =>
    have hs : w.spell = 0x2D :: Whole.digits (c :: chars) := by simp [Whole.spell, hn, hchars]
    rw [hs] at hfit ⊢
    exact scan_number rfl (fun _ => hdigits) (.inr (by decide)) hfit hb
  | false =>
    have hs : w.spell = UInt8.ofNat c.toNat :: Whole.digits chars := by
      simp [Whole.spell, hn, hchars, Whole.digits]
    rw [hs] at hfit ⊢
    have hfirst : Byte.isDigit (UInt8.ofNat c.toNat) := hdigits List.mem_cons_self
    have hzero (h : c ≠ '0') : UInt8.ofNat c.toNat ≠ 0x30 := by
      intro hbyte
      have hc := (Whole.digit_byte (Whole.isDigit_toDigits w.magnitude c (by simp [hchars]))).2
      rw [hbyte] at hc
      exact h (Char.toNat_inj.mp hc.symm)
    have hlead' : Whole.digits chars = [] ∨ UInt8.ofNat c.toNat ≠ 0x30 :=
      hlead.imp (fun h => by rw [h]; rfl) hzero
    exact scan_number (begin_digit hfirst) (fun _ h => hdigits (List.mem_cons_of_mem _ h)) hlead'
      hfit hb

end Scanner

open Scanner in
/-- What a token is written as is read as the token, up to the blank behind it. -/
theorem scan_spell {o : LexerOptions} {t : Token} {b : UInt8} {rest : List UInt8}
    (ht : t.Spellable o) (hb : Byte.isBlank b) :
    ∃ looks, scan o (t.spell ++ b :: rest) = ⟨t, false, t.spell.length, b :: rest, looks⟩ := by
  cases t with
  | number x =>
    obtain ⟨w, hw, rfl, hfit⟩ := ht
    rw [Token.spell, (Whole.represented hw).whole]
    exact ⟨_, scan_whole hw hfit hb⟩
  | string bytes => exact ⟨_, scan_string ht⟩
  | name text =>
    obtain ⟨ws, hs, hws⟩ := ht.1.encode_eq
    exact ⟨_, scan_name hs hws ht.2 hb⟩
  | «variable» text =>
    obtain ⟨ws, hs, hws⟩ := ht.1.encode_eq
    exact ⟨_, scan_variable hs hws ht.2 hb⟩
  | keyword text =>
    obtain ⟨rfl | hword, hfit⟩ := ht
    · exact ⟨_, scan_hash hfit⟩
    · obtain ⟨first, ws, hs, hnumber, hmore⟩ := hword.encode_eq
      exact ⟨_, scan_keyword hs hnumber hmore hword.1 hfit hb⟩
  | arrayStart | arrayEnd | dictionaryStart | dictionaryEnd => exact ⟨_, rfl⟩
  | objectReference | blank | comment | endOfInput => exact ht.elim

end PageScript
