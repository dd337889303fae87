import PageScript.Byte
import PageScript.Decimal.Numeral
import PageScript.Text.Utf8
import PageScript.Token

/-!
# Reading one token

A scanner takes one byte at a time. Each byte either belongs to the token, ends it, or shows that
it has ended before. What the scanner does at the end of the input is a rule of its own, so that a
run over a list of bytes and a run over a refilled buffer make the same steps.
-/
namespace PageScript

structure LexerOptions where
  /-- Whether a number that starts with a zero goes on with further digits. -/
  zeroContinuesNumber : Bool := true
  /-- Bytes beyond this many are left out of the text of a token. -/
  maxTokenLength : Nat := 65535
  deriving DecidableEq, Repr

/-- Inside a string: whether the last byte was a carriage return, or an escape is under way. -/
inductive Escape where
  | plain (afterReturn : Bool)
  | backslash
  | octal (value : UInt8) (digits : Nat)
  deriving DecidableEq, Repr

/-- The token under way, with the text kept of it. -/
inductive Scanner where
  | start
  | blank
  | comment (text : Array UInt8) (afterReturn : Bool)
  | word (text : Array UInt8)
  | number (text : Array UInt8)
  | variable (text : Array UInt8)
  | afterLess
  | afterGreater
  | hex (text : Array UInt8)
  /-- A string inside `depth` open parentheses of its own. -/
  | string (text : Array UInt8) (depth : Nat) (escape : Escape)
  deriving DecidableEq, Repr

/-- What one byte does to the token under way. -/
inductive Scanner.Move where
  /-- The byte belongs to the token, which goes on. -/
  | advance (s : Scanner)
  /-- The token ended before the byte. -/
  | finish (t : Token)
  /-- The byte is the last of the token. -/
  | finishAfter (t : Token)
  deriving DecidableEq

namespace Scanner

/-- The text with one more byte, unless it is full. -/
def keep (o : LexerOptions) (text : Array UInt8) (b : UInt8) : Array UInt8 :=
  if text.size < o.maxTokenLength then text.push b else text

/-- The token of a word: a name after a slash, the object reference `R`, or a keyword. -/
def wordToken (text : Array UInt8) : Token :=
  if text[0]? = some 0x2F then .name (Utf8.decodeLossy text.toList)
  else if text = #[0x52] then .objectReference
  else .keyword (Utf8.decodeLossy text.toList)

/-- The token of a written number; a keyword if it has no finite value. -/
def numberToken (text : Array UInt8) : Token :=
  match (Numeral.ofBytes? text.toList).map Numeral.toFloat32 with
  | some n => if n.isFinite then .number n else .keyword (Utf8.decodeLossy text.toList)
  | none => .keyword (Utf8.decodeLossy text.toList)

def variableToken (text : Array UInt8) : Token := .variable (Utf8.decodeLossy text.toList)

/-- Joins digits to bytes in pairs, high digit first. A last digit without partner gets a zero. -/
def pairDigits : List UInt8 → List UInt8
  | [] => []
  | [high] => [high <<< 4]
  | high :: low :: rest => (high <<< 4 ||| low) :: pairDigits rest

/-- The token of a string in base sixteen; bytes below `0` stand between the digits. -/
def hexToken (text : Array UInt8) : Token :=
  .string (pairDigits ((text.toList.filter (0x30 ≤ ·)).map Byte.hexValue))

/-- The token of a comment whose line end has been read up to the line feed. -/
def lineToken (text : Array UInt8) : Token :=
  .comment (if text.back? = some 0x0D then text.pop else text).toList

/-- The byte that an escaped byte stands for. -/
def unescape (b : UInt8) : UInt8 :=
  if b = 0x6E then 0x0A
  else if b = 0x72 then 0x0D
  else if b = 0x74 then 0x09
  else if b = 0x62 then 0x08
  else if b = 0x66 then 0x0C
  else b

/-- The first byte of a token. -/
def begin (o : LexerOptions) (b : UInt8) : Move :=
  if Byte.isBlank b then .advance .blank
  else if b = 0x25 then .advance (.comment #[] false)
  else if b = 0x28 then .advance (.string #[] 0 (.plain false))
  else if b = 0x3C then .advance .afterLess
  else if b = 0x3E then .advance .afterGreater
  else if b = 0x5B then .finishAfter .arrayStart
  else if b = 0x5D then .finishAfter .arrayEnd
  else if b = 0x24 then .advance (.variable (keep o #[] b))
  else if Byte.startsNumber b then .advance (.number (keep o #[] b))
  else if b = 0x23 ∨ b = 0x7B ∨ b = 0x7D ∨ b = 0x29 then .finishAfter (wordToken (keep o #[] b))
  else .advance (.word (keep o #[] b))

/-- A byte of a comment, which ends with a carriage return and a line feed. -/
def commentStep (o : LexerOptions) (text : Array UInt8) (afterReturn : Bool) (b : UInt8) : Move :=
  if b = 0x0A ∧ afterReturn then .finishAfter (lineToken text)
  else .advance (.comment (keep o text b) (b == 0x0D))

/-- A byte after the first of a number: a point unless the text has one, or a digit. -/
def numberStep (o : LexerOptions) (text : Array UInt8) (b : UInt8) : Move :=
  if b = 0x2E ∧ 0x2E ∉ text then .advance (.number (keep o text b))
  else if Byte.isDigit b then
    if !o.zeroContinuesNumber && text == #[0x30] then .finish (numberToken text)
    else .advance (.number (keep o text b))
  else .finish (numberToken text)

def hexStep (o : LexerOptions) (text : Array UInt8) (b : UInt8) : Move :=
  if b = 0x3E then .finishAfter (hexToken text) else .advance (.hex (keep o text b))

/-- A byte of a string outside escapes. Every line end is read as a line feed. -/
def plainStep (o : LexerOptions) (text : Array UInt8) (depth : Nat) (afterReturn : Bool)
    (b : UInt8) : Move :=
  if b = 0x5C then .advance (.string text depth .backslash)
  else if b = 0x28 then .advance (.string (keep o text b) (depth + 1) (.plain false))
  else if b = 0x29 then
    match depth with
    | 0 => .finishAfter (.string text.toList)
    | depth + 1 => .advance (.string (keep o text b) depth (.plain false))
  else if b = 0x0D then .advance (.string (keep o text 0x0A) depth (.plain true))
  else if b = 0x0A ∧ afterReturn then .advance (.string text depth (.plain false))
  else .advance (.string (keep o text b) depth (.plain false))

/-- A byte of a string. An octal escape takes up to three digits, modulo 256. -/
def stringStep (o : LexerOptions) (text : Array UInt8) (depth : Nat) (b : UInt8) : Escape → Move
  | .plain afterReturn => plainStep o text depth afterReturn b
  | .backslash =>
    if Byte.isOctalDigit b then .advance (.string text depth (.octal (b - 0x30) 1))
    else .advance (.string (keep o text (unescape b)) depth (.plain false))
  | .octal value digits =>
    if Byte.isOctalDigit b then
      let value := value * 8 + (b - 0x30)
      if digits + 1 = 3 then .advance (.string (keep o text value) depth (.plain false))
      else .advance (.string text depth (.octal value (digits + 1)))
    else plainStep o (keep o text value) depth false b

def step (o : LexerOptions) (s : Scanner) (b : UInt8) : Move :=
  match s with
  | .start => begin o b
  | .blank => if Byte.isBlank b then .advance .blank else .finish .blank
  | .comment text afterReturn => commentStep o text afterReturn b
  | .word text =>
    if Byte.isRegular b then .advance (.word (keep o text b)) else .finish (wordToken text)
  | .number text => numberStep o text b
  | .variable text =>
    if Byte.isWord b then .advance (.variable (keep o text b)) else .finish (variableToken text)
  | .afterLess => if b = 0x3C then .finishAfter .dictionaryStart else hexStep o #[] b
  | .afterGreater =>
    if b = 0x3E then .finishAfter .dictionaryEnd
    else if Byte.isBlank b then .finish (wordToken (keep o #[] 0x3E))
    else .advance (.word (keep o (keep o #[] 0x3E) b))
  | .hex text => hexStep o text b
  | .string text depth escape => stringStep o text depth b escape

/-- The token at the end of the input, and whether it is a string without its end. -/
def atEnd (o : LexerOptions) : Scanner → Token × Bool
  | .start => (.endOfInput, false)
  | .blank => (.blank, false)
  | .comment text _ => (.comment text.toList, false)
  | .word text => (wordToken text, false)
  | .number text => (numberToken text, false)
  | .variable text => (variableToken text, false)
  | .afterLess => (hexToken #[], true)
  | .afterGreater => (wordToken (keep o #[] 0x3E), false)
  | .hex text => (hexToken text, true)
  | .string text _ (.octal value _) => (.string (keep o text value).toList, true)
  | .string text _ _ => (.string text.toList, true)

end Scanner

structure Scan where
  token : Token
  /-- The token is a string that the end of the input cut off. -/
  unterminated : Bool
  length : Nat
  rest : List UInt8
  /-- The byte or the end of the input after the token had to be looked at. -/
  looksPast : Bool
  deriving DecidableEq

namespace Scanner

/-- Takes bytes until the token under way ends; `length` bytes of it have been taken before. -/
def run (o : LexerOptions) (s : Scanner) (length : Nat) : List UInt8 → Scan
  | [] => ⟨(s.atEnd o).1, (s.atEnd o).2, length, [], true⟩
  | b :: rest =>
    match s.step o b with
    | .advance next => run o next (length + 1) rest
    | .finish t => ⟨t, false, length, b :: rest, true⟩
    | .finishAfter t => ⟨t, false, length + 1, rest, false⟩

section Run

variable {o : LexerOptions} {n : Nat} {b : UInt8} {rest : List UInt8}

theorem keep_of_lt {text : Array UInt8} (h : text.size < o.maxTokenLength) :
    keep o text b = text.push b := if_pos h

theorem run_advance {s next : Scanner} (h : s.step o b = .advance next) :
    run o s n (b :: rest) = run o next (n + 1) rest := by
  rw [run, h]

theorem run_finish {s : Scanner} {t : Token} (h : s.step o b = .finish t) :
    run o s n (b :: rest) = ⟨t, false, n, b :: rest, true⟩ := by
  rw [run, h]

theorem run_finishAfter {s : Scanner} {t : Token} (h : s.step o b = .finishAfter t) :
    run o s n (b :: rest) = ⟨t, false, n + 1, rest, false⟩ := by
  rw [run, h]

end Run

theorem length_rest_run (o : LexerOptions) (s : Scanner) (n : Nat) (bytes : List UInt8) :
    (run o s n bytes).length + (run o s n bytes).rest.length = n + bytes.length := by
  induction bytes generalizing s n with
  | nil => simp [run]
  | cons b rest ih =>
    rw [run]
    split
    · rw [ih]; simp only [List.length_cons]; omega
    · simp
    · simp only [List.length_cons]; omega

theorem le_length_run (o : LexerOptions) (s : Scanner) (n : Nat) (bytes : List UInt8) :
    n ≤ (run o s n bytes).length := by
  induction bytes generalizing s n with
  | nil => simp [run]
  | cons b rest ih =>
    rw [run]
    split
    · exact Nat.le_of_succ_le (ih _ _)
    · simp
    · simp

/-- The first byte of a token belongs to it. -/
theorem begin_ne_finish (o : LexerOptions) (b : UInt8) (t : Token) : begin o b ≠ .finish t := by
  simp only [begin, apply_ite (· ≠ Move.finish t), ne_eq, reduceCtorEq, not_false_eq_true, ite_self]

theorem begin_number (o : LexerOptions) {b : UInt8} (h : Byte.startsNumber b) :
    begin o b = .advance (.number (keep o #[] b)) := by
  have hne (c : UInt8) (hc : Byte.startsNumber c = false) : b ≠ c := by
    rintro rfl
    simp [hc] at h
  simp (disch := decide) [begin, Byte.isBlank, h, hne]

end Scanner

def scan (o : LexerOptions) (bytes : List UInt8) : Scan := Scanner.run o .start 0 bytes

/-- Every token but the end of the input has a byte. -/
theorem scan_length_pos (o : LexerOptions) (b : UInt8) (rest : List UInt8) :
    0 < (scan o (b :: rest)).length := by
  unfold scan
  rw [Scanner.run]
  split
  · exact Scanner.le_length_run ..
  · next t h => exact absurd h (Scanner.begin_ne_finish o b t)
  · simp

theorem scan_nil (o : LexerOptions) : scan o [] = ⟨.endOfInput, false, 0, [], true⟩ := rfl

theorem length_rest_scan (o : LexerOptions) (bytes : List UInt8) :
    (scan o bytes).length + (scan o bytes).rest.length = bytes.length := by
  simpa [scan] using Scanner.length_rest_run o .start 0 bytes

end PageScript
