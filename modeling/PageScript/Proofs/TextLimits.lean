import Mathlib.Data.List.Basic
import PageScript.Proofs.IndexedLexer

/-!
# Limits on the text of tokens

The limit on the text that is kept of a token is not to move the end of the token. All tokens but
numbers end where they do whatever the limit is. A number ends before its second point, and it is
only in the text kept that it can tell whether there has been a first one.
-/
namespace PageScript

def LexerOptions.limited (o : LexerOptions) (limit : Nat) : LexerOptions :=
  { o with maxTokenLength := limit }

namespace Scanner

/-! ### Tokens whose text does not matter -/

/-- Two scanners are inside the same token, which is no number, with any texts kept of it. -/
inductive Alike : Scanner → Scanner → Prop where
  | blank : Alike .blank .blank
  | comment {text text' : Array UInt8} {afterReturn : Bool} :
      Alike (.comment text afterReturn) (.comment text' afterReturn)
  | word {text text' : Array UInt8} : Alike (.word text) (.word text')
  | «variable» {text text' : Array UInt8} : Alike (.variable text) (.variable text')
  | afterLess : Alike .afterLess .afterLess
  | afterGreater : Alike .afterGreater .afterGreater
  | hex {text text' : Array UInt8} : Alike (.hex text) (.hex text')
  | string {text text' : Array UInt8} {depth : Nat} {escape : Escape} :
      Alike (.string text depth escape) (.string text' depth escape)

/-- Two moves take the same bytes and stay inside the same token. -/
inductive Move.Alike : Move → Move → Prop where
  | advance {s s' : Scanner} (h : s.Alike s') : Move.Alike (.advance s) (.advance s')
  | finish {t t' : Token} : Move.Alike (.finish t) (.finish t')
  | finishAfter {t t' : Token} : Move.Alike (.finishAfter t) (.finishAfter t')

theorem Move.Alike.ite {p : Prop} [Decidable p] {m m' k k' : Move} (hm : p → m.Alike m')
    (hk : ¬ p → k.Alike k') : (if p then m else k).Alike (if p then m' else k') := by
  split
  · next h => exact hm h
  · next h => exact hk h

variable {o o' : LexerOptions} {b : UInt8}

/-- The first byte decides what a token is, and no text has been kept by then. -/
theorem alike_begin (h : ¬ Byte.startsNumber b) : (begin o b).Alike (begin o' b) := by
  unfold begin
  refine .ite (fun _ => .advance .blank) fun _ => ?_
  refine .ite (fun _ => .advance .comment) fun _ => ?_
  refine .ite (fun _ => .advance .string) fun _ => ?_
  refine .ite (fun _ => .advance .afterLess) fun _ => ?_
  refine .ite (fun _ => .advance .afterGreater) fun _ => ?_
  refine .ite (fun _ => .finishAfter) fun _ => ?_
  refine .ite (fun _ => .finishAfter) fun _ => ?_
  refine .ite (fun _ => .advance .variable) fun _ => ?_
  refine .ite (fun hn => absurd hn h) fun _ => ?_
  exact .ite (fun _ => .finishAfter) fun _ => .advance .word

theorem alike_hexStep (text text' : Array UInt8) : (hexStep o text b).Alike (hexStep o' text' b) :=
  .ite (fun _ => .finishAfter) fun _ => .advance .hex

theorem alike_plainStep (text text' : Array UInt8) (depth : Nat) (afterReturn : Bool) :
    (plainStep o text depth afterReturn b).Alike (plainStep o' text' depth afterReturn b) := by
  unfold plainStep
  refine .ite (fun _ => .advance .string) fun _ => ?_
  refine .ite (fun _ => .advance .string) fun _ => ?_
  refine .ite (fun _ => ?_) fun _ => ?_
  · cases depth with
    | zero => exact .finishAfter
    | succ depth => exact .advance .string
  refine .ite (fun _ => .advance .string) fun _ => ?_
  exact .ite (fun _ => .advance .string) fun _ => .advance .string

theorem alike_stringStep (text text' : Array UInt8) (depth : Nat) (escape : Escape) :
    (stringStep o text depth b escape).Alike (stringStep o' text' depth b escape) := by
  cases escape with
  | plain afterReturn => exact alike_plainStep text text' depth afterReturn
  | backslash => exact .ite (fun _ => .advance .string) fun _ => .advance .string
  | octal value digits =>
    refine .ite (fun _ => ?_) fun _ => alike_plainStep _ _ depth false
    exact .ite (fun _ => .advance .string) fun _ => .advance .string

theorem alike_step {s s' : Scanner} (h : s.Alike s') (b : UInt8) :
    (s.step o b).Alike (s'.step o' b) := by
  cases h with
  | blank => exact .ite (fun _ => .advance .blank) fun _ => .finish
  | comment => exact .ite (fun _ => .finishAfter) fun _ => .advance .comment
  | word => exact .ite (fun _ => .advance .word) fun _ => .finish
  | «variable» => exact .ite (fun _ => .advance .variable) fun _ => .finish
  | afterLess => exact .ite (fun _ => .finishAfter) fun _ => alike_hexStep _ _
  | afterGreater =>
    refine .ite (fun _ => .finishAfter) fun _ => ?_
    exact .ite (fun _ => .finish) fun _ => .advance .word
  | hex => exact alike_hexStep _ _
  | string => exact alike_stringStep _ _ _ _

theorem length_run_alike {s s' : Scanner} (h : s.Alike s') (n : Nat) (bytes : List UInt8) :
    (run o s n bytes).length = (run o' s' n bytes).length := by
  induction bytes generalizing s s' n with
  | nil => rfl
  | cons b rest ih =>
    have hstep : (s.step o b).Alike (s'.step o' b) := alike_step h b
    rw [run, run]
    generalize s.step o b = move, s'.step o' b = move' at hstep
    cases hstep with
    | advance h => exact ih h (n + 1)
    | finish => rfl
    | finishAfter => rfl

/-! ### Numbers -/

/-- The digits and points ahead, with which a number may go on. -/
def digitsAndPoints (bytes : List UInt8) : List UInt8 :=
  bytes.takeWhile fun b => Byte.isDigit b || b == 0x2E

/-- The digits and points up to the second point, where `seen` tells whether there has been one. -/
def upToSecond (seen : Bool) : List UInt8 → List UInt8
  | [] => []
  | b :: rest =>
    if b = 0x2E then if seen then [] else b :: upToSecond true rest
    else b :: upToSecond seen rest

/-- What a number that has begun takes of the digits and points ahead. The second point ends it if
the first one is within the limit. -/
def numberTail (limit : Nat) (begun ahead : List UInt8) : List UInt8 :=
  if 0x2E ∈ (begun ++ ahead).take limit then upToSecond (begun.contains 0x2E) ahead else ahead

/-- What a zero takes of the digits and points ahead if it may not go on with digits. It takes them
to be its first ones for as long as no more than the zero has been kept. -/
def zeroTail (limit : Nat) (ahead : List UInt8) : List UInt8 :=
  match limit, ahead with
  | 0, _ => ahead
  | 1, _ => ahead.takeWhile (· == 0x2E)
  | _, b :: rest => if b = 0x2E then b :: upToSecond true rest else []
  | _, [] => []

theorem keep_take (o : LexerOptions) (begun : List UInt8) (b : UInt8) :
    keep o (begun.take o.maxTokenLength).toArray b =
      ((begun ++ [b]).take o.maxTokenLength).toArray := by
  have hsize : (begun.take o.maxTokenLength).toArray.size = min o.maxTokenLength begun.length := by
    simp
  rw [keep, hsize]
  split
  · next h =>
    have hlt : begun.length < o.maxTokenLength := by omega
    rw [List.take_of_length_le (Nat.le_of_lt hlt), List.take_of_length_le (by simp; omega)]
    simp
  · next h => rw [List.take_append_of_le_length (by omega)]

/-- A point that has been seen and not kept is beyond the limit, and so are all that follow. -/
theorem point_kept {limit : Nat} {begun ahead : List UInt8}
    (h : 0x2E ∈ (begun ++ ahead).take limit) :
    0x2E ∈ begun.take limit ↔ 0x2E ∈ begun := by
  refine ⟨List.mem_of_mem_take, fun hb => ?_⟩
  rw [List.take_append, List.mem_append] at h
  rcases h with h | h
  · exact h
  · rcases Nat.lt_or_ge begun.length limit with hlt | hle
    · rwa [List.take_of_length_le (Nat.le_of_lt hlt)]
    · simp [Nat.sub_eq_zero_of_le hle] at h

theorem numberTail_nil (limit : Nat) (begun : List UInt8) : numberTail limit begun [] = [] := by
  unfold numberTail
  split <;> rfl

/-- The second point ends a number if the first one has been kept. -/
theorem numberTail_point {limit : Nat} {begun : List UInt8} (ahead : List UInt8)
    (h : 0x2E ∈ begun.take limit) : numberTail limit begun (0x2E :: ahead) = [] := by
  have hall : 0x2E ∈ (begun ++ 0x2E :: ahead).take limit := by
    rw [List.take_append]
    exact List.mem_append_left _ h
  have hseen : begun.contains 0x2E = true := by simpa using List.mem_of_mem_take h
  rw [numberTail, if_pos hall, upToSecond, if_pos rfl, if_pos hseen]

theorem numberTail_cons {limit : Nat} {begun : List UInt8} {b : UInt8} (ahead : List UInt8)
    (h : b = 0x2E → 0x2E ∉ begun.take limit) :
    numberTail limit begun (b :: ahead) = b :: numberTail limit (begun ++ [b]) ahead := by
  unfold numberTail
  rw [List.append_assoc, List.singleton_append]
  split
  · next hall =>
    rw [upToSecond]
    by_cases hb : b = 0x2E
    · have hseen : begun.contains 0x2E = false := by
        simpa [← point_kept hall] using h hb
      rw [if_pos hb, hseen, if_neg Bool.false_ne_true, hb]
      simp
    · have hsame : (begun ++ [b]).contains 0x2E = begun.contains 0x2E := by
        simp [Ne.symm hb]
      rw [if_neg hb, hsame]
  · rfl

theorem digitsAndPoints_cons {b : UInt8} (rest : List UInt8) (h : Byte.isDigit b ∨ b = 0x2E) :
    digitsAndPoints (b :: rest) = b :: digitsAndPoints rest := by
  simp [digitsAndPoints, h]

theorem digitsAndPoints_stop {b : UInt8} (rest : List UInt8) (hd : ¬ Byte.isDigit b)
    (hp : b ≠ 0x2E) : digitsAndPoints (b :: rest) = [] := by
  simp [digitsAndPoints, hd, hp]

theorem ne_point_of_digit (h : Byte.isDigit b) : b ≠ 0x2E := by
  rintro rfl
  cases h

theorem numberStep_digit {text : Array UInt8} (hd : Byte.isDigit b)
    (hz : o.zeroContinuesNumber ∨ text ≠ #[0x30]) :
    numberStep o text b = .advance (.number (keep o text b)) := by
  have hp : b ≠ 0x2E := ne_point_of_digit hd
  have hzero : (!o.zeroContinuesNumber && text == #[0x30]) = false := by
    rcases hz with hz | hz
    · simp [hz]
    · simp [hz]
  simp [numberStep, hp, hd, hzero]

theorem numberStep_zero_digit (hd : Byte.isDigit b) (hz : o.zeroContinuesNumber = false) :
    numberStep o #[0x30] b = .finish (numberToken #[0x30]) := by
  have hp : b ≠ 0x2E := ne_point_of_digit hd
  simp [numberStep, hp, hd, hz]

theorem numberStep_point {text : Array UInt8} (h : 0x2E ∉ text) :
    numberStep o text 0x2E = .advance (.number (keep o text 0x2E)) := if_pos ⟨rfl, h⟩

theorem numberStep_second {text : Array UInt8} (h : 0x2E ∈ text) :
    numberStep o text 0x2E = .finish (numberToken text) := by
  have hd : Byte.isDigit 0x2E = false := rfl
  simp [numberStep, h, hd]

theorem numberStep_other {text : Array UInt8} (hd : ¬ Byte.isDigit b) (hp : b ≠ 0x2E) :
    numberStep o text b = .finish (numberToken text) := by
  simp [numberStep, hd, hp]

/-- A number that is not held up by a zero takes what its limit lets it see. -/
theorem length_run_number (o : LexerOptions) (begun rest : List UInt8) (n : Nat)
    (h : o.zeroContinuesNumber ∨ ∀ more, (begun ++ more).take o.maxTokenLength ≠ [0x30]) :
    (run o (.number (begun.take o.maxTokenLength).toArray) n rest).length =
      n + (numberTail o.maxTokenLength begun (digitsAndPoints rest)).length := by
  induction rest generalizing begun n with
  | nil => simp [run, digitsAndPoints, numberTail_nil]
  | cons b rest ih =>
    have hzero : o.zeroContinuesNumber ∨ (begun.take o.maxTokenLength).toArray ≠ #[0x30] := by
      refine h.imp_right fun h he => h [] ?_
      rw [List.append_nil]
      exact congrArg Array.toList he
    have hnext : o.zeroContinuesNumber ∨
        ∀ more, ((begun ++ [b]) ++ more).take o.maxTokenLength ≠ [0x30] :=
      h.imp_right fun h more => by simpa using h (b :: more)
    have goesOn (hb : Byte.isDigit b ∨ b = 0x2E)
        (hp : b = 0x2E → 0x2E ∉ begun.take o.maxTokenLength)
        (hstep : numberStep o (begun.take o.maxTokenLength).toArray b =
          .advance (.number (keep o (begun.take o.maxTokenLength).toArray b))) :
        (run o (.number (begun.take o.maxTokenLength).toArray) n (b :: rest)).length =
          n + (numberTail o.maxTokenLength begun (digitsAndPoints (b :: rest))).length := by
      rw [run, step, hstep, keep_take, digitsAndPoints_cons rest hb, numberTail_cons _ hp,
        List.length_cons]
      dsimp only
      rw [ih (begun ++ [b]) (n + 1) hnext]
      omega
    by_cases hd : Byte.isDigit b
    · have hp : b ≠ 0x2E := ne_point_of_digit hd
      exact goesOn (.inl hd) (fun he => absurd he hp) (numberStep_digit hd hzero)
    by_cases hp : b = 0x2E
    · subst hp
      by_cases hseen : 0x2E ∈ begun.take o.maxTokenLength
      · rw [run, step, numberStep_second (by simpa using hseen),
          digitsAndPoints_cons rest (.inr rfl), numberTail_point _ hseen]
        rfl
      · exact goesOn (.inr rfl) (fun _ => hseen) (numberStep_point (by simpa using hseen))
    · rw [run, step, numberStep_other hd hp, digitsAndPoints_stop rest hd hp, numberTail_nil]
      rfl

/-- With room for one byte, a zero is all that is kept of a number. Points do not show then. -/
theorem length_run_zero (o : LexerOptions) (rest : List UInt8) (n : Nat)
    (hz : o.zeroContinuesNumber = false) (hl : o.maxTokenLength = 1) :
    (run o (.number #[0x30]) n rest).length =
      n + ((digitsAndPoints rest).takeWhile (· == 0x2E)).length := by
  induction rest generalizing n with
  | nil => rfl
  | cons b rest ih =>
    rw [run, step]
    by_cases hd : Byte.isDigit b
    · have hp : b ≠ 0x2E := ne_point_of_digit hd
      rw [numberStep_zero_digit hd hz, digitsAndPoints_cons rest (.inl hd)]
      simp [hp]
    by_cases hp : b = 0x2E
    · subst hp
      have hkeep : keep o #[0x30] 0x2E = #[0x30] := by simp [keep, hl]
      rw [numberStep_point (by simp), hkeep, digitsAndPoints_cons rest (.inr rfl)]
      dsimp only
      rw [ih, List.takeWhile_cons_of_pos rfl, List.length_cons]
      omega
    · rw [numberStep_other hd hp, digitsAndPoints_stop rest hd hp]
      rfl

/-- What a number takes of the digits and points that follow its first byte. -/
def taken (o : LexerOptions) (limit : Nat) (first : UInt8) (ahead : List UInt8) : List UInt8 :=
  if o.zeroContinuesNumber ∨ first ≠ 0x30 then numberTail limit [first] ahead
  else zeroTail limit ahead

theorem length_run_leadingZero (o : LexerOptions) (rest : List UInt8) (n : Nat)
    (hz : o.zeroContinuesNumber = false) :
    (run o (.number ([0x30].take o.maxTokenLength).toArray) n rest).length =
      n + (zeroTail o.maxTokenLength (digitsAndPoints rest)).length := by
  rcases hl : o.maxTokenLength with _ | _ | limit
  · have hrun := length_run_number o [0x30] rest n (.inr (by simp [hl]))
    rw [hl] at hrun
    rw [hrun]
    simp [numberTail, zeroTail]
  · exact length_run_zero o rest n hz hl
  · rw [List.take_of_length_le (by simp)]
    cases rest with
    | nil => rfl
    | cons b rest =>
      rw [run, step]
      by_cases hd : Byte.isDigit b
      · have hp : b ≠ 0x2E := ne_point_of_digit hd
        rw [numberStep_zero_digit hd hz, digitsAndPoints_cons rest (.inl hd)]
        simp [zeroTail, hp]
      by_cases hp : b = 0x2E
      · subst hp
        have hkeep : keep o #[0x30] 0x2E = ([0x30, 0x2E].take o.maxTokenLength).toArray := by
          simp [keep, hl]
        rw [numberStep_point (by simp), hkeep, digitsAndPoints_cons rest (.inr rfl)]
        dsimp only
        rw [length_run_number o _ rest _ (.inr (by simp [hl]))]
        simp [numberTail, zeroTail, hl]
        omega
      · rw [numberStep_other hd hp, digitsAndPoints_stop rest hd hp]
        rfl

theorem length_scan_number (o : LexerOptions) (limit : Nat) (rest : List UInt8)
    (h : Byte.startsNumber b) :
    (scan (o.limited limit) (b :: rest)).length =
      1 + (taken o limit b (digitsAndPoints rest)).length := by
  have hkeep : keep (o.limited limit) #[] b = ([b].take limit).toArray := by
    simpa [LexerOptions.limited] using keep_take (o.limited limit) [] b
  rw [scan, run, step, begin_number _ h, hkeep]
  dsimp only
  unfold taken
  split
  · next hc =>
    refine length_run_number (o.limited limit) [b] rest 1 (hc.imp_right fun hb more he => hb ?_)
    cases limit <;> simp_all [LexerOptions.limited]
  · next hc =>
    obtain ⟨hz, hb⟩ := not_or.mp hc
    obtain rfl := not_not.mp hb
    exact length_run_leadingZero (o.limited limit) rest 1 (Bool.not_eq_true _ ▸ hz)

/-! ### Where the limit does not show -/

theorem length_upToSecond (seen : Bool) (ahead : List UInt8) :
    (upToSecond seen ahead).length = ahead.length ↔
      ahead.count 0x2E ≤ if seen then 0 else 1 := by
  fun_induction upToSecond seen ahead with
  | case1 => simp
  | case2 => simp
  | case3 seen rest hseen ih => simp [ih, hseen]
  | case4 seen b rest hp ih => simp [ih, hp]

/-- Two limits end a number at the same place. Both have to keep the first point, or neither, unless
there is no second one. -/
def Unmoved (o : LexerOptions) (limit limit' : Nat) (first : UInt8) (ahead : List UInt8) : Prop :=
  if o.zeroContinuesNumber ∨ first ≠ 0x30 then
    (first :: ahead).count 0x2E ≤ 1 ∨
      (0x2E ∈ (first :: ahead).take limit ↔ 0x2E ∈ (first :: ahead).take limit')
  else (zeroTail limit ahead).length = (zeroTail limit' ahead).length

theorem length_numberTail (limit limit' : Nat) (first : UInt8) (ahead : List UInt8) :
    (numberTail limit [first] ahead).length = (numberTail limit' [first] ahead).length ↔
      (first :: ahead).count 0x2E ≤ 1 ∨
        (0x2E ∈ (first :: ahead).take limit ↔ 0x2E ∈ (first :: ahead).take limit') := by
  have hcut : (upToSecond ([first].contains 0x2E) ahead).length = ahead.length ↔
      (first :: ahead).count 0x2E ≤ 1 := by
    rw [length_upToSecond, List.count_cons]
    by_cases hf : first = 0x2E
    · simp [hf]
    · simp [hf, Ne.symm hf]
  unfold numberTail
  rw [List.singleton_append]
  split <;> split
  · next h h' => simp [h, h']
  · next h h' => rw [hcut]; simp [h, h']
  · next h h' => rw [eq_comm, hcut]; simp [h, h']
  · next h h' => simp [h, h']

theorem length_taken (o : LexerOptions) (limit limit' : Nat) (first : UInt8) (ahead : List UInt8) :
    (taken o limit first ahead).length = (taken o limit' first ahead).length ↔
      Unmoved o limit limit' first ahead := by
  unfold taken Unmoved
  split
  · exact length_numberTail limit limit' first ahead
  · rfl

/-- A limit moves the end of a token only if that is a number, and not then if it is unmoved. -/
theorem length_scan_limited (o : LexerOptions) (limit limit' : Nat) (bytes : List UInt8) :
    (scan (o.limited limit) bytes).length = (scan (o.limited limit') bytes).length ↔
      ∀ b rest, bytes = b :: rest → Byte.startsNumber b →
        Unmoved o limit limit' b (digitsAndPoints rest) := by
  cases bytes with
  | nil => simp [scan_nil]
  | cons b rest =>
    by_cases hb : Byte.startsNumber b
    · rw [length_scan_number o limit rest hb, length_scan_number o limit' rest hb,
        Nat.add_left_cancel_iff, length_taken]
      constructor
      · rintro h _ _ ⟨⟩ -
        exact h
      · exact fun h => h b rest rfl hb
    · refine iff_of_true ?_ (by rintro _ _ ⟨⟩ h; exact absurd h hb)
      have hstep : (begin (o.limited limit) b).Alike (begin (o.limited limit') b) := alike_begin hb
      rw [scan, scan, run, run, step, step]
      generalize begin (o.limited limit) b = move, begin (o.limited limit') b = move' at hstep
      cases hstep with
      | advance h => exact length_run_alike h 1 rest
      | finish => rfl
      | finishAfter => rfl

end Scanner

namespace Lexer

/-- The lexer after `n` reads, whatever they gave. -/
def reads (lx : Lexer) : Nat → Lexer
  | 0 => lx
  | n + 1 => (lx.reads n).read.2

theorem options_read (lx : Lexer) : lx.read.2.options = lx.options := by
  unfold read
  dsimp only
  split <;> rfl

theorem cursor_read (lx : Lexer) : lx.read.2.cursor =
    ⟨lx.cursor.offset + (scan lx.options lx.cursor.ahead).length,
      lx.cursor.ahead.drop (scan lx.options lx.cursor.ahead).length⟩ := by
  rw [drop_length_scan]
  unfold read
  dsimp only
  split <;> rfl

theorem options_reads (lx : Lexer) (n : Nat) : (lx.reads n).options = lx.options := by
  induction n with
  | zero => rfl
  | succ n ih => rw [reads, options_read, ih]

/-- A lexer is at a place of the bytes that it was given. -/
theorem cursor_reads (o : LexerOptions) (ending : Ending) (bytes : List UInt8) (n : Nat) :
    ((start o ending bytes).reads n).cursor =
      .at bytes ((start o ending bytes).reads n).position := by
  induction n with
  | zero => rfl
  | succ n ih =>
    rw [position, reads, cursor_read, ih]
    simp [Cursor.at]

/-- Reads under two limits end at the same places if and only if both limits leave the end of every
number on the way where it is. -/
theorem positions_limited (o : LexerOptions) (ending : Ending) (bytes : List UInt8)
    (limit limit' : Nat) :
    (∀ n, ((start (o.limited limit) ending bytes).reads n).position =
        ((start (o.limited limit') ending bytes).reads n).position) ↔
      ∀ n b rest, ((start (o.limited limit) ending bytes).reads n).cursor.ahead = b :: rest →
        Byte.startsNumber b → Scanner.Unmoved o limit limit' b (Scanner.digitsAndPoints rest) := by
  have hplace (limit : Nat) := cursor_reads (o.limited limit) ending bytes
  have hstep (limit n : Nat) : ((start (o.limited limit) ending bytes).reads (n + 1)).position =
      ((start (o.limited limit) ending bytes).reads n).position +
        (scan (o.limited limit)
          (bytes.drop ((start (o.limited limit) ending bytes).reads n).position)).length := by
    rw [position, reads, cursor_read, options_reads, hplace]
    rfl
  have hsame {n : Nat} (hn : ((start (o.limited limit) ending bytes).reads n).position =
      ((start (o.limited limit') ending bytes).reads n).position) :
      ((start (o.limited limit) ending bytes).reads (n + 1)).position =
          ((start (o.limited limit') ending bytes).reads (n + 1)).position ↔
        ∀ b rest, ((start (o.limited limit) ending bytes).reads n).cursor.ahead = b :: rest →
          Byte.startsNumber b →
            Scanner.Unmoved o limit limit' b (Scanner.digitsAndPoints rest) := by
    rw [hstep, hstep, ← hn, Nat.add_left_cancel_iff, Scanner.length_scan_limited, hplace]
    rfl
  constructor
  · intro h n
    exact (hsame (h n)).mp (h (n + 1))
  · intro h n
    induction n with
    | zero => rfl
    | succ n ih => exact (hsame ih).mpr (h n)

/-- With room for one byte, the first point of a number is not kept and does not show. -/
theorem second_point_passed :
    let limited (limit : Nat) :=
      start (({} : LexerOptions).limited limit) .complete "1.2.3".toUTF8.toList
    ((limited 1).reads 1).position = 5 ∧ ((limited 65535).reads 1).position = 3 := by
  decide +kernel

end Lexer

end PageScript
