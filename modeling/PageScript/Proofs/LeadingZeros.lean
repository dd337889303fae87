import Mathlib.Order.Bounds.Basic
import PageScript.Proofs.ReadingOn
import PageScript.Proofs.WrittenNumbers

/-!
# Leading zeros

A number that begins with a zero may go on with digits, or the zero may have to stand alone. It
makes no difference to any other token. Where zeros have to stand alone, a number with zeros in
front is read as each of these zeros, and then as the number behind them.
-/
namespace PageScript

def LexerOptions.withZeros (o : LexerOptions) (continued : Bool) : LexerOptions :=
  { o with zeroContinuesNumber := continued }

/-- A zero with a digit behind it. -/
def LeadsWithZero : List UInt8 → Prop
  | first :: next :: _ => first = 0x30 ∧ Byte.isDigit next
  | _ => False

/-- How many zeros can be taken off from the front and leave a digit there. -/
def frontZeros (own : List UInt8) : Set Nat :=
  {j | ∃ d t, own = List.replicate j 0x30 ++ d :: t ∧ Byte.isDigit d}

/-- The zeros in front of a digit. -/
def leadingZeros : List UInt8 → Nat
  | first :: next :: more =>
    if first = 0x30 ∧ Byte.isDigit next then leadingZeros (next :: more) + 1 else 0
  | _ => 0

section Zeros

variable {own bytes : List UInt8} {b d : UInt8}

theorem exists_of_leadsWithZero (h : LeadsWithZero own) :
    ∃ d more, own = 0x30 :: d :: more ∧ Byte.isDigit d := by
  match own, h with
  | _ :: d :: more, ⟨rfl, hd⟩ => exact ⟨d, more, rfl, hd⟩

theorem LeadsWithZero.append (h : LeadsWithZero own) (behind : List UInt8) :
    LeadsWithZero (own ++ behind) := by
  obtain ⟨d, more, rfl, hd⟩ := exists_of_leadsWithZero h
  exact ⟨rfl, hd⟩

theorem leadingZeros_cons (hd : Byte.isDigit d) :
    leadingZeros (0x30 :: d :: bytes) = leadingZeros (d :: bytes) + 1 := if_pos ⟨rfl, hd⟩

theorem leadingZeros_eq_zero_iff : leadingZeros own = 0 ↔ ¬ LeadsWithZero own := by
  fun_cases leadingZeros own with
  | case1 first next more h => simp [LeadsWithZero, h]
  | case2 first next more h => simpa [LeadsWithZero] using h
  | case3 own h =>
    refine iff_of_true rfl fun hown => ?_
    obtain ⟨d, more, rfl, -⟩ := exists_of_leadsWithZero hown
    exact h _ _ _ rfl

/-- In front of each of the leading zeros but the last there is another one. -/
theorem leadsWithZero_drop {i : Nat} (h : i < leadingZeros own) : LeadsWithZero (own.drop i) := by
  induction i generalizing own with
  | zero => exact not_not.mp (mt leadingZeros_eq_zero_iff.mpr (Nat.ne_of_gt h))
  | succ i ih =>
    obtain ⟨d, more, rfl, hd⟩ : ∃ d more, own = 0x30 :: d :: more ∧ Byte.isDigit d :=
      exists_of_leadsWithZero (not_not.mp (mt leadingZeros_eq_zero_iff.mpr (by omega)))
    rw [leadingZeros_cons hd] at h
    exact ih (Nat.lt_of_succ_lt_succ h)

theorem not_leadsWithZero_drop (own : List UInt8) :
    ¬ LeadsWithZero (own.drop (leadingZeros own)) := by
  fun_induction leadingZeros own with
  | case1 first next more h ih => exact ih
  | case2 first next more h => simpa [LeadsWithZero] using h
  | case3 own h =>
    intro hown
    obtain ⟨d, more, rfl, -⟩ := exists_of_leadsWithZero hown
    exact h _ _ _ rfl

theorem leadingZeros_le_length (own : List UInt8) : leadingZeros own ≤ own.length := by
  fun_induction leadingZeros own with
  | case1 first next more h ih => exact Nat.succ_le_succ ih
  | case2 | case3 => exact Nat.zero_le _

theorem frontZeros_cons : frontZeros (b :: bytes) =
    {j | j = 0 ∧ Byte.isDigit b ∨ b = 0x30 ∧ ∃ i ∈ frontZeros bytes, j = i + 1} := by
  ext j
  cases j with
  | zero => simp [frontZeros]
  | succ j => simp [frontZeros, List.replicate_succ, and_assoc]

/-- A digit remains in front, and no more zeros can be taken off. -/
theorem isGreatest_leadingZeros (h : LeadsWithZero own) :
    IsGreatest (frontZeros own) (leadingZeros own) := by
  suffices hdigit : ∀ b bytes, Byte.isDigit b →
      IsGreatest (frontZeros (b :: bytes)) (leadingZeros (b :: bytes)) by
    obtain ⟨d, more, rfl, -⟩ := exists_of_leadsWithZero h
    exact hdigit _ _ rfl
  intro b bytes
  induction bytes generalizing b with
  | nil =>
    intro hb
    rw [frontZeros_cons]
    refine ⟨.inl ⟨rfl, hb⟩, ?_⟩
    rintro j (⟨rfl, -⟩ | ⟨-, i, ⟨d, t, hnil, -⟩, -⟩)
    · exact Nat.le_refl _
    · simp at hnil
  | cons c bytes ih =>
    intro hb
    rw [frontZeros_cons]
    by_cases hlead : b = 0x30 ∧ Byte.isDigit c
    · obtain ⟨rfl, hc⟩ := hlead
      obtain ⟨hmem, hle⟩ := ih c hc
      rw [leadingZeros_cons hc]
      refine ⟨.inr ⟨rfl, _, hmem, rfl⟩, ?_⟩
      rintro j (⟨rfl, -⟩ | ⟨-, i, hi, rfl⟩)
      · exact Nat.zero_le _
      · exact Nat.succ_le_succ (hle hi)
    · have hzero : leadingZeros (b :: c :: bytes) = 0 := if_neg hlead
      rw [hzero]
      refine ⟨.inl ⟨rfl, hb⟩, ?_⟩
      rintro j (⟨rfl, -⟩ | ⟨rfl, i, hi, -⟩)
      · exact Nat.le_refl _
      · rw [frontZeros_cons] at hi
        rcases hi with ⟨-, hc⟩ | ⟨rfl, -⟩
        · exact absurd ⟨rfl, hc⟩ hlead
        · exact absurd ⟨rfl, rfl⟩ hlead

end Zeros

namespace Numeral

variable {own bytes t : List UInt8}

theorem written_cons_zero {d : UInt8} (hd : Byte.isDigit d) :
    Written (0x30 :: d :: t) ↔ Written (d :: t) := by
  have hfirst : Byte.startsNumber d := by simp [Byte.startsNumber, hd]
  have hzero : Byte.startsNumber 0x30 := rfl
  simp [Written, hfirst, hzero, hd, List.count_cons_of_ne]

/-- The longest number takes a leading zero and the digit behind it. -/
theorem Longest.leadsWithZero_iff (h : Longest own bytes) :
    LeadsWithZero own ↔ LeadsWithZero bytes := by
  obtain ⟨behind, rfl⟩ := h.isPrefix
  refine ⟨fun hown => hown.append behind, fun hbytes => ?_⟩
  obtain ⟨d, more, heq, hd⟩ := exists_of_leadsWithZero hbytes
  have htwo : Written [0x30, d] := (written_cons_zero hd).mpr
    (written_singleton (by simp [Byte.startsNumber, hd]))
  have hle := h.longest [0x30, d] (heq ▸ ⟨more, rfl⟩) htwo
  cases own with
  | nil => simp at hle
  | cons first own =>
    cases own with
    | nil => simp at hle
    | cons next own =>
      obtain ⟨rfl, rfl, -⟩ : first = 0x30 ∧ next = d ∧ own ++ behind = more := by simpa using heq
      exact ⟨rfl, hd⟩

theorem Longest.self (h : Longest own bytes) : Longest own own :=
  ⟨List.prefix_refl _, h.written, fun other hother => h.longest other (hother.trans h.isPrefix)⟩

/-- What is behind a leading zero is the longest number there. -/
theorem Longest.tail {d : UInt8} (hd : Byte.isDigit d)
    (h : Longest (0x30 :: d :: t) (0x30 :: bytes)) : Longest (d :: t) bytes := by
  have hfront : d :: t <+: bytes := (List.cons_prefix_cons.mp h.isPrefix).2
  refine ⟨hfront, (written_cons_zero hd).mp h.written, fun other hother hwritten => ?_⟩
  obtain ⟨behind, rfl⟩ := hfront
  cases other with
  | nil => exact Nat.zero_le _
  | cons c other =>
    obtain rfl := (List.cons_prefix_cons.mp hother).1
    have hle := h.longest (0x30 :: c :: other) (List.cons_prefix_cons.mpr ⟨rfl, hother⟩)
      ((written_cons_zero hd).mpr hwritten)
    exact Nat.le_of_succ_le_succ hle

/-- What is behind all leading zeros is the longest number there. -/
theorem Longest.drop (h : Longest own bytes) :
    Longest (own.drop (leadingZeros own)) (bytes.drop (leadingZeros own)) := by
  induction hzeros : leadingZeros own generalizing own bytes with
  | zero => exact h
  | succ n ih =>
    obtain ⟨d, t, rfl, hd⟩ : ∃ d t, own = 0x30 :: d :: t ∧ Byte.isDigit d :=
      exists_of_leadsWithZero (not_not.mp (mt leadingZeros_eq_zero_iff.mpr (by omega)))
    obtain ⟨behind, rfl⟩ := h.isPrefix
    rw [leadingZeros_cons hd] at hzeros
    exact ih (h.tail hd) (Nat.succ.inj hzeros)

end Numeral

namespace Scanner

open Numeral

variable {o : LexerOptions} {b : UInt8} {bytes rest : List UInt8}

/-- Inside any other token than a number, it makes no difference whether zeros stand alone. -/
theorem step_withZeros {s : Scanner} (h : s.Alike s) (b : UInt8) :
    s.step (o.withZeros false) b = s.step (o.withZeros true) b := by
  cases h with
  | string => cases ‹Escape› <;> rfl
  | _ => rfl

theorem run_alike_withZeros {s : Scanner} (h : s.Alike s) (n : Nat) (bytes : List UInt8) :
    run (o.withZeros false) s n bytes = run (o.withZeros true) s n bytes := by
  induction bytes generalizing s n with
  | nil => cases s <;> rfl
  | cons b rest ih =>
    have hmove : (s.step (o.withZeros true) b).Alike (s.step (o.withZeros true) b) := alike_step h b
    rw [run, run, step_withZeros h]
    generalize s.step (o.withZeros true) b = move at hmove
    cases hmove with
    | advance hnext => exact ih hnext (n + 1)
    | finish | finishAfter => rfl

/-- A number of which more than a zero is kept goes on, or does not, in any case. -/
theorem step_number_withZeros {text : Array UInt8} (hzero : text ≠ #[0x30]) (b : UInt8) :
    (∀ continued, (number text).step (o.withZeros continued) b =
        .advance (.number (keep o text b))) ∨
      ∀ continued, (number text).step (o.withZeros continued) b = .finish (numberToken text) := by
  by_cases hd : Byte.isDigit b
  · exact .inl fun _ => numberStep_digit hd (.inr hzero)
  by_cases hp : b = 0x2E
  · subst hp
    by_cases hseen : 0x2E ∈ text
    · exact .inr fun _ => numberStep_second hseen
    · exact .inl fun _ => numberStep_point hseen
  · exact .inr fun _ => numberStep_other hd hp

theorem run_number_withZeros {text : Array UInt8} (hsome : text ≠ #[]) (hzero : text ≠ #[0x30])
    (n : Nat) (bytes : List UInt8) :
    run (o.withZeros false) (.number text) n bytes =
      run (o.withZeros true) (.number text) n bytes := by
  induction bytes generalizing text n with
  | nil => rfl
  | cons b rest ih =>
    rcases step_number_withZeros (o := o) hzero b with hstep | hstep
    · have hkept : keep o text b ≠ #[] ∧ keep o text b ≠ #[0x30] := by
        unfold keep
        split
        · refine ⟨by simp, fun hpush => hsome ?_⟩
          exact (Array.push_eq_push.mp (hpush : text.push b = #[].push 0x30)).2
        · exact ⟨hsome, hzero⟩
      rw [run_advance (hstep false), run_advance (hstep true)]
      exact ih hkept.1 hkept.2 (n + 1)
    · rw [run_finish (hstep false), run_finish (hstep true)]

/-- A zero without a digit behind it is read alike. -/
theorem run_zero_withZeros (h : ¬ LeadsWithZero (0x30 :: rest))
    (hfit : (run (o.withZeros true) (.number #[0x30]) 1 rest).length ≤ o.maxTokenLength) :
    run (o.withZeros false) (.number #[0x30]) 1 rest =
      run (o.withZeros true) (.number #[0x30]) 1 rest := by
  cases rest with
  | nil => rfl
  | cons c rest =>
    have hd : ¬ Byte.isDigit c := fun hd => h ⟨rfl, hd⟩
    by_cases hp : c = 0x2E
    · subst hp
      have hpoint (continued : Bool) : (number #[0x30]).step (o.withZeros continued) 0x2E =
          .advance (.number (keep o #[0x30] 0x2E)) := numberStep_point (by simp)
      rw [run_advance (hpoint true)] at hfit
      have hroom : 1 < o.maxTokenLength := Nat.lt_of_lt_of_le (le_length_run ..) hfit
      have hkeep : keep o #[0x30] 0x2E = #[0x30, 0x2E] := keep_of_lt hroom
      rw [run_advance (hpoint false), run_advance (hpoint true), hkeep]
      exact run_number_withZeros (by simp) (by simp) 2 rest
    · have hother (continued : Bool) : (number #[0x30]).step (o.withZeros continued) c =
          .finish (numberToken #[0x30]) := numberStep_other hd hp
      rw [run_finish (hother false), run_finish (hother true)]

/-- The number that is ahead, if any, is read within the limit. -/
def Fits (o : LexerOptions) (bytes : List UInt8) : Prop :=
  ∀ b ∈ bytes.head?, Byte.startsNumber b →
    (scan (o.withZeros true) bytes).length ≤ o.maxTokenLength

/-- It makes a difference only to a zero in front of a digit whether zeros stand alone. -/
theorem scan_withZeros (hfit : Fits o bytes) (h : ¬ LeadsWithZero bytes) :
    scan (o.withZeros false) bytes = scan (o.withZeros true) bytes := by
  cases bytes with
  | nil => rfl
  | cons b rest =>
    by_cases hb : Byte.startsNumber b
    · have hlength := hfit b rfl hb
      have hlimit : 0 < o.maxTokenLength := Nat.lt_of_lt_of_le (scan_length_pos ..) hlength
      rw [scan_starts (o.withZeros true) hb hlimit] at hlength
      rw [scan_starts (o.withZeros true) hb hlimit, scan_starts (o.withZeros false) hb hlimit]
      by_cases hzero : b = 0x30
      · subst hzero
        exact run_zero_withZeros h hlength
      · exact run_number_withZeros (by simp) (by simpa using hzero) 1 rest
    · have hmove : (begin (o.withZeros true) b).Alike (begin (o.withZeros true) b) := alike_begin hb
      have hbegin : Scanner.start.step (o.withZeros false) b = begin (o.withZeros true) b := rfl
      rw [scan, scan, run, run, hbegin, step]
      generalize begin (o.withZeros true) b = move at hmove
      cases hmove with
      | advance hnext => exact run_alike_withZeros hnext 1 rest
      | finish | finishAfter => rfl

/-- A zero that has to stand alone. -/
theorem scan_loneZero {d : UInt8} (hd : Byte.isDigit d) (hlimit : 0 < o.maxTokenLength) :
    scan (o.withZeros false) (0x30 :: d :: rest) =
      ⟨.number 0, false, 1, d :: rest, true⟩ := by
  have htoken : numberToken #[0x30] = .number 0 := by decide +kernel
  have hstep : (number #[0x30]).step (o.withZeros false) d = .finish (.number 0) := by
    rw [← htoken]
    exact numberStep_zero_digit hd rfl
  rw [scan_starts (o.withZeros false) rfl hlimit, run_finish hstep]

/-- A number without leading zeros is read in any case. -/
theorem scan_longest_withZeros {own behind : List UInt8} (h : Longest own (own ++ behind))
    (hfit : own.length ≤ o.maxTokenLength) (hzero : ¬ LeadsWithZero own) (continued : Bool) :
    ∃ looks, scan (o.withZeros continued) (own ++ behind) =
      ⟨numberToken own.toArray, false, own.length, behind, looks⟩ := by
  obtain ⟨looks, hscan⟩ := @scan_longest (o.withZeros true) own behind rfl h hfit
  cases continued with
  | true => exact ⟨looks, hscan⟩
  | false =>
    have hfits : Fits o (own ++ behind) := fun _ _ _ => by
      rw [hscan]
      exact hfit
    rw [scan_withZeros hfits (mt h.leadsWithZero_iff.mpr hzero)]
    exact ⟨looks, hscan⟩

end Scanner

namespace Lexer

open Numeral Scanner

/-- Two lexers at the same place of a script. Zeros stand alone for the second one. -/
structure Paired (o : LexerOptions) (joined split : Lexer) : Prop where
  joining : joined.options = o.withZeros true
  splitting : split.options = o.withZeros false
  joined_complete : joined.ending = .complete
  split_complete : split.ending = .complete
  place : split.cursor = joined.cursor

variable {o : LexerOptions} {joined split : Lexer}

theorem Paired.next (h : Paired o joined split) {n : Nat}
    (hplace : (split.reads n).cursor = joined.read.2.cursor) :
    Paired o joined.read.2 (split.reads n) where
  joining := (options_read joined).trans h.joining
  splitting := (options_reads split n).trans h.splitting
  joined_complete := (ending_read joined).trans h.joined_complete
  split_complete := (ending_reads split n).trans h.split_complete
  place := hplace

/-- A token that does not begin with a leading zero is the same. -/
theorem Paired.same (h : Paired o joined split) (hfit : Fits o joined.cursor.ahead)
    (hzero : ¬ LeadsWithZero joined.cursor.ahead) :
    split.taken = joined.taken ∧ split.read.1 = joined.read.1 ∧
      split.read.2.unterminated = joined.read.2.unterminated ∧
        Paired o joined.read.2 (split.reads 1) := by
  have hscan : scan split.options split.cursor.ahead =
      scan joined.options joined.cursor.ahead := by
    rw [h.splitting, h.joining, h.place]
    exact scan_withZeros hfit hzero
  have hplace : (split.reads 1).cursor = joined.read.2.cursor := by
    rw [reads, reads, cursor_read, cursor_read, hscan, h.place]
  obtain ⟨htaken, htoken, hflag⟩ := read_of_scan h.joined_complete rfl
  obtain ⟨htaken', htoken', hflag'⟩ := read_of_scan h.split_complete hscan
  rw [htaken, htaken', htoken, htoken', hflag, hflag', h.place]
  exact ⟨rfl, rfl, rfl, h.next hplace⟩

section Zeros

variable {own behind : List UInt8} (ho : split.options = o.withZeros false)
  (hc : split.ending = .complete) (hlimit : 0 < o.maxTokenLength)
include ho hc hlimit

/-- A leading zero is a token. -/
theorem read_zero (hahead : split.cursor.ahead = own ++ behind) (hzero : LeadsWithZero own) :
    split.taken = [0x30] ∧ split.read.1 = .ok (.number 0) ∧
      split.read.2.cursor = ⟨split.position + 1, own.tail ++ behind⟩ := by
  obtain ⟨d, more, rfl, hd⟩ := exists_of_leadsWithZero hzero
  have hscan : scan split.options split.cursor.ahead =
      ⟨.number 0, false, 1, d :: (more ++ behind), true⟩ := by
    rw [ho, hahead]
    exact scan_loneZero hd hlimit
  obtain ⟨htaken, htoken, -⟩ := read_of_scan hc hscan
  rw [htaken, htoken, cursor_read, hscan, hahead]
  exact ⟨rfl, rfl, rfl⟩

/-- Leading zeros are read one by one. -/
theorem cursor_reads_zeros (hahead : split.cursor.ahead = own ++ behind) {i : Nat}
    (hi : i ≤ leadingZeros own) :
    (split.reads i).cursor = ⟨split.position + i, own.drop i ++ behind⟩ := by
  induction i with
  | zero =>
    rw [List.drop_zero, ← hahead]
    rfl
  | succ i ih =>
    have hplace := ih (Nat.le_of_succ_le hi)
    obtain ⟨-, -, hnext⟩ := read_zero ((options_reads split i).trans ho)
      ((ending_reads split i).trans hc) hlimit (congrArg Cursor.ahead hplace)
      (leadsWithZero_drop hi)
    rw [reads, hnext, position, hplace, List.tail_drop, Nat.add_assoc]

end Zeros

/-- A number that begins with a zero and a digit is the longest one. -/
theorem taken_leadsWithZero (ho : joined.options = o.withZeros true)
    (hc : joined.ending = .complete) (hfit : Fits o joined.cursor.ahead)
    (hzero : LeadsWithZero joined.cursor.ahead) :
    Longest joined.taken joined.cursor.ahead ∧ joined.taken.length ≤ o.maxTokenLength := by
  obtain ⟨d, more, hahead, hd⟩ := exists_of_leadsWithZero hzero
  have hlength := hfit 0x30 (by simp [hahead]) rfl
  obtain ⟨own, behind, hown, hlongest, hscan⟩ :=
    @scan_written (o.withZeros true) 0x30 rfl rfl (d :: more)
  rw [← hahead] at hown hlongest hscan
  obtain ⟨looks, hscan⟩ := hscan (.inr hlength)
  have htaken : joined.taken = own := by
    rw [taken_complete hc, ho, hscan, hown, List.take_left]
  rw [htaken]
  rw [hscan] at hlength
  exact ⟨hlongest, hlength⟩

/-- A number without leading zeros is read from any lexer that has it ahead. -/
theorem read_longest {lx : Lexer} {own behind : List UInt8} {continued : Bool}
    (ho : lx.options = o.withZeros continued) (hc : lx.ending = .complete)
    (hahead : lx.cursor.ahead = own ++ behind) (h : Longest own (own ++ behind))
    (hfit : own.length ≤ o.maxTokenLength) (hzero : ¬ LeadsWithZero own) :
    lx.taken = own ∧ lx.read.1 = .ok (numberToken own.toArray) ∧
      lx.read.2.cursor = ⟨lx.position + own.length, behind⟩ := by
  obtain ⟨looks, hscan⟩ := scan_longest_withZeros h hfit hzero continued
  rw [← ho, ← hahead] at hscan
  obtain ⟨htaken, htoken, -⟩ := read_of_scan hc hscan
  rw [htaken, htoken, cursor_read, hscan, hahead]
  exact ⟨List.take_left, rfl, congrArg (Cursor.mk _) List.drop_left⟩

/-- A number with leading zeros is these zeros, and the number behind them. -/
theorem Paired.zeros (h : Paired o joined split) (hfit : Fits o joined.cursor.ahead)
    (hzero : LeadsWithZero joined.cursor.ahead) :
    let j := leadingZeros joined.taken
    let t := joined.taken.drop j
    LeadsWithZero joined.taken ∧
      (∀ i < j, (split.reads i).taken = [0x30] ∧ (split.reads i).read.1 = .ok (.number 0)) ∧
      (split.reads j).taken = t ∧
      (∀ continued,
        let alone := start (o.withZeros continued) .complete t
        alone.taken = t ∧ (split.reads j).read.1 = alone.read.1) ∧
      Paired o joined.read.2 (split.reads (j + 1)) := by
  intro j t
  obtain ⟨hlongest, hshort⟩ := taken_leadsWithZero h.joining h.joined_complete hfit hzero
  have hlead : LeadsWithZero joined.taken := hlongest.leadsWithZero_iff.mpr hzero
  have hnot : ¬ LeadsWithZero t := not_leadsWithZero_drop joined.taken
  have hlimit : 0 < o.maxTokenLength := by
    obtain ⟨d, more, hown, -⟩ := exists_of_leadsWithZero hlead
    rw [hown] at hshort
    exact Nat.lt_of_lt_of_le (Nat.succ_pos _) hshort
  have hfit' : t.length ≤ o.maxTokenLength := by
    rw [List.length_drop]
    omega
  have hahead := taken_append_ahead h.joined_complete
  have hdrop := hlongest.drop
  rw [hahead, List.drop_append_of_le_length (leadingZeros_le_length _)] at hdrop
  have hplace {i : Nat} (hi : i ≤ j) := cursor_reads_zeros h.splitting h.split_complete hlimit
    (h.place ▸ hahead) hi
  have ho (n : Nat) := (options_reads split n).trans h.splitting
  have hc (n : Nat) := (ending_reads split n).trans h.split_complete
  obtain ⟨htaken, htoken, hnext⟩ := read_longest (ho j) (hc j)
    (congrArg Cursor.ahead (hplace (Nat.le_refl j))) hdrop hfit' hnot
  refine ⟨hlead, fun i hi => ?_, htaken, fun continued => ?_, h.next ?_⟩
  · obtain ⟨hzero, hnumber, -⟩ := read_zero (ho i) (hc i) hlimit
      (congrArg Cursor.ahead (hplace (Nat.le_of_lt hi))) (leadsWithZero_drop hi)
    exact ⟨hzero, hnumber⟩
  · intro alone
    have hself : Longest t (t ++ []) := by simpa using hdrop.self
    have hahead : alone.cursor.ahead = t ++ [] := by simp [alone, start]
    obtain ⟨halone, hsame, -⟩ := @read_longest o alone t [] continued rfl rfl hahead hself hfit' hnot
    exact ⟨halone, htoken.trans hsame.symm⟩
  · have hcursor := hplace (Nat.le_refl j)
    have hj : j ≤ joined.taken.length := leadingZeros_le_length _
    have hsum : split.position + j + t.length = joined.position + joined.taken.length := by
      rw [List.length_drop, position, position, h.place]
      omega
    rw [reads, hnext, position, hcursor, hsum, length_taken h.joined_complete]
    simp [cursor_read, position]

/-- How many reads have led to the same place where zeros stand alone. -/
def splitIndex (lx : Lexer) : Nat → Nat
  | 0 => 0
  | n + 1 => lx.splitIndex n + (leadingZeros (lx.reads n).taken + 1)

theorem leadsWithZero_of_taken (hc : joined.ending = .complete) (h : LeadsWithZero joined.taken) :
    LeadsWithZero joined.cursor.ahead := by
  rw [taken_append_ahead hc]
  exact h.append _

/-- After each token, and the zeros that it has been split into, both are at the same place. -/
theorem paired_reads (h : Paired o joined split)
    (hfit : ∀ n, Fits o (joined.reads n).cursor.ahead) (n : Nat) :
    Paired o (joined.reads n) (split.reads (joined.splitIndex n)) := by
  induction n with
  | zero => exact h
  | succ n ih =>
    change Paired o (joined.reads n).read.2 _
    rw [splitIndex, ← reads_reads]
    by_cases hzero : LeadsWithZero (joined.reads n).cursor.ahead
    · obtain ⟨-, -, -, -, hnext⟩ := ih.zeros (hfit n) hzero
      exact hnext
    · obtain ⟨-, -, -, hnext⟩ := ih.same (hfit n) hzero
      have hnone : leadingZeros (joined.reads n).taken = 0 :=
        leadingZeros_eq_zero_iff.mpr (mt (leadsWithZero_of_taken ih.joined_complete) hzero)
      rw [hnone]
      exact hnext

/-- If zeros have to stand alone, the lexer comes to all places that it would come to otherwise. On
its way from one to the next it reads the same token, unless that has a zero in front of a digit. It
then reads the zeros one by one, as many as leave a digit in front, and the token that is behind
them as it is read on its own. No number may be longer than the limit. -/
theorem zeros_split (o : LexerOptions) (bytes : List UInt8)
    (hfit : ∀ n, ∀ b ∈ ((start (o.withZeros true) .complete bytes).reads n).cursor.ahead.head?,
      Byte.startsNumber b →
        ((start (o.withZeros true) .complete bytes).reads n).taken.length ≤ o.maxTokenLength) :
    let joined := start (o.withZeros true) .complete bytes
    let split := start (o.withZeros false) .complete bytes
    ∃ index : Nat → Nat, index 0 = 0 ∧ ∀ n,
      let here := joined.reads n
      let there (i : Nat) := split.reads (index n + i)
      (there 0).position = here.position ∧
      (¬ LeadsWithZero here.taken → index (n + 1) = index n + 1 ∧
        (there 0).taken = here.taken ∧ (there 0).read.1 = here.read.1 ∧
        (there 0).read.2.unterminated = here.read.2.unterminated) ∧
      (LeadsWithZero here.taken → ∃ j > 0, IsGreatest (frontZeros here.taken) j ∧
        index (n + 1) = index n + (j + 1) ∧
        (∀ i < j, (there i).taken = [0x30] ∧ (there i).read.1 = .ok (.number 0)) ∧
        (there j).taken = here.taken.drop j ∧
        ∀ continued, let alone := start (o.withZeros continued) .complete (here.taken.drop j)
          alone.taken = here.taken.drop j ∧ (there j).read.1 = alone.read.1) := by
  intro joined split
  have hfits (n : Nat) : Fits o (joined.reads n).cursor.ahead := by
    intro b hb hstart
    have hlength := length_taken (ending_reads joined n)
    rw [options_reads] at hlength
    exact hlength ▸ hfit n b hb hstart
  have hpaired := @paired_reads o joined split ⟨rfl, rfl, rfl, rfl, rfl⟩ hfits
  refine ⟨joined.splitIndex, rfl, fun n => ?_⟩
  intro here there
  have hn : Paired o here (there 0) := hpaired n
  have hthere (i : Nat) : there i = (there 0).reads i := (reads_reads split _ i).symm
  refine ⟨congrArg Cursor.offset hn.place, fun hzero => ?_, fun hzero => ?_⟩
  · have hahead : ¬ LeadsWithZero here.cursor.ahead := fun hahead =>
      hzero (hn.zeros (hfits n) hahead).1
    obtain ⟨htaken, htoken, hflag, -⟩ := hn.same (hfits n) hahead
    refine ⟨?_, htaken, htoken, hflag⟩
    rw [splitIndex, leadingZeros_eq_zero_iff.mpr hzero]
  · obtain ⟨-, hzeros, hlast, halone, -⟩ :=
      hn.zeros (hfits n) (leadsWithZero_of_taken hn.joined_complete hzero)
    have hpos : leadingZeros here.taken ≠ 0 := mt leadingZeros_eq_zero_iff.mp (not_not_intro hzero)
    refine ⟨_, Nat.pos_of_ne_zero hpos, isGreatest_leadingZeros hzero, rfl, fun i hi => ?_, ?_, ?_⟩
    · rw [hthere]
      exact hzeros i hi
    · rw [hthere]
      exact hlast
    · rw [hthere]
      exact halone

theorem zeros_split_seven :
    let bytes : List UInt8 := [0x30, 0x30, 0x37, 0x20]
    let joined := start (LexerOptions.withZeros {} true) .complete bytes
    let split := start (LexerOptions.withZeros {} false) .complete bytes
    (∀ n, ∀ b ∈ (joined.reads n).cursor.ahead.head?, Byte.startsNumber b →
      (joined.reads n).taken.length ≤ 65535) ∧
    (∃ index : Nat → Nat, index 0 = 0 ∧ index 1 = 3 ∧
      ∀ n, (split.reads (index n)).position = (joined.reads n).position) ∧
    split.taken = [0x30] ∧ (split.reads 1).taken = [0x30] ∧ (split.reads 2).taken = [0x37] := by
  intro bytes joined split
  have hfit (n : Nat) : (joined.reads n).taken.length ≤ 65535 := by
    have hplace : (joined.reads n).cursor = .at bytes (joined.reads n).position := cursor_reads ..
    rw [taken, List.length_take, hplace, Cursor.at, List.length_drop]
    exact Nat.le_trans (Nat.min_le_right _ _) (Nat.le_trans (Nat.sub_le _ _) (by decide))
  obtain ⟨index, hzero, hindex⟩ := zeros_split {} bytes fun n _ _ _ => hfit n
  have htaken : joined.taken = [0x30, 0x30, 0x37] := by decide +kernel
  have hlead : LeadsWithZero joined.taken := htaken ▸ ⟨rfl, rfl⟩
  obtain ⟨j, -, hj, hone, hzeros, hlast, -⟩ := (hindex 0).2.2 hlead
  have htwo : leadingZeros joined.taken = 2 := htaken ▸ rfl
  obtain rfl : j = 2 := (hj.unique (isGreatest_leadingZeros hlead)).trans htwo
  rw [hzero] at hone hzeros hlast
  change (split.reads (0 + 2)).taken = joined.taken.drop 2 at hlast
  rw [htaken] at hlast
  exact ⟨fun n _ _ _ => hfit n, ⟨index, hzero, hone, fun n => (hindex n).1⟩,
    (hzeros 0 (by decide)).1, (hzeros 1 (by decide)).1, hlast⟩

end Lexer

end PageScript
