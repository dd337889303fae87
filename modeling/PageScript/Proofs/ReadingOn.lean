import PageScript.Proofs.FailingReads
import PageScript.Proofs.Layout

/-!
# Reading on

Every token but the end of the input has a byte of its own, and the end of the input is told where
no byte is left. So reading comes to the end, and so does the search for a significant token. Blanks
are taken together, so that the token behind them is never blank again.
-/
namespace PageScript

namespace Scanner

variable {o : LexerOptions} {s : Scanner} {b : UInt8} {bytes : List UInt8}

/-- The scanner is inside a token that will not be blank. -/
def Solid (s : Scanner) : Prop := s ≠ .start ∧ s ≠ .blank

/-- The token is not blank, and will not be. -/
def Move.Solid : Move → Prop
  | .advance s => s.Solid
  | .finish t | .finishAfter t => t ≠ .blank

@[simp] theorem solid_advance : (Move.advance s).Solid ↔ s ≠ .start ∧ s ≠ .blank := Iff.rfl

@[simp] theorem solid_finish {t : Token} : (Move.finish t).Solid ↔ t ≠ .blank := Iff.rfl

@[simp] theorem solid_finishAfter {t : Token} : (Move.finishAfter t).Solid ↔ t ≠ .blank := Iff.rfl

@[simp] theorem wordToken_ne_blank (text : Array UInt8) : wordToken text ≠ .blank := by
  unfold wordToken
  split
  · simp
  · split <;> simp

@[simp] theorem numberToken_ne_blank (text : Array UInt8) : numberToken text ≠ .blank := by
  unfold numberToken
  split
  · split <;> simp
  · simp

theorem solid_begin (hb : ¬ Byte.isBlank b) : (begin o b).Solid := by
  simp [begin, hb, apply_ite Move.Solid]

theorem solid_plainStep (text : Array UInt8) (depth : Nat) (afterReturn : Bool) :
    (plainStep o text depth afterReturn b).Solid := by
  cases depth <;> simp [plainStep, apply_ite Move.Solid]

theorem solid_step (hs : s.Solid) (b : UInt8) : (s.step o b).Solid := by
  cases s with
  | start => exact absurd rfl hs.1
  | blank => exact absurd rfl hs.2
  | comment => simp [step, commentStep, apply_ite Move.Solid, lineToken]
  | number => simp [step, numberStep, apply_ite Move.Solid]
  | word => simp [step, apply_ite Move.Solid]
  | «variable» => simp [step, apply_ite Move.Solid, variableToken]
  | afterLess | hex => simp [step, hexStep, apply_ite Move.Solid, hexToken]
  | afterGreater => simp [step, apply_ite Move.Solid]
  | string text depth escape =>
    cases escape <;> simp [step, stringStep, apply_ite Move.Solid, solid_plainStep]

theorem atEnd_ne_blank (hs : s.Solid) : (s.atEnd o).1 ≠ .blank := by
  cases s with
  | start => exact absurd rfl hs.1
  | blank => exact absurd rfl hs.2
  | string text depth escape => cases escape <;> simp [atEnd]
  | _ => simp [atEnd, variableToken, hexToken]

theorem run_ne_blank (hs : s.Solid) (n : Nat) : (run o s n bytes).token ≠ .blank := by
  induction bytes generalizing s n with
  | nil => exact atEnd_ne_blank hs
  | cons b rest ih =>
    have hsolid := solid_step (o := o) hs b
    rw [run]
    split <;> next h =>
      rw [h] at hsolid
      first | exact ih hsolid _ | exact hsolid

end Scanner

section Scan

variable {o : LexerOptions} {b : UInt8} {bytes rest : List UInt8}

theorem scan_ne_blank (hb : ¬ Byte.isBlank b) : (scan o (b :: rest)).token ≠ .blank := by
  have hsolid := Scanner.solid_begin (o := o) hb
  rw [scan, Scanner.run, Scanner.step]
  split <;> next h =>
    rw [h] at hsolid
    first | exact Scanner.run_ne_blank hsolid _ | exact hsolid

/-- The end of the input is told where there is no byte. -/
theorem scan_eq_endOfInput_iff : (scan o bytes).token = .endOfInput ↔ bytes = [] := by
  cases bytes with
  | nil => simp [scan_nil]
  | cons b rest => simp [scan_ne_endOfInput]

/-- A blank token takes all blanks that there are. -/
theorem scan_blank_rest (h : (scan o bytes).token = .blank) :
    (scan o (scan o bytes).rest).token ≠ .blank := by
  cases bytes with
  | nil => simp [scan_nil] at h
  | cons b rest =>
    have hb : Byte.isBlank b := by
      by_contra hb
      exact scan_ne_blank hb h
    rw [(scan_blank hb).2]
    cases hrest : rest.dropWhile Byte.isBlank with
    | nil => simp [scan_nil]
    | cons c more =>
      have hc : ¬ Byte.isBlank c := by
        have hhead := List.head?_dropWhile_not Byte.isBlank rest
        simpa [hrest] using hhead
      exact scan_ne_blank hc

end Scan

namespace Lexer

variable {lx : Lexer} {t : Token}

theorem ending_reads (lx : Lexer) (n : Nat) : (lx.reads n).ending = lx.ending := by
  induction n with
  | zero => rfl
  | succ n ih => rw [reads, ending_read, ih]

theorem reads_reads (lx : Lexer) (n i : Nat) : (lx.reads n).reads i = lx.reads (n + i) := by
  induction i with
  | zero => rfl
  | succ i ih => rw [reads, ih]; rfl

theorem read_fst (hc : lx.ending = .complete) :
    lx.read.1 = .ok (scan lx.options lx.cursor.ahead).token := by
  rw [read_complete hc]

theorem ahead_read (lx : Lexer) :
    lx.read.2.cursor.ahead = (scan lx.options lx.cursor.ahead).rest := by
  rw [cursor_read, drop_length_scan]

/-- What is behind the place and what is ahead of it are the whole script, wherever a read leads. -/
theorem position_add_remaining (lx : Lexer) (n : Nat) :
    (lx.reads n).position + (lx.reads n).remaining = lx.position + lx.remaining := by
  induction n with
  | zero => rfl
  | succ n ih =>
    have hsum := length_rest_scan (lx.reads n).options (lx.reads n).cursor.ahead
    rw [reads, position_read, remaining_read]
    rw [remaining] at ih
    omega

/-- The end of the input is told if and only if nothing is left. -/
theorem read_eq_endOfInput_iff (hc : lx.ending = .complete) :
    lx.read.1 = .ok .endOfInput ↔ lx.remaining = 0 := by
  rw [read_fst hc, remaining, List.length_eq_zero_iff, ← scan_eq_endOfInput_iff (o := lx.options)]
  simp

theorem read_after_blank (hc : lx.ending = .complete) (h : lx.read.1 = .ok .blank) :
    lx.read.2.read.1 ≠ .ok .blank := by
  rw [read_fst hc, Except.ok.injEq] at h
  rw [read_fst ((ending_read lx).trans hc), ahead_read, options_read, ne_eq, Except.ok.injEq]
  exact scan_blank_rest h

/-- Reading comes to the end after no more tokens than there are bytes. -/
theorem exists_reads_end (hc : lx.ending = .complete) : ∃ n ≤ lx.remaining,
    (lx.reads n).read.1 = .ok .endOfInput ∧ ∀ m < n, (lx.reads m).read.1 ≠ .ok .endOfInput := by
  obtain ⟨size, hsize⟩ : ∃ size, lx.remaining = size := ⟨_, rfl⟩
  induction size using Nat.strong_induction_on generalizing lx with
  | _ size ih =>
    by_cases hend : lx.read.1 = .ok .endOfInput
    · exact ⟨0, Nat.zero_le _, hend, by simp⟩
    · have htoken := read_fst hc
      have hlt := remaining_read_lt htoken (fun h => hend (h ▸ htoken))
      obtain ⟨n, hn, hlast, hbefore⟩ :=
        ih _ (hsize ▸ hlt) ((ending_read lx).trans hc) rfl
      refine ⟨n + 1, Nat.le_trans (Nat.succ_le_succ hn) hlt, ?_, fun m hm => ?_⟩
      · rwa [reads_read] at hlast
      · cases m with
        | zero => exact hend
        | succ m =>
          have hm := hbefore m (Nat.lt_of_succ_lt_succ hm)
          rwa [reads_read] at hm

/-- The next significant token is read after a number of others. -/
theorem exists_reads_significant (hc : lx.ending = .complete) : ∃ k ≤ lx.remaining,
    lx.readSignificant = (lx.reads k).read ∧
      (∃ t, (lx.reads k).read.1 = .ok t ∧ ¬ t.isTrivia) ∧
      ∀ i < k, ∃ t, (lx.reads i).read.1 = .ok t ∧ t.isTrivia := by
  fun_induction readSignificant lx with
  | case1 lx e next h => simp [read, hc, Ending.met?] at h
  | case2 lx t next h ht hlt ih =>
    have hnext : lx.read.2 = next := by rw [h]
    subst hnext
    obtain ⟨k, hk, hread, hlast, hbefore⟩ := ih ((ending_read lx).trans hc)
    refine ⟨k + 1, Nat.le_trans (Nat.succ_le_succ hk) hlt, ?_, ?_, fun i hi => ?_⟩
    · rwa [reads_read] at hread
    · rwa [reads_read] at hlast
    · cases i with
      | zero => exact ⟨t, congrArg Prod.fst h, ht⟩
      | succ i =>
        have hi := hbefore i (Nat.lt_of_succ_lt_succ hi)
        rwa [reads_read] at hi
  | case3 lx t next h ht => exact ⟨0, Nat.zero_le _, h.symm, ⟨t, congrArg Prod.fst h, ht⟩, by simp⟩

/-- From any place of a script, each read gives a token. It moves on unless that is the end of the
input, which is told at the end of the script and nowhere else, and two blank tokens do not follow
each other. The end of the input is told after at most as many tokens as there are bytes. A
significant token is read after a number of others that are not, no more than there are bytes. -/
theorem reads_on (lx : Lexer) (behind ahead : List UInt8) :
    let here : Lexer := { lx with ending := .complete, cursor := ⟨behind.length, ahead⟩ }
    (∀ n, ∃ t, (here.reads n).read.1 = .ok t ∧
        (t ≠ .endOfInput → (here.reads n).position < (here.reads (n + 1)).position) ∧
        (t = .endOfInput ↔ (here.reads n).position = (behind ++ ahead).length) ∧
        (t = .blank → (here.reads (n + 1)).read.1 ≠ .ok .blank)) ∧
      (∃ n ≤ ahead.length, (here.reads n).read.1 = .ok .endOfInput ∧
        ∀ m < n, (here.reads m).read.1 ≠ .ok .endOfInput) ∧
      ∀ n, ∃ k, (here.reads n).position + k ≤ (behind ++ ahead).length ∧
        (here.reads n).readSignificant = (here.reads (n + k)).read ∧
        (∃ t, (here.reads (n + k)).read.1 = .ok t ∧ ¬ t.isTrivia) ∧
        ∀ i < k, ∃ t, (here.reads (n + i)).read.1 = .ok t ∧ t.isTrivia := by
  intro here
  have hc (n : Nat) : (here.reads n).ending = .complete := ending_reads here n
  have hsize (n : Nat) : (here.reads n).position + (here.reads n).remaining =
      (behind ++ ahead).length := by
    rw [position_add_remaining, List.length_append]
    rfl
  refine ⟨fun n => ?_, @exists_reads_end here rfl, fun n => ?_⟩
  · have htoken := read_fst (hc n)
    refine ⟨_, htoken, position_lt_read htoken, ?_, fun hblank => ?_⟩
    · have hend := read_eq_endOfInput_iff (hc n)
      rw [htoken, Except.ok.injEq] at hend
      rw [hend, ← hsize n]
      omega
    · exact read_after_blank (hc n) (hblank ▸ htoken)
  · obtain ⟨k, hk, hread, hlast, hbefore⟩ := exists_reads_significant (hc n)
    simp only [reads_reads] at hread hlast hbefore
    exact ⟨k, by have := hsize n; omega, hread, hlast, hbefore⟩

end Lexer

end PageScript
