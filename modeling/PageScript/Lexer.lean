import PageScript.ScriptError
import PageScript.Token.Scanner

/-!
# The lexer

A script with a place in it. Reading a token moves the place past it; a place can be saved and
returned to.
-/
namespace PageScript

inductive Ending where
  | complete
  /-- The input fails where the next byte is asked for. -/
  | failure (text : String)
  deriving DecidableEq, Repr

/-- The failure met by a scan, which has to look behind the last byte to meet it. -/
def Ending.met? : Ending → Scan → Option ScriptError
  | .complete, _ => none
  | .failure text, s => if s.looksPast && s.rest.isEmpty then some (.external text) else none

/-- A place in a script: the bytes behind it, counted, and the bytes ahead. -/
structure Cursor where
  offset : Nat
  ahead : List UInt8
  deriving DecidableEq, Repr

structure Lexer where
  options : LexerOptions
  ending : Ending
  cursor : Cursor
  /-- Saved places, the last one first. -/
  saved : List Cursor := []
  /-- The last token read was a string without its end. -/
  unterminated : Bool := false
  deriving DecidableEq, Repr

namespace Lexer

def start (options : LexerOptions) (ending : Ending) (bytes : List UInt8) : Lexer where
  options := options
  ending := ending
  cursor := ⟨0, bytes⟩

def ofBytes (bytes : List UInt8) : Lexer := start {} .complete bytes

def position (lx : Lexer) : Nat := lx.cursor.offset

def remaining (lx : Lexer) : Nat := lx.cursor.ahead.length

def after (lx : Lexer) (s : Scan) : Lexer :=
  { lx with cursor := ⟨lx.cursor.offset + s.length, s.rest⟩ }

/-- Reads one token, blanks and comments included. The input fails if the token cannot be told
without the byte behind the last one. -/
def read (lx : Lexer) : Except ScriptError Token × Lexer :=
  let s := scan lx.options lx.cursor.ahead
  match lx.ending.met? s with
  | some e => (.error e, { lx.after s with unterminated := false })
  | none => (.ok s.token, { lx.after s with unterminated := s.unterminated })

def save (lx : Lexer) : Lexer := { lx with saved := lx.cursor :: lx.saved }

def restore (lx : Lexer) : Lexer :=
  match lx.saved with
  | [] => lx
  | place :: saved => { lx with cursor := place, saved := saved }

def discard (lx : Lexer) : Lexer := { lx with saved := lx.saved.tail }

theorem remaining_read (lx : Lexer) :
    lx.read.2.remaining = (scan lx.options lx.cursor.ahead).rest.length := by
  simp only [read]
  split <;> rfl

theorem remaining_read_le (lx : Lexer) : lx.read.2.remaining ≤ lx.remaining := by
  rw [remaining_read, remaining]
  have := length_rest_scan lx.options lx.cursor.ahead
  omega

/-- A token other than the end of the input takes at least one byte. -/
theorem remaining_read_lt {lx : Lexer} {t : Token} (h : lx.read.1 = .ok t)
    (ht : t ≠ .endOfInput) : lx.read.2.remaining < lx.remaining := by
  rw [remaining_read, remaining]
  have hl := length_rest_scan lx.options lx.cursor.ahead
  cases ha : lx.cursor.ahead with
  | nil =>
    refine absurd ?_ ht
    simp only [read, ha, scan_nil] at h
    split at h
    · cases h
    · exact (Except.ok.inj h).symm
  | cons b rest =>
    have := scan_length_pos lx.options b rest
    rw [ha] at hl
    omega

/-- Reads the next token that is neither blank nor a comment. -/
def readSignificant (lx : Lexer) : Except ScriptError Token × Lexer :=
  match h : lx.read with
  | (.error e, next) => (.error e, next)
  | (.ok t, next) =>
    if ht : t.isTrivia then
      have : next.remaining < lx.remaining := by
        have h1 : lx.read.1 = .ok t := by rw [h]
        have h2 : lx.read.2 = next := by rw [h]
        rw [← h2]
        exact remaining_read_lt h1 (by rintro rfl; cases ht)
      readSignificant next
    else (.ok t, next)
termination_by lx.remaining

/-- The next token that is neither blank nor a comment, without moving. -/
def peekSignificant (lx : Lexer) : Except ScriptError Token × Lexer :=
  let r := lx.save.readSignificant
  (r.1, r.2.restore)

theorem remaining_readSignificant_le (lx : Lexer) :
    lx.readSignificant.2.remaining ≤ lx.remaining := by
  fun_induction readSignificant lx with
  | case1 lx e next h =>
    have := remaining_read_le lx
    rwa [h] at this
  | case2 lx t next h ht this ih => omega
  | case3 lx t next h ht =>
    have := remaining_read_le lx
    rwa [h] at this

theorem remaining_readSignificant_lt {lx : Lexer} {t : Token}
    (h : lx.readSignificant.1 = .ok t) (ht : t ≠ .endOfInput) :
    lx.readSignificant.2.remaining < lx.remaining := by
  fun_induction readSignificant lx with
  | case1 => cases h
  | case2 lx t next _ _ _ ih => have := ih h; omega
  | case3 lx u next hr _ =>
    cases h
    have := @remaining_read_lt lx t (by rw [hr]) ht
    rwa [hr] at this

theorem saved_read (lx : Lexer) : lx.read.2.saved = lx.saved := by
  simp only [read]
  split <;> rfl

theorem saved_readSignificant (lx : Lexer) : lx.readSignificant.2.saved = lx.saved := by
  fun_induction readSignificant lx with
  | case1 lx e next h | case3 lx t next h =>
    have := saved_read lx
    rwa [h] at this
  | case2 lx t next h ht _ ih =>
    have := saved_read lx
    rw [h] at this
    exact ih.trans this

/-- Returning to the place just saved leaves as much ahead as before. -/
theorem remaining_restore {lx next : Lexer} (h : next.saved = lx.save.saved) :
    next.restore.remaining = lx.remaining := by
  simp only [restore, h, save]
  rfl

theorem remaining_peekSignificant (lx : Lexer) : lx.peekSignificant.2.remaining = lx.remaining :=
  remaining_restore (saved_readSignificant lx.save)

/-- Feeds significant tokens to a state until it gives a result; `step` is told whether the token is
a string without its end. The end of the input always gives a result. -/
def feed {σ β : Type} (step : σ → Token → Bool → Except β σ) (atEnd : σ → β) (s : σ) (lx : Lexer) :
    Except ScriptError β × σ × Lexer :=
  match h : lx.readSignificant with
  | (.error e, next) => (.error e, s, next)
  | (.ok t, next) =>
    if ht : t = .endOfInput then (.ok (atEnd s), s, next)
    else
      match step s t next.unterminated with
      | .error b => (.ok b, s, next)
      | .ok s' =>
        have : next.remaining < lx.remaining := by
          have h1 : lx.readSignificant.1 = .ok t := by rw [h]
          have h2 : lx.readSignificant.2 = next := by rw [h]
          rw [← h2]
          exact remaining_readSignificant_lt h1 ht
        feed step atEnd s' next
termination_by lx.remaining

section Feed

variable {σ β : Type} {step : σ → Token → Bool → Except β σ} {atEnd : σ → β} {s : σ} {lx : Lexer}

theorem remaining_feed_le (step : σ → Token → Bool → Except β σ) (atEnd : σ → β) (s : σ)
    (lx : Lexer) : (feed step atEnd s lx).2.2.remaining ≤ lx.remaining := by
  fun_induction feed step atEnd s lx with
  | case1 s lx e next h | case2 s lx next h | case3 s lx t next h =>
    have := remaining_readSignificant_le lx
    rwa [h] at this
  | case4 s lx t next h ht s' hs hlt ih => omega

theorem saved_feed (step : σ → Token → Bool → Except β σ) (atEnd : σ → β) (s : σ) (lx : Lexer) :
    (feed step atEnd s lx).2.2.saved = lx.saved := by
  fun_induction feed step atEnd s lx with
  | case1 s lx e next h | case2 s lx next h | case3 s lx t next h =>
    have := saved_readSignificant lx
    rwa [h] at this
  | case4 s lx t next h ht s' hs hlt ih =>
    have := saved_readSignificant lx
    rw [h] at this
    exact ih.trans this

/-- What each step of a feed keeps holds of the state in which it stops. -/
theorem feed_invariant {P : σ → Prop} (atEnd : σ → β) (lx : Lexer)
    (hP : ∀ s t u s', P s → step s t u = .ok s' → P s') (h : P s) :
    P (feed step atEnd s lx).2.1 := by
  fun_induction feed step atEnd s lx with
  | case1 | case2 | case3 => exact h
  | case4 s lx t next _ _ s' hs _ ih => exact ih (hP s t _ s' h hs)

/-- A feed stops at the end of the input, or at a token of which the step makes a result. -/
theorem feed_result {b : β} (h : (feed step atEnd s lx).1 = .ok b) :
    b = atEnd (feed step atEnd s lx).2.1 ∨
      (∃ t u, step (feed step atEnd s lx).2.1 t u = .error b) ∧
        (feed step atEnd s lx).2.2.remaining < lx.remaining := by
  fun_induction feed step atEnd s lx with
  | case1 => cases h
  | case2 => exact .inl (Except.ok.inj h).symm
  | case3 s lx t next hr ht b' hs =>
    have hlt := @remaining_readSignificant_lt lx t (by rw [hr]) ht
    rw [hr] at hlt
    obtain rfl := Except.ok.inj h
    exact .inr ⟨⟨t, next.unterminated, hs⟩, hlt⟩
  | case4 s lx t next _ _ s' _ hlt ih =>
    rcases ih h with hb | ⟨hb, hr⟩
    · exact .inl hb
    · exact .inr ⟨hb, Nat.lt_trans hr hlt⟩

end Feed

end Lexer

end PageScript
