import PageScript.Lexer

/-!
# Reading in pieces

A lexer over a reader that delivers the script in pieces. It holds the bytes from the oldest saved
place on, or from the next unread byte if no place is saved, and asks for more when it runs out.
-/
namespace PageScript

inductive Delivery where
  | bytes (first : UInt8) (rest : List UInt8)
  | interrupted
  deriving DecidableEq, Repr

namespace Delivery

def toList : Delivery → List UInt8
  | bytes first rest => first :: rest
  | interrupted => []

/-- The first bytes delivered, and the deliveries after them. -/
def next : List Delivery → List UInt8 × List Delivery
  | [] => ([], [])
  | bytes first rest :: later => (first :: rest, later)
  | interrupted :: later => next later

def concat (deliveries : List Delivery) : List UInt8 := deliveries.flatMap toList

theorem concat_next (deliveries : List Delivery) :
    (next deliveries).1 ++ concat (next deliveries).2 = concat deliveries := by
  induction deliveries with
  | nil => rfl
  | cons d later ih =>
    cases d with
    | bytes first rest => rfl
    | interrupted => exact ih

end Delivery

/-- Held bytes with a place among them, and what is still to come. -/
structure Buffer where
  supply : List Delivery
  ending : Ending
  held : Array UInt8 := #[]
  cursor : Nat := 0
  /-- The offset of the first held byte in the script. -/
  offset : Nat := 0
  ended : Bool := false
  /-- Offsets of the saved places, the last one first. -/
  marks : List Nat := []
  deriving DecidableEq, Repr

namespace Buffer

def remaining (b : Buffer) : Nat := b.held.size - b.cursor + (Delivery.concat b.supply).length

/-- Lets go of the bytes behind the place, unless a saved place may return to them. -/
def drain (b : Buffer) : Buffer :=
  if b.marks.isEmpty then
    { b with held := b.held.extract b.cursor, offset := b.offset + b.cursor, cursor := 0 }
  else b

def receive (b : Buffer) : Buffer :=
  { b with
    held := b.held ++ (Delivery.next b.supply).1.toArray
    supply := (Delivery.next b.supply).2 }

/-- Asks for more bytes, as often as it takes. -/
def fill (b : Buffer) : Except ScriptError Unit × Buffer :=
  let b := b.drain
  match (Delivery.next b.supply).1.isEmpty, b.ending with
  | false, _ => (.ok (), b.receive)
  | true, .complete => (.ok (), { b.receive with ended := true })
  | true, .failure text => (.error (.external text), b.receive)

def peek (b : Buffer) : Except ScriptError (Option UInt8) × Buffer :=
  match b.held[b.cursor]? with
  | some byte => (.ok (some byte), b)
  | none =>
    if b.ended then (.ok none, b)
    else
      match b.fill with
      | (.ok (), b) => (.ok b.held[b.cursor]?, b)
      | (.error e, b) => (.error e, b)

def advance (b : Buffer) : Buffer := { b with cursor := b.cursor + 1 }

theorem remaining_drain (b : Buffer) : b.drain.remaining = b.remaining := by
  unfold drain
  split
  · simp [remaining]
  · rfl

theorem remaining_receive_le (b : Buffer) : b.receive.remaining ≤ b.remaining := by
  have hc := congrArg List.length (Delivery.concat_next b.supply)
  simp only [List.length_append] at hc
  simp only [remaining, receive, Array.size_append, List.size_toArray]
  omega

theorem remaining_fill (b : Buffer) : b.fill.2.remaining ≤ b.remaining := by
  rw [← remaining_drain b]
  simp only [fill]
  split <;> exact remaining_receive_le b.drain

theorem remaining_peek (b : Buffer) : b.peek.2.remaining ≤ b.remaining := by
  have hf := remaining_fill b
  unfold peek
  split
  · exact Nat.le_refl _
  · split
    · exact Nat.le_refl _
    · split <;> simp_all

theorem peek_some {b : Buffer} {byte : UInt8} (h : b.peek.1 = .ok (some byte)) :
    b.peek.2.cursor < b.peek.2.held.size := by
  unfold peek at h ⊢
  split
  · next hb => exact (Array.getElem?_eq_some_iff.mp hb).1
  · next hb =>
    rw [hb] at h
    split
    · next he => simp [he] at h
    · next he =>
      simp only [he, Bool.false_eq_true, if_false] at h
      split
      · next b' hf =>
        rw [hf] at h
        exact (Array.getElem?_eq_some_iff.mp (Except.ok.inj h)).1
      · next e b' hf =>
        rw [hf] at h
        cases h

theorem remaining_advance_peek {b : Buffer} {byte : UInt8} (h : b.peek.1 = .ok (some byte)) :
    b.peek.2.advance.remaining < b.remaining := by
  have h1 := remaining_peek b
  have h2 := peek_some h
  simp only [remaining, advance] at h1 ⊢
  omega

/-- Takes bytes until the token under way ends. -/
def run (o : LexerOptions) (s : Scanner) (b : Buffer) : Except ScriptError (Token × Bool) × Buffer :=
  match h : b.peek with
  | (.error e, b') => (.error e, b')
  | (.ok none, b') => (.ok (s.atEnd o), b')
  | (.ok (some byte), b') =>
    have : b'.advance.remaining < b.remaining := by
      have h1 : b.peek.1 = .ok (some byte) := by rw [h]
      have h2 : b.peek.2 = b' := by rw [h]
      rw [← h2]
      exact remaining_advance_peek h1
    match s.step o byte with
    | .advance next => run o next b'.advance
    | .finish t => (.ok (t, false), b')
    | .finishAfter t => (.ok (t, false), b'.advance)
termination_by b.remaining

theorem remaining_run_le (o : LexerOptions) (s : Scanner) (b : Buffer) :
    (run o s b).2.remaining ≤ b.remaining := by
  have hp (b : Buffer) := remaining_peek b
  fun_induction run o s b with
  | case1 s b e b' h => simpa [h] using hp b
  | case2 s b b' h => simpa [h] using hp b
  | case3 s b byte b' h this next hs ih => omega
  | case4 s b byte b' h this t hs => simpa [h] using hp b
  | case5 s b byte b' h this t hs => exact Nat.le_of_lt this

theorem remaining_run_start_lt {o : LexerOptions} {b : Buffer} {t : Token} {u : Bool}
    (h : (run o .start b).1 = .ok (t, u)) (ht : t ≠ .endOfInput) :
    (run o .start b).2.remaining < b.remaining := by
  revert h
  fun_cases run o .start b with
  | case1 e b' hp => intro h; cases h
  | case2 b' hp => intro h; cases h; exact absurd rfl ht
  | case3 byte b' hp hl next hs => exact fun _ => Nat.lt_of_le_of_lt (remaining_run_le ..) hl
  | case4 byte b' hp hl t' hs => exact absurd hs (Scanner.begin_ne_finish o byte t')
  | case5 byte b' hp hl t' hs => exact fun _ => hl

end Buffer

structure BufferedLexer where
  options : LexerOptions
  buffer : Buffer
  /-- The last token read was a string without its end. -/
  unterminated : Bool := false
  deriving DecidableEq, Repr

namespace BufferedLexer

def start (options : LexerOptions) (ending : Ending) (supply : List Delivery) : BufferedLexer where
  options := options
  buffer := { supply := supply, ending := ending }

def position (lx : BufferedLexer) : Nat := lx.buffer.offset + lx.buffer.cursor

def read (lx : BufferedLexer) : Except ScriptError Token × BufferedLexer :=
  match Buffer.run lx.options .start lx.buffer with
  | (.error e, b) => (.error e, { lx with buffer := b, unterminated := false })
  | (.ok (t, u), b) => (.ok t, { lx with buffer := b, unterminated := u })

def save (lx : BufferedLexer) : BufferedLexer :=
  { lx with buffer := { lx.buffer with marks := lx.position :: lx.buffer.marks } }

def restore (lx : BufferedLexer) : BufferedLexer :=
  match lx.buffer.marks with
  | [] => lx
  | mark :: marks =>
    { lx with buffer := { lx.buffer with cursor := mark - lx.buffer.offset, marks := marks } }

def discard (lx : BufferedLexer) : BufferedLexer :=
  { lx with buffer := { lx.buffer with marks := lx.buffer.marks.tail } }

theorem remaining_read_lt {lx : BufferedLexer} {t : Token} (h : lx.read.1 = .ok t)
    (ht : t ≠ .endOfInput) : lx.read.2.buffer.remaining < lx.buffer.remaining := by
  have hr := @Buffer.remaining_run_start_lt lx.options lx.buffer t
  unfold read at h ⊢
  split
  · next hb => rw [hb] at h; cases h
  · next t' u b hb =>
    rw [hb] at h hr
    cases h
    exact hr rfl ht

def readSignificant (lx : BufferedLexer) : Except ScriptError Token × BufferedLexer :=
  match h : lx.read with
  | (.error e, next) => (.error e, next)
  | (.ok t, next) =>
    if ht : t.isTrivia then
      have : next.buffer.remaining < lx.buffer.remaining := by
        have h1 : lx.read.1 = .ok t := by rw [h]
        have h2 : lx.read.2 = next := by rw [h]
        rw [← h2]
        exact remaining_read_lt h1 (by rintro rfl; cases ht)
      readSignificant next
    else (.ok t, next)
termination_by lx.buffer.remaining

def peekSignificant (lx : BufferedLexer) : Except ScriptError Token × BufferedLexer :=
  let r := lx.save.readSignificant
  (r.1, r.2.restore)

end BufferedLexer

end PageScript
