import PageScript.Lexer

/-!
# Reading by index

A lexer over a script that is there as a whole. All it knows of its way is how many bytes are behind
it and behind each saved place.
-/
namespace PageScript

/-- The place behind some bytes of a script. -/
def Cursor.at (bytes : List UInt8) (index : Nat) : Cursor := ⟨index, bytes.drop index⟩

theorem drop_length_run (o : LexerOptions) (s : Scanner) (n : Nat) (bytes : List UInt8) :
    bytes.drop ((Scanner.run o s n bytes).length - n) = (Scanner.run o s n bytes).rest := by
  induction bytes generalizing s n with
  | nil => simp [Scanner.run]
  | cons b rest ih =>
    rw [Scanner.run]
    split
    · next next hs =>
      have hle := Scanner.le_length_run o next (n + 1) rest
      have hcount : (Scanner.run o next (n + 1) rest).length - n =
          ((Scanner.run o next (n + 1) rest).length - (n + 1)) + 1 := by omega
      rw [hcount, List.drop_succ_cons, ih]
    · simp
    · simp

/-- What a scan leaves is what stands behind the bytes that it takes. -/
theorem drop_length_scan (o : LexerOptions) (bytes : List UInt8) :
    bytes.drop (scan o bytes).length = (scan o bytes).rest :=
  drop_length_run o .start 0 bytes

namespace Lexer

variable {lx next : Lexer}

theorem readSignificant_of_ok {t : Token} (h : lx.read = (.ok t, next)) :
    lx.readSignificant = if t.isTrivia then next.readSignificant else (.ok t, next) := by
  rw [readSignificant]
  split
  · next hr => cases hr.symm.trans h
  · next hr =>
    cases hr.symm.trans h
    split <;> rfl

theorem readSignificant_of_error {e : ScriptError} (h : lx.read = (.error e, next)) :
    lx.readSignificant = (.error e, next) := by
  rw [readSignificant]
  split
  · next hr =>
    cases hr.symm.trans h
    rfl
  · next hr => cases hr.symm.trans h

end Lexer

structure IndexedLexer where
  index : Nat := 0
  /-- The indices of the saved places, the last one first. -/
  saved : List Nat := []
  /-- The last token read was a string without its end. -/
  unterminated : Bool := false
  deriving DecidableEq, Repr

namespace IndexedLexer

variable (o : LexerOptions) (bytes : List UInt8)

def read (lx : IndexedLexer) : Token × IndexedLexer :=
  let s := scan o (bytes.drop lx.index)
  (s.token, { lx with index := lx.index + s.length, unterminated := s.unterminated })

theorem remaining_read_lt {lx : IndexedLexer} (h : (lx.read o bytes).1 ≠ .endOfInput) :
    bytes.length - (lx.read o bytes).2.index < bytes.length - lx.index := by
  have hl := length_rest_scan o (bytes.drop lx.index)
  rw [List.length_drop] at hl
  cases hd : bytes.drop lx.index with
  | nil => simp [read, hd, scan_nil] at h
  | cons b rest =>
    have hp := scan_length_pos o b rest
    rw [← hd] at hp
    simp only [read]
    omega

/-- Reads on to the next token that is neither blank nor a comment. -/
def readSignificant (lx : IndexedLexer) : Token × IndexedLexer :=
  if ht : (lx.read o bytes).1.isTrivia then
    have : bytes.length - (lx.read o bytes).2.index < bytes.length - lx.index :=
      remaining_read_lt o bytes (by intro h; rw [h] at ht; cases ht)
    readSignificant (lx.read o bytes).2
  else lx.read o bytes
termination_by bytes.length - lx.index

/-- The next significant token, without moving. -/
def peekSignificant (lx : IndexedLexer) : Token × IndexedLexer :=
  let r := lx.readSignificant o bytes
  (r.1, { lx with unterminated := r.2.unterminated })

def save (lx : IndexedLexer) : IndexedLexer := { lx with saved := lx.index :: lx.saved }

def restore (lx : IndexedLexer) : IndexedLexer :=
  match lx.saved with
  | [] => lx
  | place :: saved => { lx with index := place, saved := saved }

def discard (lx : IndexedLexer) : IndexedLexer := { lx with saved := lx.saved.tail }

/-- The lexer of a whole script at the same places. -/
def whole (ending : Ending) (lx : IndexedLexer) : Lexer where
  options := o
  ending := ending
  cursor := Cursor.at bytes lx.index
  saved := lx.saved.map (Cursor.at bytes)
  unterminated := lx.unterminated

section Whole

variable {o bytes} {ending : Ending} (lx : IndexedLexer)

theorem whole_save : (lx.whole o bytes ending).save = lx.save.whole o bytes ending := rfl

theorem whole_restore : (lx.whole o bytes ending).restore = lx.restore.whole o bytes ending := by
  cases hs : lx.saved <;> simp [Lexer.restore, restore, whole, hs]

theorem whole_discard : (lx.whole o bytes ending).discard = lx.discard.whole o bytes ending := by
  simp [Lexer.discard, discard, whole]

theorem whole_read : (lx.whole o bytes .complete).read =
    (.ok (lx.read o bytes).1, (lx.read o bytes).2.whole o bytes .complete) := by
  have hrest := drop_length_scan o (bytes.drop lx.index)
  rw [List.drop_drop] at hrest
  simp [Lexer.read, Ending.met?, Lexer.after, read, whole, Cursor.at, hrest]

theorem whole_readSignificant : (lx.whole o bytes .complete).readSignificant =
    (.ok (lx.readSignificant o bytes).1,
      (lx.readSignificant o bytes).2.whole o bytes .complete) := by
  fun_induction readSignificant o bytes lx with
  | case1 lx ht hlt ih => rw [Lexer.readSignificant_of_ok lx.whole_read, if_pos ht, ih]
  | case2 lx ht => rw [Lexer.readSignificant_of_ok lx.whole_read, if_neg ht]

/-- Saved places are neither looked at nor changed by reading. -/
theorem readSignificant_with_saved (saved : List Nat) :
    { lx with saved := saved }.readSignificant o bytes = ((lx.readSignificant o bytes).1,
      { (lx.readSignificant o bytes).2 with saved := saved }) := by
  fun_induction readSignificant o bytes lx with
  | case1 lx ht hlt ih =>
    have ht' : ({ lx with saved := saved }.read o bytes).1.isTrivia := ht
    rw [readSignificant, dif_pos ht']
    exact ih
  | case2 lx ht =>
    have ht' : ¬ ({ lx with saved := saved }.read o bytes).1.isTrivia := ht
    rw [readSignificant, dif_neg ht']
    rfl

/-- The lexer looks ahead by saving its place and returning to it. -/
theorem whole_peekSignificant : (lx.whole o bytes .complete).peekSignificant =
    (.ok (lx.peekSignificant o bytes).1,
      (lx.peekSignificant o bytes).2.whole o bytes .complete) := by
  have hsave : lx.save.readSignificant o bytes = ((lx.readSignificant o bytes).1,
      { (lx.readSignificant o bytes).2 with saved := lx.save.saved }) :=
    readSignificant_with_saved lx lx.save.saved
  have hpeek : (lx.save.readSignificant o bytes).2.restore = (lx.peekSignificant o bytes).2 := by
    rw [hsave]
    rfl
  rw [Lexer.peekSignificant, whole_save, whole_readSignificant]
  simp only
  rw [whole_restore, hpeek, hsave]
  rfl

end Whole

end IndexedLexer

end PageScript
