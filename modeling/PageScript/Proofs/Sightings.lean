import PageScript.Proofs.Refilling

/-!
# What is seen of a lexer

The calls of a lexer in any order, and what each of them lets see: the token, the place and the
flag.
However its bytes are delivered, a lexer lets see the same as the one that only counts.
-/
namespace PageScript

inductive LexerCall where
  | read
  | readSignificant
  | peekSignificant
  | save
  | restore
  | discard
  deriving DecidableEq, Repr

/-- What can be seen behind a call, with the token if the call gives one. -/
structure Sighting where
  token : Option (Except ScriptError Token)
  position : Nat
  unterminated : Bool

namespace LexerCall

/-- What is seen at the calls of a list, one after the other. -/
def sightings {σ : Type} (act : LexerCall → σ → Sighting × σ) : List LexerCall → σ → List Sighting
  | [], _ => []
  | call :: later, lx => (act call lx).1 :: sightings act later (act call lx).2

/-- The lexer behind the calls of a list. -/
def after {σ : Type} (act : LexerCall → σ → Sighting × σ) (calls : List LexerCall) (lx : σ) : σ :=
  calls.foldl (fun lx call => (act call lx).2) lx

section Simulation

variable {σ τ : Type} {R : σ → τ → Prop} {act : LexerCall → σ → Sighting × σ}
  {act' : LexerCall → τ → Sighting × τ}

theorem sightings_eq (hstep : ∀ call lx lx', R lx lx' →
      (act call lx).1 = (act' call lx').1 ∧ R (act call lx).2 (act' call lx').2)
    (calls : List LexerCall) {lx : σ} {lx' : τ} (h : R lx lx') :
    sightings act calls lx = sightings act' calls lx' := by
  induction calls generalizing lx lx' with
  | nil => rfl
  | cons call later ih =>
    obtain ⟨hseen, hnext⟩ := hstep call lx lx' h
    rw [sightings, sightings, hseen, ih hnext]

theorem after_invariant {P : σ → Prop} (hstep : ∀ call lx, P lx → P (act call lx).2)
    (calls : List LexerCall) {lx : σ} (h : P lx) : P (after act calls lx) := by
  induction calls generalizing lx with
  | nil => exact h
  | cons call later ih => exact ih (hstep call lx h)

end Simulation

end LexerCall

def BufferedLexer.perform (call : LexerCall) (lx : BufferedLexer) : Sighting × BufferedLexer :=
  let answer : Option (Except ScriptError Token) × BufferedLexer :=
    match call with
    | .read => (some lx.read.1, lx.read.2)
    | .readSignificant => (some lx.readSignificant.1, lx.readSignificant.2)
    | .peekSignificant => (some lx.peekSignificant.1, lx.peekSignificant.2)
    | .save => (none, lx.save)
    | .restore => (none, lx.restore)
    | .discard => (none, lx.discard)
  (⟨answer.1, answer.2.position, answer.2.unterminated⟩, answer.2)

def Lexer.perform (call : LexerCall) (lx : Lexer) : Sighting × Lexer :=
  let answer : Option (Except ScriptError Token) × Lexer :=
    match call with
    | .read => (some lx.read.1, lx.read.2)
    | .readSignificant => (some lx.readSignificant.1, lx.readSignificant.2)
    | .peekSignificant => (some lx.peekSignificant.1, lx.peekSignificant.2)
    | .save => (none, lx.save)
    | .restore => (none, lx.restore)
    | .discard => (none, lx.discard)
  (⟨answer.1, answer.2.position, answer.2.unterminated⟩, answer.2)

def IndexedLexer.perform (o : LexerOptions) (bytes : List UInt8) (call : LexerCall)
    (lx : IndexedLexer) : Sighting × IndexedLexer :=
  let answer : Option Token × IndexedLexer :=
    match call with
    | .read => (some (lx.read o bytes).1, (lx.read o bytes).2)
    | .readSignificant => (some (lx.readSignificant o bytes).1, (lx.readSignificant o bytes).2)
    | .peekSignificant => (some (lx.peekSignificant o bytes).1, (lx.peekSignificant o bytes).2)
    | .save => (none, lx.save)
    | .restore => (none, lx.restore)
    | .discard => (none, lx.discard)
  (⟨answer.1.map .ok, answer.2.index, answer.2.unterminated⟩, answer.2)

/-- The lexer of the whole script only counts. -/
theorem IndexedLexer.whole_perform (o : LexerOptions) (bytes : List UInt8) (call : LexerCall)
    (lx : IndexedLexer) :
    (lx.whole o bytes .complete).perform call =
      ((lx.perform o bytes call).1, (lx.perform o bytes call).2.whole o bytes .complete) := by
  cases call with
  | read => simp only [Lexer.perform, whole_read]; rfl
  | readSignificant => simp only [Lexer.perform, whole_readSignificant]; rfl
  | peekSignificant => simp only [Lexer.perform, whole_peekSignificant]; rfl
  | save => rfl
  | restore => simp only [Lexer.perform, whole_restore]; rfl
  | discard => simp only [Lexer.perform, whole_discard]; rfl

namespace BufferedLexer

variable {bytes : List UInt8} {lx : BufferedLexer}

/-- A call of a lexer that reads in pieces is that call of the lexer of the whole script, whatever
becomes of the bytes held and however the input ends. -/
theorem seen_perform (call : LexerCall) (h : lx.buffer.Covers bytes) :
    (lx.seen bytes).perform call = ((lx.perform call).1, (lx.perform call).2.seen bytes) ∧
      (lx.perform call).2.buffer.Covers bytes := by
  cases call with
  | read =>
    obtain ⟨hread, hcovers⟩ := seen_read h
    refine ⟨?_, hcovers⟩
    simp only [Lexer.perform, hread]
    rfl
  | readSignificant =>
    obtain ⟨hread, hcovers⟩ := seen_readSignificant h
    refine ⟨?_, hcovers⟩
    simp only [Lexer.perform, hread]
    rfl
  | peekSignificant =>
    obtain ⟨hpeek, hcovers⟩ := seen_peekSignificant h
    refine ⟨?_, hcovers⟩
    simp only [Lexer.perform, hpeek]
    rfl
  | save => exact ⟨rfl, covers_save h⟩
  | restore =>
    obtain ⟨hrestore, hcovers⟩ := seen_restore h
    refine ⟨?_, hcovers⟩
    simp only [Lexer.perform, hrestore]
    rfl
  | discard =>
    obtain ⟨hdiscard, hcovers⟩ := seen_discard h
    refine ⟨?_, hcovers⟩
    simp only [Lexer.perform, hdiscard]
    rfl

/-- Whatever is delivered, and whether it fails in the end, the calls see the whole script. -/
theorem sightings_whole (o : LexerOptions) (ending : Ending) (supply : List Delivery)
    (calls : List LexerCall) :
    LexerCall.sightings perform calls (start o ending supply) =
      LexerCall.sightings Lexer.perform calls (Lexer.start o ending (Delivery.concat supply)) := by
  apply LexerCall.sightings_eq
    (R := fun (lx : BufferedLexer) (whole : Lexer) =>
      lx.buffer.Covers (Delivery.concat supply) ∧ lx.seen (Delivery.concat supply) = whole)
  · rintro call lx _ ⟨hcovers, rfl⟩
    obtain ⟨hperform, hcovers'⟩ := seen_perform call hcovers
    rw [hperform]
    exact ⟨rfl, hcovers', rfl⟩
  · exact ⟨covers_start o ending supply, seen_start o ending supply⟩

/-- The bytes held are those of the script around the place, whatever has been called. -/
theorem covers_after (o : LexerOptions) (ending : Ending) (supply : List Delivery)
    (calls : List LexerCall) :
    (LexerCall.after perform calls (start o ending supply)).buffer.Covers
      (Delivery.concat supply) :=
  LexerCall.after_invariant
    (P := fun lx : BufferedLexer => lx.buffer.Covers (Delivery.concat supply))
    (fun call _ h => (seen_perform call h).2) calls (covers_start o ending supply)

/-- A lexer that reads in pieces is the one that counts: every call in every order gives the same
token, place and flag, and each saved place is among the bytes held, and so is the place itself. -/
theorem sightings_counted (o : LexerOptions) (supply : List Delivery) (calls : List LexerCall) :
    LexerCall.sightings perform calls (start o .complete supply) =
      LexerCall.sightings (IndexedLexer.perform o (Delivery.concat supply)) calls {} ∧
    let b := (LexerCall.after perform calls (start o .complete supply)).buffer
    b.cursor ≤ b.held.size ∧ ∀ m ∈ b.marks, b.offset ≤ m ∧ m ≤ b.offset + b.held.size := by
  have hwhole := sightings_whole o .complete supply calls
  have hcounted : LexerCall.sightings Lexer.perform calls
        (Lexer.start o .complete (Delivery.concat supply)) =
      LexerCall.sightings (IndexedLexer.perform o (Delivery.concat supply)) calls {} := by
    apply LexerCall.sightings_eq
      (R := fun (whole : Lexer) (lx : IndexedLexer) =>
        whole = lx.whole o (Delivery.concat supply) .complete)
    · rintro call _ lx rfl
      rw [IndexedLexer.whole_perform]
      exact ⟨rfl, rfl⟩
    · rfl
  have hcovers := covers_after o .complete supply calls
  exact ⟨hwhole.trans hcounted, hcovers.cursor, hcovers.marks⟩

end BufferedLexer

end PageScript
