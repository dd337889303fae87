import PageScript.Proofs.IndexedLexer

/-!
# Where tokens end

A token ends with a byte of its own, before a byte that does not go on with it, or with the input.
What kind of token it is, and which bytes it has, tells which of these: a read looks at the byte
behind a token exactly if the token could have gone on.
-/
namespace PageScript

namespace Token

/-- The end of the input cuts the token off: a string without its delimiter, or a comment whose own
bytes do not end with a line end. -/
def CutOff (t : Token) (own : List UInt8) (unterminated : Bool) : Prop :=
  match t with
  | .string _ => unterminated = true
  | .comment _ => ¬ [0x0D, 0x0A] <:+ own
  | _ => False

/-- The delimiters that are keywords on their own: `#`, `{`, `}` and `)`. -/
def lone : List (List UInt8) := [[0x23], [0x7B], [0x7D], [0x29]]

/-- The byte behind the token, or the end of the input there, has to be looked at. Brackets, closed
strings and comments, and delimiters that are keywords end with a byte of their own. -/
def LooksPast (t : Token) (own : List UInt8) (unterminated : Bool) : Prop :=
  match t with
  | .blank | .name _ | .number _ | .variable _ | .objectReference | .endOfInput => True
  | .keyword _ => own ∉ lone
  | .string _ | .comment _ => t.CutOff own unterminated
  | .arrayStart | .arrayEnd | .dictionaryStart | .dictionaryEnd => False

end Token

namespace Scanner

variable {o : LexerOptions} {own : List UInt8} {s : Scanner} {b : UInt8} {t : Token}

/-! ### The bytes of a token under way -/

/-- The scanner is inside a token that has the given bytes so far. -/
inductive Reached (o : LexerOptions) : List UInt8 → Scanner → Prop where
  | start : Reached o [] .start
  | advance {own : List UInt8} {s next : Scanner} {b : UInt8} (reached : Reached o own s)
      (step : s.step o b = .advance next) : Reached o (own ++ [b]) next

/-- The ways in which a token ends. -/
inductive Ends (o : LexerOptions) : List UInt8 → Scan → Prop where
  | atEnd {own : List UInt8} {s : Scanner} (reached : Reached o own s) :
      Ends o own ⟨(s.atEnd o).1, (s.atEnd o).2, own.length, [], true⟩
  | before {own rest : List UInt8} {s : Scanner} {b : UInt8} {t : Token} (reached : Reached o own s)
      (step : s.step o b = .finish t) :
      Ends o (own ++ b :: rest) ⟨t, false, own.length, b :: rest, true⟩
  | after {own rest : List UInt8} {s : Scanner} {b : UInt8} {t : Token} (reached : Reached o own s)
      (step : s.step o b = .finishAfter t) :
      Ends o (own ++ b :: rest) ⟨t, false, own.length + 1, rest, false⟩

theorem Reached.ends (h : Reached o own s) (bytes : List UInt8) :
    Ends o (own ++ bytes) (run o s own.length bytes) := by
  induction bytes generalizing own s with
  | nil =>
    rw [List.append_nil]
    exact .atEnd h
  | cons b rest ih =>
    rw [run]
    split
    · next next hs =>
      have hnext := ih (h.advance hs)
      rwa [List.append_assoc, List.length_append] at hnext
    · next t hs => exact .before h hs
    · next t hs => exact .after h hs

theorem ends_scan (o : LexerOptions) (bytes : List UInt8) : Ends o bytes (scan o bytes) :=
  Reached.start.ends bytes

/-- What has been taken of a token does not depend on the bytes behind. -/
theorem Reached.scan (h : Reached o own s) (bytes : List UInt8) :
    PageScript.scan o (own ++ bytes) = run o s own.length bytes := by
  induction h generalizing bytes with
  | start => rfl
  | @advance own s next b _ hs ih =>
    rw [List.append_assoc, ih, List.singleton_append, run, hs, List.length_append]
    rfl

/-! ### Tokens that end before a byte -/

/-- Inside a token that has no last byte of its own. -/
def Loose : Scanner → Prop
  | .blank | .word _ | .number _ | .variable _ | .afterGreater => True
  | _ => False

theorem plainStep_ne_finish (text : Array UInt8) (depth : Nat) (afterReturn : Bool) (b : UInt8)
    (t : Token) : plainStep o text depth afterReturn b ≠ .finish t := by
  cases depth <;>
    simp only [plainStep, apply_ite (· ≠ Move.finish t), ne_eq, reduceCtorEq, not_false_eq_true,
      ite_self]

theorem stringStep_ne_finish (text : Array UInt8) (depth : Nat) (b : UInt8) (escape : Escape)
    (t : Token) : stringStep o text depth b escape ≠ .finish t := by
  cases escape with
  | plain afterReturn => exact plainStep_ne_finish text depth afterReturn b t
  | backslash =>
    simp only [stringStep, apply_ite (· ≠ Move.finish t), ne_eq, reduceCtorEq, not_false_eq_true,
      ite_self]
  | octal value digits =>
    simp only [stringStep, apply_ite (· ≠ Move.finish t), ne_eq, reduceCtorEq, not_false_eq_true,
      plainStep_ne_finish, ite_self]

/-- A token that ends before a byte is the one that it would have been at the end of the input. -/
theorem loose_of_finish (h : s.step o b = .finish t) : s.Loose ∧ s.atEnd o = (t, false) := by
  cases s with
  | start => exact absurd h (begin_ne_finish o b t)
  | blank | word | «variable» =>
    simp only [step] at h
    split at h <;> cases h
    exact ⟨trivial, rfl⟩
  | comment =>
    simp only [step, commentStep] at h
    split at h <;> cases h
  | number =>
    simp only [step, numberStep] at h
    split at h
    · cases h
    · split at h
      · split at h <;> cases h
        exact ⟨trivial, rfl⟩
      · cases h
        exact ⟨trivial, rfl⟩
  | afterLess =>
    simp only [step, hexStep] at h
    split at h
    · cases h
    · split at h <;> cases h
  | afterGreater =>
    simp only [step] at h
    split at h
    · cases h
    · split at h <;> cases h
      exact ⟨trivial, rfl⟩
  | hex =>
    simp only [step, hexStep] at h
    split at h <;> cases h
  | string text depth escape => exact absurd h (stringStep_ne_finish text depth b escape t)

/-! ### Which tokens look past their end -/

/-- What the bytes taken so far tell about the scanner. -/
def Shaped (own : List UInt8) : Scanner → Prop
  | .start => own = []
  | .comment _ afterReturn => ¬ [0x0D, 0x0A] <:+ own ∧ (afterReturn = true ↔ [0x0D] <:+ own)
  | .word _ | .number _ | .afterGreater => ∃ first more, own = first :: more ∧ [first] ∉ Token.lone
  | _ => True

theorem shaped_begin {next : Scanner} (h : begin o b = .advance next) : Shaped [b] next := by
  unfold begin at h
  split at h
  · cases h; trivial
  split at h
  · next hb => cases h; subst hb; exact ⟨by decide, by decide⟩
  split at h
  · cases h; trivial
  split at h
  · cases h; trivial
  split at h
  · next hb => cases h; subst hb; exact ⟨_, _, rfl, by decide⟩
  iterate 2
    split at h
    · cases h
  split at h
  · cases h; trivial
  split at h
  · next hb =>
    cases h
    refine ⟨_, _, rfl, fun hm => ?_⟩
    simp only [Token.lone, List.mem_cons, List.cons.injEq, and_true, List.not_mem_nil,
      or_false] at hm
    rcases hm with rfl | rfl | rfl | rfl <;> cases hb
  split at h
  · cases h
  · next hb =>
    cases h
    exact ⟨_, _, rfl, by simpa [Token.lone] using hb⟩

theorem return_suffix : [0x0D] <:+ own ++ [b] ↔ b = 0x0D := by
  rw [← List.reverse_prefix]
  simp [eq_comm]

theorem lineEnd_suffix : [0x0D, 0x0A] <:+ own ++ [b] ↔ b = 0x0A ∧ [0x0D] <:+ own := by
  rw [← List.reverse_prefix, ← List.reverse_prefix]
  simp [eq_comm]

/-- A string goes on as a string. -/
theorem shaped_plainStep {next : Scanner} {text : Array UInt8} {depth : Nat} {afterReturn : Bool}
    (h : plainStep o text depth afterReturn b = .advance next) : Shaped own next := by
  unfold plainStep at h
  iterate 2
    split at h
    · cases h; trivial
  split at h
  · cases depth <;> cases h
    trivial
  iterate 2
    split at h
    · cases h; trivial
  cases h
  trivial

theorem shaped_stringStep {next : Scanner} {text : Array UInt8} {depth : Nat} {escape : Escape}
    (h : stringStep o text depth b escape = .advance next) : Shaped own next := by
  cases escape with
  | plain afterReturn => exact shaped_plainStep h
  | backslash =>
    simp only [stringStep] at h
    split at h <;> cases h <;> trivial
  | octal value digits =>
    simp only [stringStep] at h
    split at h
    · split at h <;> cases h <;> trivial
    · exact shaped_plainStep h

theorem shaped_step {next : Scanner} (hs : Shaped own s) (h : s.step o b = .advance next) :
    Shaped (own ++ [b]) next := by
  cases s with
  | start =>
    obtain rfl : own = [] := hs
    exact shaped_begin h
  | comment text afterReturn =>
    obtain ⟨hopen, hreturn⟩ := hs
    simp only [step, commentStep] at h
    split at h
    · cases h
    · next hlf =>
      cases h
      refine ⟨fun hend => hlf ?_, by rw [return_suffix, beq_iff_eq]⟩
      obtain ⟨hb, hr⟩ := lineEnd_suffix.mp hend
      exact ⟨hb, hreturn.mpr hr⟩
  | word text =>
    obtain ⟨first, more, rfl, hf⟩ := hs
    simp only [step] at h
    split at h <;> cases h
    exact ⟨first, more ++ [b], rfl, hf⟩
  | number text =>
    obtain ⟨first, more, rfl, hf⟩ := hs
    simp only [step, numberStep] at h
    split at h
    · cases h
      exact ⟨first, more ++ [b], rfl, hf⟩
    · split at h
      · split at h <;> cases h
        exact ⟨first, more ++ [b], rfl, hf⟩
      · cases h
  | afterGreater =>
    obtain ⟨first, more, rfl, hf⟩ := hs
    simp only [step] at h
    split at h
    · cases h
    · split at h <;> cases h
      exact ⟨first, more ++ [b], rfl, hf⟩
  | blank | «variable» | hex =>
    simp only [step, hexStep] at h
    split at h <;> cases h
    trivial
  | afterLess =>
    simp only [step, hexStep] at h
    split at h
    · cases h
    · split at h <;> cases h
      trivial
  | string text depth escape => exact shaped_stringStep h

theorem Reached.shaped (h : Reached o own s) : Shaped own s := by
  induction h with
  | start => rfl
  | advance _ hs ih => exact shaped_step ih hs

theorem Shaped.notMem_lone {first : UInt8} {more : List UInt8} (h : [first] ∉ Token.lone) :
    first :: more ∉ Token.lone := by
  intro hm
  have hlength : ∀ own ∈ Token.lone, own.length = 1 := by decide
  obtain rfl : more = [] := by simpa using hlength _ hm
  exact h hm

theorem looksPast_wordToken (text : Array UInt8) {u : Bool} (h : own ∉ Token.lone) :
    (wordToken text).LooksPast own u := by
  unfold wordToken
  split
  · trivial
  · split
    · trivial
    · exact h

theorem looksPast_numberToken (text : Array UInt8) {u : Bool} (h : own ∉ Token.lone) :
    (numberToken text).LooksPast own u := by
  unfold numberToken
  split
  · split
    · trivial
    · exact h
  · exact h

/-- A token that has not ended by itself looks at the byte or the end of the input that ends it. -/
theorem Reached.looksPast_atEnd (h : Reached o own s) :
    (s.atEnd o).1.LooksPast own (s.atEnd o).2 := by
  have hshaped := h.shaped
  cases s with
  | start | blank | «variable» => trivial
  | comment text afterReturn => exact hshaped.1
  | word text =>
    obtain ⟨first, more, rfl, hf⟩ := hshaped
    exact looksPast_wordToken text (Shaped.notMem_lone hf)
  | number text =>
    obtain ⟨first, more, rfl, hf⟩ := hshaped
    exact looksPast_numberToken text (Shaped.notMem_lone hf)
  | afterGreater =>
    obtain ⟨first, more, rfl, hf⟩ := hshaped
    exact looksPast_wordToken _ (Shaped.notMem_lone hf)
  | afterLess | hex => exact rfl
  | string text depth escape => cases escape <;> exact rfl

/-- A delimiter on its own is a keyword whatever is kept of it. -/
theorem not_looksPast_delimiter (h : b = 0x23 ∨ b = 0x7B ∨ b = 0x7D ∨ b = 0x29) :
    ¬ (wordToken (keep o #[] b)).LooksPast [b] false := by
  have hlone : [b] ∈ Token.lone := by rcases h with rfl | rfl | rfl | rfl <;> decide
  have hkeyword : wordToken (keep o #[] b) = .keyword (Utf8.decodeLossy (keep o #[] b).toList) := by
    unfold keep
    split
    · rcases h with rfl | rfl | rfl | rfl <;> rfl
    · rfl
  rw [hkeyword]
  exact fun hnot => hnot hlone

theorem not_looksPast_begin (h : begin o b = .finishAfter t) : ¬ t.LooksPast [b] false := by
  unfold begin at h
  iterate 5
    split at h
    · cases h
  iterate 2
    split at h
    · cases h; exact id
  iterate 2
    split at h
    · cases h
  split at h
  · next hb => cases h; exact not_looksPast_delimiter hb
  · cases h

theorem not_looksPast_plainStep {text : Array UInt8} {depth : Nat} {afterReturn : Bool}
    (h : plainStep o text depth afterReturn b = .finishAfter t) : ¬ t.LooksPast own false := by
  unfold plainStep at h
  iterate 2
    split at h
    · cases h
  split at h
  · cases depth <;> cases h
    exact Bool.false_ne_true
  iterate 2
    split at h
    · cases h
  cases h

theorem not_looksPast_stringStep {text : Array UInt8} {depth : Nat} {escape : Escape}
    (h : stringStep o text depth b escape = .finishAfter t) : ¬ t.LooksPast own false := by
  cases escape with
  | plain afterReturn => exact not_looksPast_plainStep h
  | backslash =>
    simp only [stringStep] at h
    split at h <;> cases h
  | octal value digits =>
    simp only [stringStep] at h
    split at h
    · split at h <;> cases h
    · exact not_looksPast_plainStep h

/-- A token that ends with a byte of its own does not look past it. -/
theorem Reached.not_looksPast (h : Reached o own s) (hs : s.step o b = .finishAfter t) :
    ¬ t.LooksPast (own ++ [b]) false := by
  have hshaped := h.shaped
  cases s with
  | start =>
    obtain rfl : own = [] := hshaped
    exact not_looksPast_begin hs
  | comment text afterReturn =>
    simp only [step, commentStep] at hs
    split at hs
    · next hb =>
      cases hs
      exact fun hopen => hopen (lineEnd_suffix.mpr ⟨hb.1, hshaped.2.mp hb.2⟩)
    · cases hs
  | blank | word | «variable» =>
    simp only [step] at hs
    split at hs <;> cases hs
  | number =>
    simp only [step, numberStep] at hs
    split at hs
    · cases hs
    · split at hs
      · split at hs <;> cases hs
      · cases hs
  | afterGreater =>
    simp only [step] at hs
    split at hs
    · cases hs
      exact id
    · split at hs <;> cases hs
  | hex text =>
    simp only [step, hexStep] at hs
    split at hs <;> cases hs
    exact Bool.false_ne_true
  | afterLess =>
    simp only [step, hexStep] at hs
    split at hs
    · cases hs
      exact id
    · split at hs <;> cases hs
      exact Bool.false_ne_true
  | string text depth escape => exact not_looksPast_stringStep hs

end Scanner

/-- A scan looks at the byte behind its token, or at the end of the input there, if and only if the
token is of a kind that could have gone on. -/
theorem looksPast_scan (o : LexerOptions) (bytes : List UInt8) :
    (scan o bytes).looksPast = true ↔
      (scan o bytes).token.LooksPast (bytes.take (scan o bytes).length)
        (scan o bytes).unterminated := by
  have h := Scanner.ends_scan o bytes
  generalize scan o bytes = s at h
  cases h with
  | atEnd reached =>
    rw [List.take_length]
    exact iff_of_true rfl reached.looksPast_atEnd
  | before reached step =>
    obtain ⟨-, he⟩ := Scanner.loose_of_finish step
    have hlooks := reached.looksPast_atEnd
    rw [he] at hlooks
    rw [List.take_left]
    exact iff_of_true rfl hlooks
  | @after own rest s b t reached step =>
    have htake : (own ++ b :: rest).take (own.length + 1) = own ++ [b] := by
      rw [List.take_length_add_append]
      rfl
    rw [htake]
    exact iff_of_false Bool.false_ne_true (reached.not_looksPast step)

namespace Lexer

/-- The bytes of the token that is read next. -/
def taken (lx : Lexer) : List UInt8 := lx.cursor.ahead.take (lx.read.2.position - lx.position)

variable {lx : Lexer}

theorem read_complete (hc : lx.ending = .complete) :
    lx.read = (.ok (scan lx.options lx.cursor.ahead).token,
      { lx.after (scan lx.options lx.cursor.ahead) with
        unterminated := (scan lx.options lx.cursor.ahead).unterminated }) := by
  simp [read, hc, Ending.met?]

theorem taken_complete (hc : lx.ending = .complete) :
    lx.taken = lx.cursor.ahead.take (scan lx.options lx.cursor.ahead).length := by
  simp [taken, read_complete hc, position, after]

end Lexer

end PageScript
