import PageScript.Proofs.IndexedLexer
import PageScript.Proofs.Spelling

/-!
# Significant tokens

Whoever reads a script sees its tokens without the blanks and comments between them. Up to its
place, a lexer is as good as the list of those that are still to come.
-/
namespace PageScript

namespace Scanner

variable {o : LexerOptions}

/-- The token is not taken for the end of the input, and the scanner does not begin anew. -/
def Move.Proper : Move → Prop
  | .advance s => s ≠ .start
  | .finish t | .finishAfter t => t ≠ .endOfInput

@[simp] theorem proper_advance {s : Scanner} : (Move.advance s).Proper ↔ s ≠ .start := Iff.rfl

@[simp] theorem proper_finish {t : Token} : (Move.finish t).Proper ↔ t ≠ .endOfInput := Iff.rfl

@[simp] theorem proper_finishAfter {t : Token} :
    (Move.finishAfter t).Proper ↔ t ≠ .endOfInput := Iff.rfl

@[simp] theorem wordToken_ne_endOfInput (text : Array UInt8) : wordToken text ≠ .endOfInput := by
  unfold wordToken
  split
  · simp
  · split <;> simp

@[simp] theorem numberToken_ne_endOfInput (text : Array UInt8) :
    numberToken text ≠ .endOfInput := by
  unfold numberToken
  split
  · split <;> simp
  · simp

theorem proper_plainStep (text : Array UInt8) (depth : Nat) (afterReturn : Bool) (b : UInt8) :
    (plainStep o text depth afterReturn b).Proper := by
  cases depth <;> simp [plainStep, apply_ite Move.Proper]

theorem proper_step (s : Scanner) (b : UInt8) : (s.step o b).Proper := by
  cases s with
  | start => simp [step, begin, apply_ite Move.Proper]
  | comment => simp [step, commentStep, apply_ite Move.Proper, lineToken]
  | number => simp [step, numberStep, apply_ite Move.Proper]
  | blank | word => simp [step, apply_ite Move.Proper]
  | «variable» => simp [step, apply_ite Move.Proper, variableToken]
  | afterLess | hex => simp [step, hexStep, apply_ite Move.Proper, hexToken]
  | afterGreater => simp [step, apply_ite Move.Proper]
  | string text depth escape =>
    cases escape <;>
      simp [step, stringStep, apply_ite Move.Proper, proper_plainStep]

theorem atEnd_ne_endOfInput {s : Scanner} (h : s ≠ .start) : (s.atEnd o).1 ≠ .endOfInput := by
  cases s with
  | start => exact absurd rfl h
  | string text depth escape => cases escape <;> simp [atEnd]
  | _ => simp [atEnd, variableToken, hexToken]

theorem run_ne_endOfInput {s : Scanner} (h : s ≠ .start) (n : Nat) (bytes : List UInt8) :
    (run o s n bytes).token ≠ .endOfInput := by
  induction bytes generalizing s n with
  | nil => exact atEnd_ne_endOfInput h
  | cons b rest ih =>
    have hproper := proper_step (o := o) s b
    rw [run]
    split <;> next hs =>
      rw [hs] at hproper
      first | exact ih hproper _ | exact hproper

/-- Blanks are one token, however many there are. -/
theorem run_blank (n : Nat) (bytes : List UInt8) : (run o .blank n bytes).token = .blank ∧
    (run o .blank n bytes).rest = bytes.dropWhile Byte.isBlank := by
  induction bytes generalizing n with
  | nil => exact ⟨rfl, rfl⟩
  | cons b rest ih =>
    rw [List.dropWhile_cons]
    by_cases hb : Byte.isBlank b = true
    · have hstep : Scanner.blank.step o b = .advance .blank := if_pos hb
      rw [run_advance hstep, if_pos hb]
      exact ih (n + 1)
    · have hstep : Scanner.blank.step o b = .finish .blank := if_neg hb
      rw [run_finish hstep, if_neg hb]
      exact ⟨rfl, rfl⟩

end Scanner

section Bytes

variable {o : LexerOptions} {t : Token} {b : UInt8} {rest : List UInt8}

theorem scan_ne_endOfInput : (scan o (b :: rest)).token ≠ .endOfInput := by
  have hproper := Scanner.proper_step (o := o) .start b
  rw [scan, Scanner.run]
  split <;> next hs =>
    rw [hs] at hproper
    first | exact Scanner.run_ne_endOfInput hproper _ _ | exact hproper

theorem length_scan_rest_lt : (scan o (b :: rest)).rest.length < (b :: rest).length := by
  have hpos := scan_length_pos o b rest
  have hsum := length_rest_scan o (b :: rest)
  omega

theorem scan_blank (hb : Byte.isBlank b) : (scan o (b :: rest)).token = .blank ∧
    (scan o (b :: rest)).rest = rest.dropWhile Byte.isBlank := by
  have hstep : Scanner.start.step o b = .advance .blank := if_pos hb
  rw [scan, Scanner.run_advance hstep]
  exact Scanner.run_blank _ rest

/-- The tokens of a script that are neither blanks nor comments, each with whether the end of the
input cut it off. -/
def significant (o : LexerOptions) : List UInt8 → List (Token × Bool)
  | [] => []
  | b :: rest =>
    let s := scan o (b :: rest)
    if s.token.isTrivia then significant o s.rest
    else (s.token, s.unterminated) :: significant o s.rest
termination_by bytes => bytes.length
decreasing_by all_goals exact length_scan_rest_lt

@[simp] theorem significant_nil : significant o [] = [] := by rw [significant]

theorem significant_cons : significant o (b :: rest) =
    if (scan o (b :: rest)).token.isTrivia then significant o (scan o (b :: rest)).rest
    else ((scan o (b :: rest)).token, (scan o (b :: rest)).unterminated) ::
      significant o (scan o (b :: rest)).rest := by
  rw [significant]

theorem significant_blank (hb : Byte.isBlank b) :
    significant o (b :: rest) = significant o rest := by
  have hdrop {b : UInt8} {rest : List UInt8} (hb : Byte.isBlank b) :
      significant o (b :: rest) = significant o (rest.dropWhile Byte.isBlank) := by
    obtain ⟨htoken, hrest⟩ := @scan_blank o b rest hb
    simp [significant_cons, htoken, hrest, Token.isTrivia]
  rw [hdrop hb]
  cases rest with
  | nil => rfl
  | cons c rest =>
    rw [List.dropWhile_cons]
    split
    · next hc => rw [hdrop hc]
    · rfl

theorem significant_spell (ht : t.Spellable o) (hb : Byte.isBlank b) :
    significant o (t.spell ++ b :: rest) = (t, false) :: significant o rest := by
  obtain ⟨looks, hscan⟩ := @scan_spell o t b rest ht hb
  have hplain : t.isTrivia = false := by
    cases t <;> first | rfl | exact ht.elim
  obtain ⟨c, more, hbytes⟩ := List.exists_cons_of_ne_nil
    (show t.spell ++ b :: rest ≠ [] by simp)
  rw [hbytes] at hscan ⊢
  rw [significant_cons, hscan]
  simp [hplain, significant_blank hb]

end Bytes

namespace Lexer

variable {lx : Lexer}

/-- The significant tokens ahead. -/
def upcoming (lx : Lexer) : List (Token × Bool) := significant lx.options lx.cursor.ahead

/-- The next significant token, which is the end of the input where there is no other. -/
def nextOf (tokens : List (Token × Bool)) : Token × Bool := tokens.headD (.endOfInput, false)

/-- Reading a token of a complete input passes over it, which counts if it is significant. -/
theorem upcoming_of_read {next : Lexer} {t : Token} (hc : lx.ending = .complete)
    (h : lx.read = (.ok t, next)) :
    (∃ place, next = { lx with cursor := place, unterminated := next.unterminated }) ∧
      (t.isTrivia → next.upcoming = lx.upcoming) ∧
      (¬ t.isTrivia → (t, next.unterminated) = nextOf lx.upcoming ∧
        next.upcoming = lx.upcoming.tail) := by
  have hread : lx.read = (.ok (scan lx.options lx.cursor.ahead).token,
      { lx.after (scan lx.options lx.cursor.ahead) with
        unterminated := (scan lx.options lx.cursor.ahead).unterminated }) := by
    simp [read, hc, Ending.met?]
  obtain ⟨rfl, rfl⟩ : (scan lx.options lx.cursor.ahead).token = t ∧ _ = next := by
    simpa using hread.symm.trans h
  refine ⟨⟨_, rfl⟩, ?_⟩
  simp only [upcoming, after]
  cases lx.cursor.ahead with
  | nil => simp [scan_nil, Token.isTrivia, nextOf]
  | cons b rest =>
    rw [significant_cons]
    constructor <;> intro ht <;> simp [ht, nextOf]

/-- Reading a significant token takes it off those ahead and changes nothing else. -/
theorem readSignificant_complete (hc : lx.ending = .complete) : ∃ place,
    lx.readSignificant = (.ok (nextOf lx.upcoming).1,
      { lx with cursor := place, unterminated := (nextOf lx.upcoming).2 }) ∧
    significant lx.options place.ahead = lx.upcoming.tail := by
  fun_induction readSignificant lx with
  | case1 lx e next h => simp [read, hc, Ending.met?] at h
  | case2 lx t next h ht _ ih =>
    obtain ⟨⟨place, hnext⟩, hsame, -⟩ := upcoming_of_read hc h
    generalize next.unterminated = u at hnext
    subst hnext
    rw [hsame ht] at ih
    exact ih hc
  | case3 lx t next h ht =>
    obtain ⟨⟨place, hnext⟩, -, hthis⟩ := upcoming_of_read hc h
    obtain ⟨htoken, htail⟩ := hthis ht
    rw [← htoken, ← htail, hnext]
    exact ⟨place, rfl, rfl⟩

theorem restore_save (place : Cursor) (u : Bool) :
    ({ lx.save with cursor := place, unterminated := u } : Lexer).restore =
      { lx with unterminated := u } := rfl

theorem peekSignificant_complete (hc : lx.ending = .complete) :
    lx.peekSignificant = (.ok (nextOf lx.upcoming).1,
      { lx with unterminated := (nextOf lx.upcoming).2 }) := by
  obtain ⟨place, hread, -⟩ := @readSignificant_complete lx.save hc
  rw [peekSignificant, hread, restore_save]
  rfl

section Feed

variable {σ β : Type} {step : σ → Token → Bool → Except β σ} {atEnd : σ → β} {s : σ}

/-- A feed over tokens: its result, the state in which it stopped and the tokens behind. -/
def feedOver (step : σ → Token → Bool → Except β σ) (atEnd : σ → β) (s : σ) :
    List (Token × Bool) → β × σ × List (Token × Bool)
  | [] => (atEnd s, s, [])
  | (t, u) :: rest =>
    match step s t u with
    | .error b => (b, s, rest)
    | .ok s' => feedOver step atEnd s' rest

theorem ne_endOfInput_of_mem_significant {o : LexerOptions} {bytes : List UInt8} {t : Token}
    {u : Bool} (h : (t, u) ∈ significant o bytes) : t ≠ .endOfInput := by
  fun_induction significant o bytes with
  | case1 => simp at h
  | case2 b rest s ht ih => exact ih h
  | case3 b rest s ht ih =>
    rcases List.mem_cons.mp h with heq | hmem
    · cases heq
      exact scan_ne_endOfInput
    · exact ih hmem

theorem upcoming_eq_nil (h : (nextOf lx.upcoming).1 = .endOfInput) : lx.upcoming = [] := by
  cases hu : lx.upcoming with
  | nil => rfl
  | cons head tail =>
    rw [hu] at h
    have hmem : (head.1, head.2) ∈ lx.upcoming := by rw [hu]; exact List.mem_cons_self
    exact absurd h (ne_endOfInput_of_mem_significant hmem)

theorem readSignificant_some {next : Lexer} {t : Token} (hc : lx.ending = .complete)
    (h : lx.readSignificant = (.ok t, next)) (ht : t ≠ .endOfInput) : ∃ place u,
    next = { lx with cursor := place, unterminated := u } ∧
      lx.upcoming = (t, u) :: significant lx.options place.ahead := by
  obtain ⟨place, hread, hplace⟩ := readSignificant_complete hc
  obtain ⟨htoken, rfl⟩ : (nextOf lx.upcoming).1 = t ∧ _ = next := by
    simpa using hread.symm.trans h
  cases hu : lx.upcoming with
  | nil =>
    rw [hu] at htoken
    exact absurd htoken.symm ht
  | cons head tail =>
    obtain rfl : head.1 = t := by simpa [hu, nextOf] using htoken
    refine ⟨place, head.2, by simp [nextOf], ?_⟩
    rw [hplace, hu]
    rfl

/-- A feed from a complete input depends on the significant tokens ahead alone. -/
theorem feed_complete (step : σ → Token → Bool → Except β σ) (atEnd : σ → β) (s : σ)
    (hc : lx.ending = .complete) : ∃ place u,
    feed step atEnd s lx = (.ok (feedOver step atEnd s lx.upcoming).1,
      (feedOver step atEnd s lx.upcoming).2.1, { lx with cursor := place, unterminated := u }) ∧
    significant lx.options place.ahead = (feedOver step atEnd s lx.upcoming).2.2 ∧
    ((∀ e ∈ lx.upcoming, e.2 = false) → u = false) := by
  fun_induction feed step atEnd s lx with
  | case1 s lx e next h =>
    obtain ⟨place, hread, -⟩ := readSignificant_complete hc
    cases hread.symm.trans h
  | case2 s lx next h =>
    obtain ⟨place, hread, hplace⟩ := readSignificant_complete hc
    obtain ⟨hend, rfl⟩ : (nextOf lx.upcoming).1 = .endOfInput ∧ _ = next := by
      simpa using hread.symm.trans h
    rw [upcoming_eq_nil hend] at hplace ⊢
    exact ⟨_, _, rfl, hplace, fun _ => rfl⟩
  | case3 s lx t next h ht b hs =>
    obtain ⟨place, u, rfl, hu⟩ := readSignificant_some hc h ht
    rw [hu, feedOver, hs]
    exact ⟨place, u, rfl, rfl, fun hall => hall _ List.mem_cons_self⟩
  | case4 s lx t next h ht s' hs _ ih =>
    obtain ⟨place, u, rfl, hu⟩ := readSignificant_some hc h ht
    obtain ⟨place', u', hfeed, hplace', hflag⟩ := ih hc
    rw [hu, feedOver, hs]
    exact ⟨place', u', hfeed, hplace', fun hall =>
      hflag fun e he => hall e (List.mem_cons_of_mem _ he)⟩

end Feed

end Lexer

end PageScript
