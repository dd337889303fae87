import PageScript.Proofs.SideBySide
import PageScript.Proofs.TextLimits
import PageScript.Proofs.TokenEnds

/-!
# Layout

Blanks may be put wherever a token ends, unless the end of the input cuts that token off. The lexer
reads the same significant tokens, and so the reader tells of the same statements and errors.
-/
namespace PageScript

section Blanks

variable {o : LexerOptions} {a b w : List UInt8} {c : UInt8}

theorem significant_blanks (hw : ∀ c ∈ w, Byte.isBlank c) :
    significant o (w ++ b) = significant o b := by
  induction w with
  | nil => rfl
  | cons c w ih =>
    obtain ⟨hc, hw⟩ := List.forall_mem_cons.mp hw
    rw [List.cons_append, significant_blank hc, ih hw]

theorem significant_dropBlanks (bytes : List UInt8) :
    significant o (bytes.dropWhile Byte.isBlank) = significant o bytes := by
  have hblanks : ∀ c ∈ bytes.takeWhile Byte.isBlank, Byte.isBlank c := fun c hc =>
    List.mem_takeWhile_imp hc
  conv_rhs => rw [← List.takeWhile_append_dropWhile (p := Byte.isBlank) (l := bytes)]
  rw [significant_blanks hblanks]

theorem significant_scan {bytes : List UInt8} (h : bytes ≠ []) :
    significant o bytes = if (scan o bytes).token.isTrivia then significant o (scan o bytes).rest
      else ((scan o bytes).token, (scan o bytes).unterminated) ::
        significant o (scan o bytes).rest := by
  obtain ⟨c, rest, rfl⟩ := List.exists_cons_of_ne_nil h
  exact significant_cons

namespace Scanner

variable {own : List UInt8} {s : Scanner} {t : Token}

/-- A blank ends a token that has no last byte of its own, as the end of the input would. -/
theorem step_of_blank (hs : s.Loose) (hblank : s ≠ .blank) (hc : Byte.isBlank c) :
    s.step o c = .finish (s.atEnd o).1 := by
  obtain ⟨hregular, hword, hdigit, hpoint⟩ := ends_of_blank hc
  have hgreater : c ≠ 0x3E := by
    rintro rfl
    cases hc
  cases s with
  | blank => exact absurd rfl hblank
  | word text => simp [step, hregular, atEnd]
  | «variable» text => simp [step, hword, atEnd]
  | number text => simp [step, numberStep, hdigit, hpoint, atEnd]
  | afterGreater => simp [step, hgreater, hc, atEnd]
  | start | comment | afterLess | hex | string => exact hs.elim

/-- The end of the input ends a token as a blank would, or cuts it off. -/
theorem Reached.loose_or_cutOff (h : Reached o own s) (hown : own ≠ []) :
    s.Loose ∧ (s.atEnd o).2 = false ∨ (s.atEnd o).1.CutOff own (s.atEnd o).2 := by
  have hshaped := h.shaped
  cases s with
  | start => exact absurd hshaped hown
  | comment text afterReturn => exact .inr hshaped.1
  | afterLess | hex => exact .inr rfl
  | string text depth escape => cases escape <;> exact .inr rfl
  | blank | word | number | «variable» | afterGreater => exact .inl ⟨trivial, rfl⟩

/-- Blanks are no part of a token that they end, and go with blanks that they follow. -/
theorem Reached.significant_blanks (h : Reached o a s) (ha : a ≠ []) (hs : s.Loose)
    (hw : ∀ d ∈ c :: w, Byte.isBlank d) : significant o (a ++ (c :: w ++ b)) =
      if (s.atEnd o).1.isTrivia then significant o b
      else ((s.atEnd o).1, false) :: significant o b := by
  rw [significant_scan (List.append_ne_nil_of_left_ne_nil ha _), h.scan]
  -- Blanks take those behind them as well; any other token ends before the first one.
  by_cases hblank : s = .blank
  · subst hblank
    obtain ⟨htoken, hrest⟩ := run_blank (o := o) a.length (c :: w ++ b)
    rw [htoken, hrest, significant_dropBlanks, PageScript.significant_blanks hw]
    rfl
  · have hstep := step_of_blank (o := o) hs hblank (hw c List.mem_cons_self)
    rw [List.cons_append, run_finish hstep, ← List.cons_append, PageScript.significant_blanks hw]

theorem Reached.scan_finishAfter {rest : List UInt8} (h : Reached o own s)
    (hs : s.step o c = .finishAfter t) :
    PageScript.scan o (own ++ [c] ++ rest) = ⟨t, false, own.length + 1, rest, false⟩ := by
  rw [List.append_assoc, h.scan, List.singleton_append, run, hs]

end Scanner

/-- Blanks behind the first token, unless it is cut off there. -/
theorem significant_insert (ha : a ≠ []) (hlength : (scan o (a ++ b)).length = a.length)
    (hwhole : ¬ (scan o (a ++ b)).token.CutOff a (scan o (a ++ b)).unterminated)
    (hw : ∀ c ∈ w, Byte.isBlank c) : significant o (a ++ (w ++ b)) = significant o (a ++ b) := by
  cases w with
  | nil => rfl
  | cons c w =>
    have hbytes : a ++ b ≠ [] := List.append_ne_nil_of_left_ne_nil ha _
    have hends := Scanner.ends_scan o (a ++ b)
    rw [significant_scan hbytes]
    generalize scan o (a ++ b) = x at hlength hwhole hends ⊢
    generalize hab : a ++ b = bytes at hends
    cases hends with
    | atEnd reached =>
      obtain ⟨rfl, rfl⟩ : a = bytes ∧ b = [] :=
        List.append_inj (hab.trans (List.append_nil _).symm) hlength.symm
      obtain ⟨hs, hflag⟩ := (reached.loose_or_cutOff ha).resolve_right hwhole
      rw [reached.significant_blanks ha hs hw, hflag]
    | @before own rest s d t reached step =>
      obtain ⟨rfl, rfl⟩ : a = own ∧ b = d :: rest := List.append_inj hab hlength.symm
      obtain ⟨hs, hend⟩ := Scanner.loose_of_finish step
      rw [reached.significant_blanks ha hs hw, hend]
    | @after own rest s d t reached step =>
      have hab' : a ++ b = (own ++ [d]) ++ rest := by rw [hab, List.append_assoc]; rfl
      obtain ⟨rfl, rfl⟩ : a = own ++ [d] ∧ b = rest :=
        List.append_inj hab' (by rw [← hlength, List.length_append]; rfl)
      rw [significant_scan (List.append_ne_nil_of_left_ne_nil ha _), reached.scan_finishAfter step,
        significant_blanks hw]

theorem exists_before {own rest : List UInt8} (hab : a ++ b = own ++ c :: rest)
    (h : own.length < a.length) : ∃ more, a = own ++ c :: more := by
  obtain ⟨more, rfl⟩ : own <+: a :=
    List.prefix_of_prefix_length_le (List.prefix_append own (c :: rest))
      (hab ▸ List.prefix_append a b) (Nat.le_of_lt h)
  rw [List.append_assoc, List.append_cancel_left_eq] at hab
  cases more with
  | nil => simp at h
  | cons d more =>
    obtain rfl := (List.cons.inj hab).1
    exact ⟨more, rfl⟩

/-- A token that ends before some place does not depend on what is behind the place. -/
theorem scan_append_of_lt (h : (scan o (a ++ b)).length < a.length) (bytes : List UInt8) :
    scan o (a ++ bytes) =
      { scan o (a ++ b) with rest := a.drop (scan o (a ++ b)).length ++ bytes } := by
  have hends := Scanner.ends_scan o (a ++ b)
  generalize scan o (a ++ b) = x at h hends ⊢
  generalize hab : a ++ b = whole at hends
  cases hends with
  | @atEnd own s reached =>
    have hlength := congrArg List.length hab
    rw [List.length_append] at hlength
    dsimp only at h
    omega
  | @before own rest s d t reached step =>
    obtain ⟨more, rfl⟩ := exists_before hab h
    rw [List.append_assoc, List.drop_left, reached.scan, List.cons_append, Scanner.run, step]
  | @after own rest s d t reached step =>
    obtain ⟨more, rfl⟩ := exists_before hab (Nat.lt_of_succ_lt h)
    have hdrop : (own ++ [d] ++ more).drop (own.length + 1) = more :=
      List.drop_left' (List.length_append ..)
    rw [List.append_cons, List.append_assoc, reached.scan_finishAfter step, hdrop]

end Blanks

namespace Lexer

variable {lx : Lexer} {a b w : List UInt8}

/-- A token that is read from the lexer, other than the end of the input, ends at an offset, and the
end of the input does not cut it off. -/
def TokenEndsAt (lx : Lexer) (i : Nat) : Prop :=
  ∃ n t, (lx.reads n).read.1 = .ok t ∧ (lx.reads (n + 1)).position = i ∧ t ≠ .endOfInput ∧
    ¬ t.CutOff (lx.reads n).taken (lx.reads (n + 1)).unterminated

/-- The lexer after reads of `n` significant tokens. -/
def significantReads (lx : Lexer) : Nat → Lexer
  | 0 => lx
  | n + 1 => (lx.significantReads n).readSignificant.2

theorem reads_read (lx : Lexer) (n : Nat) : lx.read.2.reads n = lx.reads (n + 1) := by
  induction n with
  | zero => rfl
  | succ n ih => rw [reads, ih]; rfl

theorem position_read (lx : Lexer) :
    lx.read.2.position = lx.position + (scan lx.options lx.cursor.ahead).length := by
  simp only [read]
  split <;> rfl

theorem position_le_reads (lx : Lexer) (n : Nat) : lx.position ≤ (lx.reads n).position := by
  induction n with
  | zero => exact Nat.le_refl _
  | succ n ih =>
    rw [reads, position_read]
    exact Nat.le_trans ih (Nat.le_add_right _ _)

theorem position_lt_read {t : Token} (h : lx.read.1 = .ok t) (ht : t ≠ .endOfInput) :
    lx.position < lx.read.2.position := by
  have hlt := remaining_read_lt h ht
  have hsum := length_rest_scan lx.options lx.cursor.ahead
  rw [remaining_read, remaining] at hlt
  rw [position_read]
  omega

/-- Blanks behind a token that is read later: the tokens up to that one stay as they are. -/
theorem significant_insert_of_reads (hc : lx.ending = .complete)
    (hahead : lx.cursor.ahead = a ++ b) (hw : ∀ c ∈ w, Byte.isBlank c)
    (h : lx.TokenEndsAt (lx.position + a.length)) :
    significant lx.options (a ++ (w ++ b)) = significant lx.options (a ++ b) := by
  obtain ⟨n, t, ht, hplace, hend, hwhole⟩ := h
  induction n generalizing lx a with
  | zero =>
    have hlt : lx.position < lx.read.2.position := position_lt_read ht hend
    change lx.read.2.position = _ at hplace
    rw [hplace] at hlt
    rw [position_read, hahead, Nat.add_left_cancel_iff] at hplace
    have ha : a ≠ [] := fun hnil => by simp [hnil] at hlt
    change lx.read.1 = _ at ht
    change ¬ t.CutOff lx.taken lx.read.2.unterminated at hwhole
    rw [taken_complete hc, read_complete hc, hahead, hplace, List.take_left] at hwhole
    rw [read_complete hc, hahead] at ht
    obtain rfl := Except.ok.inj ht
    exact significant_insert ha hplace hwhole hw
  | succ n ih =>
    -- The first token ends before the place, and with it all that the first read looks at.
    have hread := read_complete hc
    rw [hahead] at hread
    have hlt : (scan lx.options (a ++ b)).length < a.length := by
      have hle := position_le_reads lx.read.2 n
      have hlast := position_lt_read ht hend
      change _ < (lx.reads (n + 1 + 1)).position at hlast
      rw [hplace, ← reads_read] at hlast
      rw [position_read, hahead] at hle
      omega
    have hrest := congrArg Scan.rest (scan_append_of_lt hlt b)
    have hnext : lx.read.2.ending = .complete := by rw [hread]; exact hc
    have hahead' : lx.read.2.cursor.ahead = a.drop (scan lx.options (a ++ b)).length ++ b := by
      rw [hread]
      exact hrest
    rw [← reads_read] at ht
    rw [← reads_read, ← reads_read] at hwhole
    have hplace' : (lx.read.2.reads (n + 1)).position =
        lx.read.2.position + (a.drop (scan lx.options (a ++ b)).length).length := by
      rw [reads_read, hplace, position_read, hahead, List.length_drop]
      omega
    have hmore := ih hnext hahead' ht hplace' hwhole
    rw [options_read] at hmore
    have ha : a ≠ [] := List.ne_nil_of_length_pos (Nat.zero_lt_of_lt hlt)
    rw [significant_scan (List.append_ne_nil_of_left_ne_nil ha _),
      significant_scan (List.append_ne_nil_of_left_ne_nil ha _), scan_append_of_lt hlt (w ++ b),
      hmore, hrest]

/-- Lexers with the same tokens ahead read them one by one. -/
theorem significantReads_beside {lx' : Lexer} (h : lx.Beside False lx') (n : Nat) :
    (lx.significantReads n).Beside False (lx'.significantReads n) := by
  induction n with
  | zero => exact h
  | succ n ih =>
    rcases readSignificant_beside ih with ⟨t, q, q', hread, hread', hq, -⟩ | ⟨hcut, -⟩
    · rw [Lexer.significantReads, Lexer.significantReads, hread, hread']
      exact hq
    · exact hcut.elim

end Lexer

/-- Wherever a token ends, other than the end of the input and strings and comments cut off by it,
blanks make no difference to the significant tokens, nor to the statements and the reason for which
the reading fails. An error may only give another offset. -/
theorem blanks_between_tokens (o : LexerOptions) {a b w : List UInt8}
    (hw : ∀ c ∈ w, Byte.isBlank c) (h : (Lexer.start o .complete (a ++ b)).TokenEndsAt a.length) :
    let whole := Lexer.start o .complete (a ++ b)
    let spaced := Lexer.start o .complete (a ++ w ++ b)
    (∀ n, (spaced.significantReads n).readSignificant.1 =
          (whole.significantReads n).readSignificant.1 ∧
        (spaced.significantReads (n + 1)).unterminated =
          (whole.significantReads (n + 1)).unterminated) ∧
      (Reader.ofLexer spaced).document.map (Except.mapError StatementError.cause) =
        (Reader.ofLexer whole).document.map (Except.mapError StatementError.cause) := by
  intro whole spaced
  have hsame : spaced.upcoming = whole.upcoming := by
    have hahead : a.length = whole.position + a.length := (Nat.zero_add _).symm
    rw [hahead] at h
    have hinsert := Lexer.significant_insert_of_reads rfl rfl hw h
    rw [← List.append_assoc] at hinsert
    exact hinsert
  have hbeside : spaced.Beside False whole := ⟨rfl, rfl, hsame ▸ .refl _⟩
  refine ⟨fun n => ?_, ?_⟩
  · rcases Lexer.readSignificant_beside (Lexer.significantReads_beside hbeside n) with
      ⟨t, q, q', hread, hread', -, hflag⟩ | ⟨hcut, -⟩
    · rw [Lexer.significantReads, Lexer.significantReads, hread, hread']
      exact ⟨rfl, hflag⟩
    · exact hcut.elim
  · have hreaders : (Reader.ofLexer spaced).Beside False (Reader.ofLexer whole) := ⟨rfl, hbeside⟩
    obtain ⟨statements, ⟨-, hd, hd'⟩ | ⟨e, e', hd, hd', hcause⟩⟩ :=
      Reader.documents_beside hreaders
    · rw [hd, hd']
    · have hcause : e.cause = e'.cause := hcause.resolve_left id
      rw [hd, hd', List.map_append, List.map_append, List.map_singleton, List.map_singleton,
        Except.mapError, Except.mapError, hcause]

/-- In `/A/B gs`, blanks behind the first name, which ends where the second begins. -/
theorem blanks_between_names :
    let a : List UInt8 := [0x2F, 0x41]
    let b : List UInt8 := [0x2F, 0x42, 0x20, 0x67, 0x73]
    let w : List UInt8 := [0x20, 0x0D, 0x0A]
    let whole := Lexer.start {} .complete (a ++ b)
    let spaced := Lexer.start {} .complete (a ++ w ++ b)
    (∀ c ∈ w, Byte.isBlank c) ∧ whole.TokenEndsAt a.length ∧
      (∀ n, (spaced.significantReads n).readSignificant.1 =
            (whole.significantReads n).readSignificant.1 ∧
          (spaced.significantReads (n + 1)).unterminated =
            (whole.significantReads (n + 1)).unterminated) ∧
        (Reader.ofLexer spaced).document.map (Except.mapError StatementError.cause) =
          (Reader.ofLexer whole).document.map (Except.mapError StatementError.cause) := by
  intro a b w whole spaced
  have hw : ∀ c ∈ w, Byte.isBlank c := by decide +kernel
  have hread : whole.read.1 = .ok (.name (Utf8.decodeLossy a)) := rfl
  have hends : whole.TokenEndsAt a.length := ⟨0, _, hread, rfl, nofun, id⟩
  exact ⟨hw, hends, blanks_between_tokens {} hw hends⟩

end PageScript
