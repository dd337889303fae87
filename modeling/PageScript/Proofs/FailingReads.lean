import PageScript.Proofs.Sightings
import PageScript.Proofs.Significant
import PageScript.Proofs.TextLimits
import PageScript.Proofs.TokenEnds
import PageScript.Reader.Declaration

/-!
# Inputs that fail

An input that fails behind some bytes gives the tokens of the whole script for as long as no read
has to look at a byte that did not come. From there on every read fails: a failure is never taken
for the end of the input, and no token is cut short. Looking ahead leaves the place and the saved
places as they are, whether it fails or not.
-/
namespace PageScript

/-- How many bytes a scan looks at, where the end of the input counts as one. -/
def Scan.reach (s : Scan) : Nat := s.length + s.looksPast.toNat

namespace Scanner

variable {o : LexerOptions} {s : Scanner}

/-- A scan looks at one more byte than has been taken, at least. -/
theorem lt_reach_run (o : LexerOptions) (s : Scanner) (n : Nat) (bytes : List UInt8) :
    n < (run o s n bytes).reach := by
  cases bytes with
  | nil => simp [run, Scan.reach]
  | cons b rest =>
    rw [run]
    split
    · next next hs =>
      have hle := le_length_run o next (n + 1) rest
      exact Nat.lt_of_lt_of_le hle (Nat.le_add_right _ _)
    · simp [Scan.reach]
    · simp [Scan.reach]

/-- Bytes that a scan does not look at do not matter to it. -/
theorem run_take {n m : Nat} {bytes : List UInt8} (hm : m ≤ bytes.length)
    (h : (run o s n bytes).reach ≤ n + m) : run o s n (bytes.take m) =
      { run o s n bytes with
        rest := (run o s n bytes).rest.take (n + m - (run o s n bytes).length) } := by
  induction bytes generalizing s n m with
  | nil =>
    have hlt := lt_reach_run o s n []
    simp only [List.length_nil] at hm
    omega
  | cons b rest ih =>
    cases m with
    | zero =>
      have hlt := lt_reach_run o s n (b :: rest)
      omega
    | succ m =>
      have hcount : n + (m + 1) = n + 1 + m := by omega
      rw [hcount] at h ⊢
      rw [List.take_succ_cons, run, run]
      rw [run] at h
      split
      · next next hs =>
        rw [hs] at h
        exact ih (Nat.le_of_succ_le_succ hm) h
      · next t hs =>
        have hrest : n + 1 + m - n = m + 1 := by omega
        simp only [hrest, List.take_succ_cons]
      · next t hs => simp only [Nat.add_sub_cancel_left]

/-- A scan that would look at a byte that is missing comes to the end of the input instead. -/
theorem rest_run_take {n m : Nat} {bytes : List UInt8} (h : n + m < (run o s n bytes).reach) :
    (run o s n (bytes.take m)).rest = [] ∧ (run o s n (bytes.take m)).looksPast = true := by
  induction bytes generalizing s n m with
  | nil =>
    rw [List.take_nil]
    exact ⟨rfl, rfl⟩
  | cons b rest ih =>
    cases m with
    | zero => exact ⟨rfl, rfl⟩
    | succ m =>
      have hcount : n + (m + 1) = n + 1 + m := by omega
      rw [List.take_succ_cons, run]
      rw [run] at h
      split
      · next next hs =>
        rw [hs] at h
        exact ih (by rwa [hcount] at h)
      · next t hs => simp only [hs, Scan.reach, Bool.toNat_true] at h; omega
      · next t hs => simp only [hs, Scan.reach, Bool.toNat_false] at h; omega

end Scanner

namespace Lexer

variable {lx whole failing : Lexer} {text : String} {n : Nat}

/-- The next read looks at an offset: at a byte of its token, or at what stands behind the token if
that has to be looked at. -/
def LooksAt (lx : Lexer) (i : Nat) : Prop :=
  lx.position ≤ i ∧ i < lx.read.2.position ∨
    i = lx.read.2.position ∧
      ∃ t, lx.read.1 = .ok t ∧ t.LooksPast lx.taken lx.read.2.unterminated

theorem looksAt_iff (hc : lx.ending = .complete) (i : Nat) : lx.LooksAt i ↔
    lx.position ≤ i ∧ i < lx.position + (scan lx.options lx.cursor.ahead).reach := by
  have hlooks := looksPast_scan lx.options lx.cursor.ahead
  rw [LooksAt, taken_complete hc, read_complete hc]
  simp only [Except.ok.injEq, exists_eq_left', ← hlooks, position, after, Scan.reach]
  cases (scan lx.options lx.cursor.ahead).looksPast with
  | false => simp
  | true => simp only [and_true, Bool.toNat_true]; omega

/-- A read stays within the first bytes if it looks at none behind them. -/
theorem within_iff (hc : lx.ending = .complete) : (∀ i, lx.LooksAt i → i < n) ↔
    lx.position + (scan lx.options lx.cursor.ahead).reach ≤ n := by
  have hpos := Scanner.lt_reach_run lx.options .start 0 lx.cursor.ahead
  constructor
  · intro h
    have hlast := h (lx.position + (scan lx.options lx.cursor.ahead).reach - 1)
      ((looksAt_iff hc _).mpr (by rw [scan]; omega))
    omega
  · intro h i hi
    have hi' := (looksAt_iff hc i).mp hi
    omega

/-- The failing lexer is at the place of the whole one, with as much ahead as has been delivered. -/
structure Shortened (text : String) (n : Nat) (whole failing : Lexer) : Prop where
  options : failing.options = whole.options
  complete : whole.ending = .complete
  fails : failing.ending = .failure text
  place : failing.cursor = ⟨whole.position, whole.cursor.ahead.take (n - whole.position)⟩
  delivered : whole.position ≤ n
  more : n ≤ whole.position + whole.remaining

theorem Shortened.ahead (h : Shortened text n whole failing) :
    n - whole.position ≤ whole.cursor.ahead.length := by
  have hmore := h.more
  rw [remaining] at hmore
  omega

theorem Shortened.scan_within (h : Shortened text n whole failing)
    (hn : whole.position + (scan whole.options whole.cursor.ahead).reach ≤ n) :
    scan failing.options failing.cursor.ahead =
      { scan whole.options whole.cursor.ahead with
        rest := (scan whole.options whole.cursor.ahead).rest.take
          (n - whole.position - (scan whole.options whole.cursor.ahead).length) } := by
  have hreach : (Scanner.run whole.options .start 0 whole.cursor.ahead).reach ≤
      0 + (n - whole.position) := by
    rw [scan] at hn
    omega
  have hrun := Scanner.run_take h.ahead hreach
  rw [h.options, h.place, scan, scan, hrun, Nat.zero_add]

/-- Within the bytes delivered there is a byte behind every token that looks past its end. -/
theorem Shortened.met (h : Shortened text n whole failing)
    (hn : whole.position + (scan whole.options whole.cursor.ahead).reach ≤ n) :
    failing.ending.met? (scan failing.options failing.cursor.ahead) = none := by
  rw [h.scan_within hn, h.fails]
  cases hlooks : (scan whole.options whole.cursor.ahead).looksPast with
  | false => simp [Ending.met?, hlooks]
  | true =>
    have hsum := length_rest_scan whole.options whole.cursor.ahead
    have hahead := h.ahead
    rw [Scan.reach, hlooks, Bool.toNat_true] at hn
    have hcount : 0 < n - whole.position - (scan whole.options whole.cursor.ahead).length := by
      omega
    have hrest : (scan whole.options whole.cursor.ahead).rest ≠ [] := by
      intro hnil
      rw [hnil, List.length_nil] at hsum
      omega
    simp [Ending.met?, hlooks, hrest, Nat.ne_of_gt hcount]

/-- A read that stays within the bytes delivered gives what it gives on the whole script. -/
theorem Shortened.read_within (h : Shortened text n whole failing)
    (hn : whole.position + (scan whole.options whole.cursor.ahead).reach ≤ n) :
    failing.read.1 = whole.read.1 ∧ failing.read.2.unterminated = whole.read.2.unterminated ∧
      Shortened text n whole.read.2 failing.read.2 := by
  have hread : failing.read = (.ok (scan failing.options failing.cursor.ahead).token,
      { failing.after (scan failing.options failing.cursor.ahead) with
        unterminated := (scan failing.options failing.cursor.ahead).unterminated }) := by
    simp [read, h.met hn]
  have hsum := length_rest_scan whole.options whole.cursor.ahead
  have hmore := h.more
  rw [Scan.reach] at hn
  rw [remaining] at hmore
  rw [hread, h.scan_within hn, read_complete h.complete]
  refine ⟨rfl, rfl, ⟨h.options, h.complete, h.fails, ?_, ?_, ?_⟩⟩
  · simp only [after, position, h.place, Nat.sub_sub]
  · simp only [after, position] at hn ⊢
    omega
  · simp only [after, position, remaining] at hmore ⊢
    omega

/-- A read that does not stay within the bytes delivered fails, and leaves nothing ahead. -/
theorem Shortened.read_beyond (h : Shortened text n whole failing)
    (hn : n < whole.position + (scan whole.options whole.cursor.ahead).reach) :
    failing.read.1 = .error (.external text) ∧ failing.read.2.cursor.ahead = [] := by
  have hreach : 0 + (n - whole.position) <
      (Scanner.run whole.options .start 0 whole.cursor.ahead).reach := by
    have := h.delivered
    rw [scan] at hn
    omega
  have hahead : whole.cursor.ahead.take (n - whole.position) = failing.cursor.ahead := by
    rw [h.place]
  obtain ⟨hrest, hlooks⟩ := Scanner.rest_run_take hreach
  rw [← scan, ← h.options, hahead] at hrest hlooks
  simp [read, h.fails, Ending.met?, hrest, hlooks, after]

/-- Where nothing is ahead, an input that fails goes on failing. -/
theorem read_exhausted (hf : lx.ending = .failure text) (h : lx.cursor.ahead = []) :
    lx.read.1 = .error (.external text) ∧ lx.read.2.cursor.ahead = [] := by
  simp [read, hf, h, scan_nil, Ending.met?, after]

theorem ending_read (lx : Lexer) : lx.read.2.ending = lx.ending := by
  unfold read
  dsimp only
  split <;> rfl

/-- The next read stays within the bytes delivered, and both lexers go on alike, or it does not, and
the input fails. -/
theorem Shortened.next (h : Shortened text n whole failing) :
    (∀ i, whole.LooksAt i → i < n) ∧ failing.read.1 = whole.read.1 ∧
        failing.read.2.unterminated = whole.read.2.unterminated ∧
        Shortened text n whole.read.2 failing.read.2 ∨
      (∃ i, whole.LooksAt i ∧ n ≤ i) ∧ failing.read.1 = .error (.external text) ∧
        failing.read.2.cursor.ahead = [] := by
  by_cases hn : ∀ i, whole.LooksAt i → i < n
  · exact .inl ⟨hn, h.read_within ((within_iff h.complete).mp hn)⟩
  · have hbeyond := Nat.lt_of_not_le fun hle => hn ((within_iff h.complete).mpr hle)
    simp only [not_forall, Nat.not_lt, exists_prop] at hn
    exact .inr ⟨hn, h.read_beyond hbeyond⟩

/-- After any number of reads either all have stayed within the bytes delivered, and both lexers are
at the same place, or one has not, and nothing is ahead of the failing lexer any more. -/
theorem Shortened.reads (h : Shortened text n whole failing) (k : Nat) :
    (∀ j < k, ∀ i, (whole.reads j).LooksAt i → i < n) ∧
        Shortened text n (whole.reads k) (failing.reads k) ∨
      (∃ j < k, ∃ i, (whole.reads j).LooksAt i ∧ n ≤ i) ∧
        (failing.reads k).ending = .failure text ∧ (failing.reads k).cursor.ahead = [] := by
  induction k with
  | zero => exact .inl ⟨fun j hj => absurd hj (Nat.not_lt_zero j), h⟩
  | succ k ih =>
    rcases ih with ⟨hbefore, hk⟩ | ⟨⟨j, hj, hlooks⟩, hfails, hahead⟩
    · rcases hk.next with ⟨hwithin, -, -, hnext⟩ | ⟨hlooks, -, hahead⟩
      · refine .inl ⟨fun j hj => ?_, hnext⟩
        rcases Nat.lt_succ_iff_lt_or_eq.mp hj with hj | rfl
        · exact hbefore j hj
        · exact hwithin
      · exact .inr ⟨⟨k, Nat.lt_succ_self k, hlooks⟩, (ending_read _).trans hk.fails, hahead⟩
    · obtain ⟨-, hnext⟩ := read_exhausted hfails hahead
      exact .inr ⟨⟨j, Nat.lt_succ_of_lt hj, hlooks⟩, (ending_read _).trans hfails, hnext⟩

/-- The end of the whole script is looked at behind the bytes delivered. -/
theorem Shortened.ne_endOfInput (h : Shortened text n whole failing)
    (hn : ∀ i, whole.LooksAt i → i < n) : whole.read.1 ≠ .ok .endOfInput := by
  intro hend
  rw [read_complete h.complete] at hend
  have hmore := h.more
  rw [remaining] at hmore
  have hreach := Scanner.lt_reach_run whole.options .start 0 whole.cursor.ahead
  have hwithin := (within_iff h.complete).mp hn
  rw [scan] at hwithin
  cases hahead : whole.cursor.ahead with
  | nil =>
    rw [hahead, List.length_nil] at hmore
    omega
  | cons b rest =>
    rw [hahead] at hend
    exact scan_ne_endOfInput (Except.ok.inj hend)

/-- A read gives what it gives on the whole script, unless it or one before it looks behind the
bytes delivered; then it fails. -/
theorem Shortened.read (h : Shortened text n whole failing) (k : Nat) :
    (∀ j ≤ k, ∀ i, (whole.reads j).LooksAt i → i < n) ∧
        (failing.reads k).read.1 = (whole.reads k).read.1 ∧
        (failing.reads (k + 1)).position = (whole.reads (k + 1)).position ∧
        (failing.reads (k + 1)).unterminated = (whole.reads (k + 1)).unterminated ∧
        (failing.reads k).read.1 ≠ .ok .endOfInput ∨
      (∃ j ≤ k, ∃ i, (whole.reads j).LooksAt i ∧ n ≤ i) ∧
        (failing.reads k).read.1 = .error (.external text) := by
  rcases h.reads k with ⟨hbefore, hk⟩ | ⟨⟨j, hj, hlooks⟩, hfails, hahead⟩
  · rcases hk.next with ⟨hwithin, htoken, hflag, hnext⟩ | ⟨hlooks, hfail, -⟩
    · refine .inl ⟨fun j hj => ?_, htoken, ?_, hflag, ?_⟩
      · rcases Nat.lt_or_eq_of_le hj with hj | rfl
        · exact hbefore j hj
        · exact hwithin
      · have hplace := congrArg Cursor.offset hnext.place
        exact hplace
      · rw [htoken]
        exact hk.ne_endOfInput hwithin
    · exact .inr ⟨⟨k, Nat.le_refl k, hlooks⟩, hfail⟩
  · exact .inr ⟨⟨j, Nat.le_of_lt hj, hlooks⟩, (read_exhausted hfails hahead).1⟩

/-- The place to which a lexer returns is the one that it saved last. -/
theorem restore_place {next : Lexer} (h : next.saved = lx.save.saved) :
    next.restore.cursor = lx.cursor ∧ next.restore.saved = lx.saved := by
  simp [restore, h, save]

theorem peekSignificant_place (lx : Lexer) :
    lx.peekSignificant.2.cursor = lx.cursor ∧ lx.peekSignificant.2.saved = lx.saved :=
  restore_place (saved_readSignificant lx.save)

end Lexer

theorem Reader.surplus_place (r : Reader) :
    (Reader.surplus.run r).2.lexer.cursor = r.lexer.cursor ∧
      (Reader.surplus.run r).2.lexer.saved = r.lexer.saved :=
  Lexer.restore_place (Lexer.saved_feed _ _ _ r.lexer.save)

namespace BufferedLexer

/-- The lexer after `n` reads, whatever they gave. -/
def reads (lx : BufferedLexer) : Nat → BufferedLexer
  | 0 => lx
  | n + 1 => (lx.reads n).read.2

variable {bytes : List UInt8} {lx : BufferedLexer}

theorem seen_reads (h : lx.buffer.Covers bytes) (k : Nat) :
    (lx.reads k).seen bytes = (lx.seen bytes).reads k ∧ (lx.reads k).buffer.Covers bytes := by
  induction k with
  | zero => exact ⟨rfl, h⟩
  | succ k ih =>
    obtain ⟨hseen, hcovers⟩ := ih
    obtain ⟨hread, hnext⟩ := seen_read hcovers
    rw [reads, Lexer.reads, ← hseen, hread]
    exact ⟨rfl, hnext⟩

/-- Looking ahead in pieces returns to the place, and to the saved places. -/
theorem peekSignificant_place (h : lx.buffer.Covers bytes) :
    lx.peekSignificant.2.position = lx.position ∧
      lx.peekSignificant.2.buffer.marks = lx.buffer.marks := by
  obtain ⟨hpeek, -⟩ := seen_peekSignificant h
  obtain ⟨hcursor, hsaved⟩ := (lx.seen bytes).peekSignificant_place
  rw [hpeek] at hcursor hsaved
  refine ⟨congrArg Cursor.offset hcursor, ?_⟩
  have hoffsets := congrArg (List.map Cursor.offset) hsaved
  simpa [seen, index, IndexedLexer.whole, Cursor.at, Function.comp_def] using hoffsets

/-- Where the input fails behind the bytes delivered, reads give the tokens and places of the whole
script, and no end of input, for as long as each read has looked at bytes delivered alone. From the
first one on that would have to look further every read fails. Looking ahead, for a token or for
numbers that are too many, moves neither the place nor the saved places. -/
theorem fails_beyond (o : LexerOptions) (text : String) (supply : List Delivery)
    (missing : List UInt8) :
    let whole := (Lexer.start o .complete (Delivery.concat supply ++ missing)).reads
    let failing := (start o (.failure text) supply).reads
    let n := (Delivery.concat supply).length
    (∀ k,
      (∀ j ≤ k, ∀ i, (whole j).LooksAt i → i < n) ∧
          (failing k).read.1 = (whole k).read.1 ∧
          (failing (k + 1)).position = (whole (k + 1)).position ∧
          (failing (k + 1)).unterminated = (whole (k + 1)).unterminated ∧
          (failing k).read.1 ≠ .ok .endOfInput ∨
        (∃ j ≤ k, ∃ i, (whole j).LooksAt i ∧ n ≤ i) ∧
          (failing k).read.1 = .error (.external text)) ∧
    (∀ calls : List LexerCall,
      let lx := LexerCall.after perform calls (start o (.failure text) supply)
      lx.peekSignificant.2.position = lx.position ∧
        lx.peekSignificant.2.buffer.marks = lx.buffer.marks) ∧
    ∀ r : Reader, (Reader.surplus.run r).2.lexer.cursor = r.lexer.cursor ∧
      (Reader.surplus.run r).2.lexer.saved = r.lexer.saved := by
  intro whole failing n
  refine ⟨fun k => ?_, fun calls => ?_, Reader.surplus_place⟩
  · have hstart : Lexer.Shortened text n
        (Lexer.start o .complete (Delivery.concat supply ++ missing))
        (Lexer.start o (.failure text) (Delivery.concat supply)) := by
      refine ⟨rfl, rfl, rfl, ?_, Nat.zero_le n, ?_⟩
      · simp [Lexer.start, Lexer.position, n]
      · simp [Lexer.start, Lexer.position, Lexer.remaining, n]
    have hcovers := covers_start o (.failure text) supply
    have hseen (k : Nat) : (failing k).seen (Delivery.concat supply) =
        (Lexer.start o (.failure text) (Delivery.concat supply)).reads k := by
      rw [(seen_reads hcovers k).1, seen_start]
    have hread : ((failing k).seen (Delivery.concat supply)).read.1 = (failing k).read.1 :=
      congrArg Prod.fst (seen_read (seen_reads hcovers k).2).1
    have h := hstart.read k
    rw [← hseen, ← hseen, hread] at h
    exact h
  · exact peekSignificant_place (covers_after o (.failure text) supply calls)

/-- The letter of an object reference is its only byte, and it is no blank, name, number, variable
or keyword. Still the input that fails behind it fails the read. -/
theorem reference_looks_past :
    let whole := Lexer.start {} .complete [0x52]
    let failing := start {} (.failure "read failed") [.bytes 0x52 []]
    whole.read.1 = .ok .objectReference ∧ whole.position = 0 ∧ whole.read.2.position = 1 ∧
      (Delivery.concat failing.buffer.supply).length = 1 ∧
      failing.read.1 = .error (.external "read failed") := by
  have hread := (seen_read (covers_start {} (.failure "read failed") [.bytes 0x52 []])).1
  exact ⟨rfl, rfl, rfl, rfl, (congrArg Prod.fst hread).symm⟩

end BufferedLexer

end PageScript
