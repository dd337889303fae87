import PageScript.Proofs.StackedLines

/-!
# Justified lines

Where nothing is rounded, a justified line reaches from the left side of the rectangle to the right
one: what its chunks leave free is shared out evenly among the gaps between them. Lines that are not
stretched are as wide as their chunks.
-/
namespace PageScript

open List (Forall₂)

variable {ψ : Type}

/-- Some words from `x` on, each with its left edge. -/
def Word.spots (x : ℚ) : List (Word ψ ℚ) → List (ℚ × Word ψ ℚ)
  | [] => []
  | w :: ws => (x, w) :: spots (x + w.width) ws

/-- The words of some chunks from `x` on. Between two chunks are the space behind the first of them
and `extra`. -/
def Chunk.spots (extra x : ℚ) : List (Chunk ψ ℚ) → List (ℚ × Word ψ ℚ)
  | [] => []
  | chunk :: chunks => Word.spots x chunk.words ++
      spots extra (x + chunk.width + (chunk.spaceAfter + extra)) chunks

/-- Letters without the spaces between them. -/
def unspaced (text : List Char) : List Char := text.filter (· != ' ')

/-- The span has the letters of some words, and reaches from the left edge of the first of them to
the right edge of the last one. -/
structure LineSpan.Covers (s : LineSpan ψ ℚ) (group : List (ℚ × Word ψ ℚ)) : Prop where
  letters : unspaced s.text.toList = unspaced (group.flatMap (·.2.text.toList))
  start : ∃ first, group.head? = some first ∧ s.x = first.1
  finish : ∃ last, group.getLast? = some last ∧ s.x + s.width = last.1 + last.2.width

/-- The spans of the line cover the words at their spots. -/
def Line.Covers (line : Line ψ ℚ) (spots : List (ℚ × Word ψ ℚ)) : Prop :=
  ∃ groups, groups.flatten = spots ∧ Forall₂ LineSpan.Covers line.spans groups

/-! ### The place of the pen -/

theorem unspaced_append (a b : List Char) : unspaced (a ++ b) = unspaced a ++ unspaced b :=
  List.filter_append ..

namespace LineSpan.Covers

variable {s : LineSpan ψ ℚ} {group : List (ℚ × Word ψ ℚ)}

theorem single (x baseline wordSpacing : ℚ) (w : Word ψ ℚ) :
    Covers ⟨x, baseline, w.width, w.size, w.font, wordSpacing, w.text⟩ [(x, w)] where
  letters := by simp
  start := ⟨(x, w), rfl, rfl⟩
  finish := ⟨(x, w), rfl, rfl⟩

/-- A word set behind a span is covered by it, whether there is a gap before the word or not. -/
theorem extend (h : s.Covers group) {gap : String} (hgap : unspaced gap.toList = []) (width : ℚ)
    (w : Word ψ ℚ) : Covers { s with
      text := s.text ++ gap ++ w.text
      width := s.width + width + w.width } (group ++ [(s.x + s.width + width, w)]) where
  letters := by
    simp only [String.toList_append, unspaced_append, h.letters, hgap, List.flatMap_append,
      List.flatMap_singleton, List.append_nil]
  start := by
    obtain ⟨first, hfirst, hx⟩ := h.start
    exact ⟨first, by rw [List.head?_append, hfirst]; rfl, hx⟩
  finish := by
    refine ⟨_, List.getLast?_concat .., ?_⟩
    dsimp only
    linarith

end LineSpan.Covers

namespace Pen

variable (baseline wordSpacing : ℚ) {pen : Pen ψ ℚ} {done : List (ℚ × Word ψ ℚ)}

/-- The spans that have been set cover some words, and the pen is behind the last of them. -/
structure Covers (pen : Pen ψ ℚ) (spots : List (ℚ × Word ψ ℚ)) : Prop where
  spans : ∃ groups, groups.reverse.flatten = spots ∧ Forall₂ LineSpan.Covers pen.spans groups
  behind : ∀ s ∈ pen.spans.head?, s.x + s.width = pen.x

theorem Covers.start (h : pen.Covers done) (gap : Option ℚ) (w : Word ψ ℚ) :
    (start baseline wordSpacing pen gap w).Covers (done ++ [(pen.x + gap.getD 0, w)]) ∧
      (start baseline wordSpacing pen gap w).x = pen.x + gap.getD 0 + w.width := by
  obtain ⟨groups, rfl, hgroups⟩ := h.spans
  refine ⟨⟨⟨[(pen.x + gap.getD 0, w)] :: groups, by simp, ?_⟩, ?_⟩, rfl⟩
  · exact .cons (.single ..) hgroups
  · rintro _ ⟨⟩
    rfl

/-- No gap is as wide as none. -/
theorem extend_exact (span : LineSpan ψ ℚ) (before : List (LineSpan ψ ℚ)) (x : ℚ)
    (gap : Option ℚ) (w : Word ψ ℚ) : extend span before x gap w =
      ⟨{ span with
          text := span.text ++ (if gap.isSome then " " else "") ++ w.text
          width := span.width + gap.getD 0 + w.width } :: before, x + gap.getD 0 + w.width⟩ := by
  cases gap <;> simp [extend]

theorem Covers.extend {span : LineSpan ψ ℚ} {before : List (LineSpan ψ ℚ)} {x : ℚ}
    (h : Covers ⟨span :: before, x⟩ done) (gap : Option ℚ) (w : Word ψ ℚ) :
    (extend span before x gap w).Covers (done ++ [(x + gap.getD 0, w)]) ∧
      (extend span before x gap w).x = x + gap.getD 0 + w.width := by
  obtain ⟨groups, rfl, hgroups⟩ := h.spans
  obtain ⟨group, groups, hspan, hbefore, rfl⟩ := List.forall₂_cons_left_iff.mp hgroups
  obtain rfl : span.x + span.width = x := h.behind span rfl
  have hgap : unspaced (if gap.isSome then " " else "").toList = [] := by
    split <;> rfl
  rw [extend_exact]
  refine ⟨⟨⟨_ :: groups, by simp, .cons (hspan.extend hgap (gap.getD 0) w) hbefore⟩, ?_⟩, rfl⟩
  rintro _ ⟨⟩
  dsimp only
  linarith

variable [FlowFont ψ ℚ]

/-- A word is set behind the gap that is before it. -/
theorem Covers.place (h : pen.Covers done) (gap : Option ℚ) (w : Word ψ ℚ) :
    (Pen.place baseline wordSpacing pen (gap, w)).Covers (done ++ [(pen.x + gap.getD 0, w)]) ∧
      (Pen.place baseline wordSpacing pen (gap, w)).x = pen.x + gap.getD 0 + w.width := by
  unfold Pen.place
  split
  · next span before hspans =>
    obtain ⟨_, x⟩ := pen
    obtain rfl : _ = span :: before := hspans
    split
    · exact h.extend gap w
    · exact h.start baseline wordSpacing gap w
  · exact h.start baseline wordSpacing gap w

/-- The words of some pieces from `x` on. -/
def spots (x : ℚ) : List (Option ℚ × Word ψ ℚ) → List (ℚ × Word ψ ℚ)
  | [] => []
  | (gap, w) :: pieces => (x + gap.getD 0, w) :: spots (x + gap.getD 0 + w.width) pieces

/-- How far some pieces reach. -/
def advance (pieces : List (Option ℚ × Word ψ ℚ)) : ℚ :=
  (pieces.map fun p => p.1.getD 0 + p.2.width).sum

theorem Covers.fold (h : pen.Covers done) (pieces : List (Option ℚ × Word ψ ℚ)) :
    (pieces.foldl (Pen.place baseline wordSpacing) pen).Covers (done ++ spots pen.x pieces) ∧
      (pieces.foldl (Pen.place baseline wordSpacing) pen).x = pen.x + advance pieces := by
  induction pieces generalizing pen done with
  | nil => simpa [spots, advance] using h
  | cons piece pieces ih =>
    obtain ⟨gap, w⟩ := piece
    obtain ⟨hplace, hx⟩ := h.place baseline wordSpacing gap w
    obtain ⟨hall, hend⟩ := ih hplace
    rw [hx, List.append_assoc, List.singleton_append] at hall
    refine ⟨hall, hend.trans ?_⟩
    rw [hx, advance, advance, List.map_cons, List.sum_cons]
    dsimp only
    linarith

end Pen

/-! ### The spots of the words of a row -/

/-- Chunks have words, and are as wide as these are together. -/
def Chunk.Measured (chunk : Chunk ψ ℚ) : Prop :=
  chunk.words ≠ [] ∧ chunk.width = (chunk.words.map Word.width).sum

theorem Chunk.measured_split [FlowFont ψ ℚ] {options : FlowOptions ℚ} {spans : List (Span ψ ℚ)} :
    ∀ chunk ∈ split options spans, chunk.Measured := by
  refine forall_split (fun word space => ?_) (fun chunk word space h => ?_)
  · exact ⟨List.cons_ne_nil _ _, by simp [single]⟩
  · refine ⟨by simp [glue], ?_⟩
    rw [glue, List.map_append, List.sum_append, ← h.2]
    simp

namespace Row

/-- Between the words of a chunk there are no gaps. -/
theorem spots_words (x : ℚ) (words : List (Word ψ ℚ)) (rest : List (Option ℚ × Word ψ ℚ)) :
    Pen.spots x (words.map (none, ·) ++ rest) =
      Word.spots x words ++ Pen.spots (x + (words.map Word.width).sum) rest := by
  induction words generalizing x with
  | nil => simp [Word.spots]
  | cons w words ih =>
    have hx : x + (none : Option ℚ).getD 0 = x := add_zero x
    rw [List.map_cons, List.cons_append, Pen.spots, hx, ih, Word.spots, List.map_cons,
      List.sum_cons, add_assoc]
    rfl

theorem spots_pieces (extra x : ℚ) (gap : Option ℚ) {chunks : List (Chunk ψ ℚ)}
    (h : ∀ chunk ∈ chunks, chunk.Measured) :
    Pen.spots x (pieces extra gap chunks) = Chunk.spots extra (x + gap.getD 0) chunks := by
  induction chunks generalizing x gap with
  | nil => rfl
  | cons chunk chunks ih =>
    obtain ⟨⟨hne, hwidth⟩, hchunks⟩ := List.forall_mem_cons.mp h
    obtain ⟨w, words, hwords⟩ := List.exists_cons_of_ne_nil hne
    rw [pieces, Chunk.spots, hwidth, hwords]
    dsimp only
    have hend : x + gap.getD 0 + w.width + (words.map Word.width).sum =
        x + gap.getD 0 + (w.width + (words.map Word.width).sum) := add_assoc ..
    rw [List.cons_append, Pen.spots, spots_words, ih _ _ hchunks, hend, Word.spots, List.map_cons,
      List.sum_cons]
    rfl

theorem advance_append (a b : List (Option ℚ × Word ψ ℚ)) :
    Pen.advance (a ++ b) = Pen.advance a + Pen.advance b := by
  rw [Pen.advance, List.map_append, List.sum_append]
  rfl

theorem advance_chunk (gap : Option ℚ) {chunk : Chunk ψ ℚ} (h : chunk.Measured) (extra : ℚ)
    (chunks : List (Chunk ψ ℚ)) : Pen.advance (pieces extra gap (chunk :: chunks)) =
      gap.getD 0 + chunk.width +
        Pen.advance (pieces extra (some (chunk.spaceAfter + extra)) chunks) := by
  obtain ⟨hne, hwidth⟩ := h
  obtain ⟨w, words, hwords⟩ := List.exists_cons_of_ne_nil hne
  rw [pieces, advance_append, hwidth, hwords]
  simp [Pen.advance, Function.comp_def, add_assoc]

/-- Chunks next to each other reach as far as they are wide, and each gap is wider by `extra`. -/
theorem advance_pieces (extra width : ℚ) (last : Chunk ψ ℚ)
    {chunks : List (Chunk ψ ℚ)} (h : ∀ c ∈ chunks, c.Measured) :
    width + Pen.advance (pieces extra (some (last.spaceAfter + extra)) chunks) =
      Chunk.reachFrom width last chunks + extra * chunks.length := by
  induction chunks generalizing width last with
  | nil => simp [pieces, Pen.advance, Chunk.reachFrom]
  | cons chunk chunks ih =>
    obtain ⟨hchunk, hchunks⟩ := List.forall_mem_cons.mp h
    rw [advance_chunk _ hchunk, Chunk.reachFrom]
    have hrest := ih (width + last.spaceAfter + chunk.width) chunk hchunks
    push_cast [List.length_cons]
    dsimp only [Option.getD_some]
    linarith

/-- The words of a row reach as far as its chunks, and each gap is wider by `extra`. -/
theorem advance_row (extra : ℚ) {chunks : List (Chunk ψ ℚ)} (h : ∀ c ∈ chunks, c.Measured) :
    Pen.advance (pieces extra none chunks) =
      Chunk.reach chunks + extra * (chunks.length - 1 : ℕ) := by
  cases chunks with
  | nil => simp [pieces, Pen.advance, Chunk.reach, Scalar.zero, Scalar.ofNat]
  | cons chunk chunks =>
    obtain ⟨hchunk, hchunks⟩ := List.forall_mem_cons.mp h
    rw [advance_chunk none hchunk]
    exact advance_pieces extra _ chunk hchunks

end Row

/-! ### Lines that are stretched and lines that are not -/

variable {options : FlowOptions ℚ} {rect : Rectangle ℚ} {row : Row ψ ℚ}

/-- The first span begins where the first word does. -/
theorem Line.Covers.first {line : Line ψ ℚ} {spot : ℚ × Word ψ ℚ} {more : List (ℚ × Word ψ ℚ)}
    (h : line.Covers (spot :: more)) : ∃ s, line.spans.head? = some s ∧ s.x = spot.1 := by
  obtain ⟨groups, hgroups, hspans⟩ := h
  cases hs : line.spans with
  | nil =>
    rw [hs] at hspans
    rw [List.forall₂_nil_left_iff.mp hspans] at hgroups
    cases hgroups
  | cons s ss =>
    rw [hs] at hspans
    obtain ⟨group, others, hfirst, -, rfl⟩ := List.forall₂_cons_left_iff.mp hspans
    obtain ⟨first, hhead, hx⟩ := hfirst.start
    obtain ⟨rest, rfl⟩ := List.head?_eq_some_iff.mp hhead
    rw [List.flatten_cons, List.cons_append, List.cons.injEq] at hgroups
    exact ⟨s, rfl, hx.trans (congrArg Prod.fst hgroups.1)⟩

/-- A row of two chunks or more is no wider than the rectangle. -/
theorem Row.width_le {limit : ℚ} {chunks : List (Chunk ψ ℚ)} (h : row ∈ fill limit chunks)
    (hlength : 1 < row.chunks.length) : row.width ≤ limit := by
  obtain ⟨hgreedy, hwidth⟩ := greedy_fill limit chunks
  obtain ⟨before, last, hchunks⟩ : ∃ before last, row.chunks = before ++ [last] :=
    (List.eq_nil_or_concat' row.chunks).resolve_left (by rintro hnil; simp [hnil] at hlength)
  have hbefore : before ≠ [] := by
    rintro rfl
    simp [hchunks] at hlength
  have hfits := hgreedy.fits row.chunks (List.mem_map_of_mem h) before last hbefore
    (by rw [hchunks])
  rw [hwidth row h, hchunks]
  simpa [Scalar.less] using hfits

namespace Column

variable {isLast : Bool}

/-- What is added to each gap is as much as makes the row as wide as the rectangle. -/
theorem exists_spread {chunks : List (Chunk ψ ℚ)} (hrow : row ∈ Row.fill rect.width chunks)
    (hjustify : options.justify) (hlength : 1 < row.chunks.length) :
    ∃ extra, spread options rect false row = (rect.left, extra) ∧ 0 ≤ extra ∧
      Chunk.reach row.chunks + extra * (row.chunks.length - 1 : ℕ) = rect.width := by
  have hgaps : (0 : ℚ) < (row.chunks.length - 1 : ℕ) := by
    exact_mod_cast Nat.sub_pos_of_lt hlength
  have hreach : row.width = Chunk.reach row.chunks :=
    (Row.greedy_fill rect.width chunks).2 row hrow
  have hfree : 0 ≤ rect.width - row.width := sub_nonneg.mpr (Row.width_le hrow hlength)
  refine ⟨(rect.width - row.width) / (row.chunks.length - 1 : ℕ), ?_,
    div_nonneg hfree hgaps.le, ?_⟩
  · unfold spread
    rw [if_pos (by simp [hjustify, hlength])]
    rfl
  · rw [div_mul_cancel₀ _ hgaps.ne', hreach]
    exact add_sub_cancel _ _

theorem spread_natural (h : ¬ (options.justify ∧ isLast = false ∧ 1 < row.chunks.length)) :
    (spread options rect isLast row).2 = 0 := by
  unfold spread
  rw [if_neg (by simpa [and_assoc] using h)]
  rfl

end Column

/-- The line is as wide as its chunks and what is added to the gaps between them. -/
structure Line.Spreads (line : Line ψ ℚ) (extra : ℚ) (row : Row ψ ℚ) : Prop where
  covers : line.Covers (Chunk.spots extra line.left row.chunks)
  width : line.width = Chunk.reach row.chunks + extra * (row.chunks.length - 1 : ℕ)
  finish : ∀ s ∈ line.spans.getLast?, s.x + s.width = line.left + line.width

theorem Chunk.spots_cons (extra x : ℚ) {chunk : Chunk ψ ℚ} (h : chunk.Measured)
    (chunks : List (Chunk ψ ℚ)) : ∃ w more, spots extra x (chunk :: chunks) = (x, w) :: more := by
  obtain ⟨w, words, hwords⟩ := List.exists_cons_of_ne_nil h.1
  exact ⟨w, _, by rw [spots, hwords, Word.spots, List.cons_append]⟩

section Ends

variable {line : Line ψ ℚ} {extra : ℚ}

theorem Line.Spreads.exists_first (hline : line.Spreads extra row)
    (h : ∀ chunk ∈ row.chunks, chunk.Measured) (hne : row.chunks ≠ []) :
    ∃ s, line.spans.head? = some s ∧ s.x = line.left := by
  obtain ⟨chunk, chunks, hchunks⟩ := List.exists_cons_of_ne_nil hne
  have hcovers := hline.covers
  rw [hchunks] at h hcovers
  obtain ⟨w, more, hspots⟩ := Chunk.spots_cons extra line.left (h chunk List.mem_cons_self) chunks
  rw [hspots] at hcovers
  exact hcovers.first

theorem Line.Spreads.exists_last (hline : line.Spreads extra row)
    (h : ∀ chunk ∈ row.chunks, chunk.Measured) (hne : row.chunks ≠ []) :
    ∃ s, line.spans.getLast? = some s ∧ s.x + s.width = line.left + line.width := by
  obtain ⟨first, hfirst, -⟩ := hline.exists_first h hne
  have hspans : line.spans ≠ [] := List.ne_nil_of_mem (List.mem_of_mem_head? hfirst)
  have hlast := List.getLast?_eq_some_getLast hspans
  exact ⟨_, hlast, hline.finish _ hlast⟩

end Ends

variable [FlowFont ψ ℚ]

theorem Row.spreads_layOut (h : ∀ chunk ∈ row.chunks, chunk.Measured)
    (scaling left baseline height extra : ℚ) :
    (layOut scaling left baseline height extra row.chunks).Spreads extra row := by
  have hstart : (⟨[], left⟩ : Pen ψ ℚ).Covers [] := ⟨⟨[], rfl, .nil⟩, by simp⟩
  rw [layOut]
  generalize (if Scalar.same extra Scalar.zero || Scalar.same scaling Scalar.zero then
    Scalar.zero else extra / scaling) = wordSpacing
  obtain ⟨hcovers, hx⟩ := hstart.fold baseline wordSpacing (pieces extra none row.chunks)
  rw [List.nil_append, spots_pieces extra left none h] at hcovers
  generalize (pieces extra none row.chunks).foldl (Pen.place baseline wordSpacing) ⟨[], left⟩ = pen
    at hcovers hx ⊢
  obtain ⟨⟨groups, hgroups, hspans⟩, hbehind⟩ := hcovers
  have hwidth : pen.x - left = Pen.advance (pieces extra none row.chunks) := by
    rw [hx]
    exact add_sub_cancel_left _ _
  refine ⟨⟨groups.reverse, ?_, List.rel_reverse hspans⟩, hwidth.trans (advance_row extra h), ?_⟩
  · rw [hgroups]
    exact congrArg (Chunk.spots extra · row.chunks) (add_zero left)
  · intro s hs
    rw [List.getLast?_reverse] at hs
    dsimp only
    rw [hbehind s hs]
    exact (add_sub_cancel _ _).symm

/-- What spaces are widened by is what gaps are, before horizontal scaling. -/
theorem Row.wordSpacing_layOut (scaling left baseline height extra : ℚ)
    (chunks : List (Chunk ψ ℚ)) :
    ∀ s ∈ (layOut scaling left baseline height extra chunks).spans,
      (extra = 0 → s.wordSpacing = 0) ∧ (scaling ≠ 0 → s.wordSpacing * scaling = extra) := by
  intro s hs
  rw [layOut] at hs
  generalize hws : (if Scalar.same extra Scalar.zero || Scalar.same scaling Scalar.zero then
    Scalar.zero else extra / scaling) = wordSpacing at hs
  have hnone : ∀ s ∈ (⟨[], left⟩ : Pen ψ ℚ).spans, s.wordSpacing = wordSpacing := by simp
  have hall := forall_fold (Q := fun s => s.wordSpacing = wordSpacing) (fun _ _ _ => id)
    (fun _ _ _ => rfl) hnone s (List.mem_reverse.mp hs)
  rw [hall, ← hws]
  refine ⟨fun hzero => ?_, fun hscaling => ?_⟩
  · rw [hzero]
    rfl
  · by_cases hzero : extra = 0
    · rw [hzero]
      exact zero_mul scaling
    · have hsome : ¬ (Scalar.same extra Scalar.zero || Scalar.same scaling Scalar.zero) := by
        simpa [Scalar.same, Scalar.zero, Scalar.ofNat] using ⟨hzero, hscaling⟩
      rw [if_neg hsome]
      exact div_mul_cancel₀ extra hscaling

/-- The line reaches over the whole rectangle, with the same space added to each of its gaps. -/
structure Line.Stretched (options : FlowOptions ℚ) (rect : Rectangle ℚ) (line : Line ψ ℚ)
    (row : Row ψ ℚ) : Prop where
  left : line.left = rect.left
  width : line.width = rect.width
  first : ∃ s, line.spans.head? = some s ∧ s.x = rect.left
  last : ∃ s, line.spans.getLast? = some s ∧ s.x + s.width = rect.right
  gaps : ∃ extra, 0 ≤ extra ∧ line.Covers (Chunk.spots extra rect.left row.chunks) ∧
    ∀ s ∈ line.spans, options.horizontalScaling ≠ 0 →
      s.wordSpacing * options.horizontalScaling = extra

/-- The line is as wide as its chunks next to each other, with nothing added to its gaps. -/
structure Line.Natural (line : Line ψ ℚ) (row : Row ψ ℚ) : Prop where
  width : line.width = Chunk.reach row.chunks
  wordSpacing : ∀ s ∈ line.spans, s.wordSpacing = 0
  gaps : line.Covers (Chunk.spots 0 line.left row.chunks)

/-- Lines of two chunks or more are stretched if that is asked for, but for the last one. -/
structure Line.Justifies (options : FlowOptions ℚ) (rect : Rectangle ℚ) (line : Line ψ ℚ)
    (isLast : Bool) (row : Row ψ ℚ) : Prop where
  stretched : options.justify ∧ isLast = false ∧ 1 < row.chunks.length →
    line.Stretched options rect row
  natural : ¬ (options.justify ∧ isLast = false ∧ 1 < row.chunks.length) → line.Natural row

/-- A row that is stretched has all of the rectangle. -/
theorem Row.stretched_line {chunks : List (Chunk ψ ℚ)} (hrow : row ∈ fill rect.width chunks)
    (h : ∀ chunk ∈ row.chunks, chunk.Measured) (hjustify : options.justify)
    (hlength : 1 < row.chunks.length) (baseline : ℚ) :
    (row.line options rect false baseline).Stretched options rect row := by
  have hne : row.chunks ≠ [] := List.length_pos_iff.mp (Nat.zero_lt_of_lt hlength)
  obtain ⟨extra, hspread, hpositive, hfill⟩ := Column.exists_spread hrow hjustify hlength
  rw [line, hspread]
  have hspreads := spreads_layOut h options.horizontalScaling rect.left baseline row.height extra
  have hspacing := wordSpacing_layOut options.horizontalScaling rect.left baseline row.height extra
    row.chunks
  obtain ⟨s, hs, hx⟩ := hspreads.exists_last h hne
  refine ⟨rfl, hspreads.width.trans hfill, hspreads.exists_first h hne, ⟨s, hs, hx.trans ?_⟩,
    extra, hpositive, hspreads.covers, fun s hs => (hspacing s hs).2⟩
  rw [hspreads.width, hfill]
  rfl

/-- A row that is not stretched has its own width. -/
theorem Row.natural_line (h : ∀ chunk ∈ row.chunks, chunk.Measured) {isLast : Bool}
    (hnot : ¬ (options.justify ∧ isLast = false ∧ 1 < row.chunks.length)) (baseline : ℚ) :
    (row.line options rect isLast baseline).Natural row := by
  have hextra : (Column.spread options rect isLast row).2 = 0 := Column.spread_natural hnot
  have hspreads := spreads_layOut h options.horizontalScaling
    (Column.spread options rect isLast row).1 baseline row.height 0
  have hspacing := wordSpacing_layOut options.horizontalScaling
    (Column.spread options rect isLast row).1 baseline row.height 0 row.chunks
  rw [line, hextra]
  refine ⟨?_, fun s hs => (hspacing s hs).1 rfl, hspreads.covers⟩
  rw [hspreads.width, zero_mul, add_zero]

namespace Flow

/-- Where nothing is rounded, all lines are stretched over the rectangle that are to be, and the
others are as wide as their chunks. -/
theorem justifies_lines (options : FlowOptions ℚ) (spans : List (Span ψ ℚ)) (rect : Rectangle ℚ) :
    Forall₂ (fun line r => Line.Justifies options rect line r.1 r.2)
      (placed (lines options spans rect))
      (((Row.lasts (rows options spans rect)).zip (rows options spans rect)).take
        (placed (lines options spans rect)).length) := by
  have hrow : ∀ r ∈ ((Row.lasts (rows options spans rect)).zip (rows options spans rect)).take
      (placed (lines options spans rect)).length, r.2 ∈ rows options spans rect :=
    fun r hr => (List.of_mem_zip (List.mem_of_mem_take hr)).2
  have hlines : Forall₂ (fun r line => ∃ baseline, line = Row.line options rect r.1 baseline r.2)
      (((Row.lasts (rows options spans rect)).zip (rows options spans rect)).take
        (placed (lines options spans rect)).length) (placed (lines options spans rect)) :=
    (lines_rows options spans rect).flip
  refine (((List.forall₂_and_left _ _).mpr ⟨hrow, hlines⟩).imp ?_).flip
  rintro ⟨isLast, row⟩ line ⟨hmem, baseline, rfl⟩
  have hfill : row ∈ Row.fill rect.width (Chunk.split options spans) := mem_fill_of_mem_rows hmem
  have hmeasured : ∀ chunk ∈ row.chunks, chunk.Measured :=
    fun chunk hchunk => Chunk.measured_split chunk (Row.mem_fill hfill hchunk)
  refine ⟨?_, fun hnot => Row.natural_line hmeasured hnot baseline⟩
  rintro ⟨hjustify, hlast, hlength⟩
  obtain rfl : isLast = false := hlast
  exact Row.stretched_line hfill hmeasured hjustify hlength baseline

end Flow

end PageScript
