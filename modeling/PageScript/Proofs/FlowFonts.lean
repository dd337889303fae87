import PageScript.Proofs.Filling
import PageScript.Proofs.WordPieces

/-!
# Flowed text keeps its fonts

Whatever becomes of the spans of a flow, the lines are set in no fonts but theirs.
-/
namespace PageScript

variable {φ α : Type} {P : φ → Prop}

/-- The fonts of all words satisfy `P`. -/
def Chunk.AllFonts (P : φ → Prop) (chunks : List (Chunk φ α)) : Prop :=
  ∀ chunk ∈ chunks, ∀ word ∈ chunk.words, P word.font

/-- The fonts of all spans of a line satisfy `P`. -/
def Line.AllFonts (P : φ → Prop) (line : Line φ α) : Prop := ∀ s ∈ line.spans, P s.font

/-- Words are set in the fonts and sizes of the spans that they are from. -/
theorem Chunk.exists_span [Scalar α] [FlowFont φ α] {options : FlowOptions α}
    {spans : List (Span φ α)} {chunk : Chunk φ α} {word : Word φ α}
    (hchunk : chunk ∈ split options spans) (hword : word ∈ chunk.words) :
    ∃ s ∈ spans, word.font = s.font ∧ word.size = s.size := by
  obtain ⟨run, hrun, hsets⟩ := mem_of_forall₂ (sets_split options spans) chunk hchunk
  obtain ⟨piece, hpiece, hset⟩ := mem_of_forall₂ hsets.words word hword
  obtain ⟨l, hl⟩ := List.exists_mem_of_ne_nil piece hset.ne_nil
  have hletter : l ∈ run := by
    rw [← List.flatten_splitBy SpanLetter.sameSpan run]
    exact List.mem_flatten.mpr ⟨piece, hpiece, hl⟩
  exact ⟨l.span, Flow.span_mem (mem_of_mem_runs hrun hletter), hset.font l hl, hset.size l hl⟩

theorem Chunk.allFonts_split [Scalar α] [FlowFont φ α] {options : FlowOptions α}
    {spans : List (Span φ α)} (h : ∀ s ∈ spans, P s.font) :
    AllFonts P (split options spans) := by
  intro chunk hchunk word hword
  obtain ⟨s, hs, hfont, -⟩ := exists_span hchunk hword
  rw [hfont]
  exact h s hs

namespace Row

variable [Scalar α]

theorem mem_fill {limit : α} {chunks : List (Chunk φ α)} {row : Row φ α} {chunk : Chunk φ α}
    (hrow : row ∈ fill limit chunks) (hchunk : chunk ∈ row.chunks) : chunk ∈ chunks := by
  rw [← chunks_fill limit chunks]
  exact List.mem_flatMap.mpr ⟨row, hrow, hchunk⟩

/-- The gaps of a row leave its words as they are. -/
theorem words_pieces (extra : α) (gap : Option α) (chunks : List (Chunk φ α)) :
    (pieces extra gap chunks).map Prod.snd = chunks.flatMap Chunk.words := by
  induction chunks generalizing gap with
  | nil => rfl
  | cons chunk chunks ih =>
    rw [pieces, List.map_append, ih, List.flatMap_cons]
    cases chunk.words <;> simp [Function.comp_def]

theorem mem_pieces {extra : α} {gap : Option α} {chunks : List (Chunk φ α)} :
    ∀ piece ∈ pieces extra gap chunks, ∃ chunk ∈ chunks, piece.2 ∈ chunk.words := by
  intro piece hp
  have hword : piece.2 ∈ (pieces extra gap chunks).map Prod.snd := List.mem_map_of_mem hp
  rw [words_pieces] at hword
  exact List.mem_flatMap.mp hword

variable [FlowFont φ α]

section Spans

variable {Q : LineSpan φ α → Prop} {baseline wordSpacing : α} {pen : Pen φ α}

/-- What holds of each span that is started, and does not depend on its text and width, holds of
all spans. -/
theorem forall_place (keeps : ∀ s text width, Q s → Q { s with text := text, width := width })
    {piece : Option α × Word φ α}
    (starts : ∀ x, Q ⟨x, baseline, piece.2.width, piece.2.size, piece.2.font, wordSpacing,
      piece.2.text⟩) (h : ∀ s ∈ pen.spans, Q s) :
    ∀ s ∈ (Pen.place baseline wordSpacing pen piece).spans, Q s := by
  have started : ∀ s ∈ (Pen.start baseline wordSpacing pen piece.1 piece.2).spans, Q s :=
    List.forall_mem_cons.mpr ⟨starts _, h⟩
  unfold Pen.place
  split
  · next span before hspans =>
    rw [hspans] at h
    obtain ⟨hspan, hbefore⟩ := List.forall_mem_cons.mp h
    split
    · unfold Pen.extend
      split <;> exact List.forall_mem_cons.mpr ⟨keeps _ _ _ hspan, hbefore⟩
    · exact started
  · exact started

theorem forall_fold (keeps : ∀ s text width, Q s → Q { s with text := text, width := width })
    {pieces : List (Option α × Word φ α)}
    (starts : ∀ p ∈ pieces, ∀ x, Q ⟨x, baseline, p.2.width, p.2.size, p.2.font, wordSpacing,
      p.2.text⟩) (h : ∀ s ∈ pen.spans, Q s) :
    ∀ s ∈ (pieces.foldl (Pen.place baseline wordSpacing) pen).spans, Q s := by
  induction pieces generalizing pen with
  | nil => exact h
  | cons piece pieces ih =>
    obtain ⟨hpiece, hpieces⟩ := List.forall_mem_cons.mp starts
    exact ih hpieces (forall_place keeps hpiece h)

end Spans

theorem allFonts_layOut {scaling left baseline height extra : α} {chunks : List (Chunk φ α)}
    (h : Chunk.AllFonts P chunks) :
    (layOut scaling left baseline height extra chunks).AllFonts P := by
  intro s hs
  have hnone : ∀ s ∈ (⟨[], left⟩ : Pen φ α).spans, P s.font := by simp
  refine forall_fold (fun _ _ _ => id) (fun p hp _ => ?_) hnone s (List.mem_reverse.mp hs)
  obtain ⟨chunk, hc, hw⟩ := mem_pieces p hp
  exact h chunk hc _ hw

end Row

theorem Line.allFonts_shift [Scalar α] {line : Line φ α} (h : line.AllFonts P) (dy : α) :
    (line.shift dy).AllFonts P := by
  intro s hs
  obtain ⟨s', hs', rfl⟩ := List.mem_map.mp hs
  exact h s' hs'

/-- The lines of a flow, and those of one that overflows, are set in the fonts of its spans. -/
theorem Flow.allFonts_lines [Scalar α] [FlowFont φ α] {options : FlowOptions α}
    {spans : List (Span φ α)} {rect : Rectangle α} (h : ∀ s ∈ spans, P s.font) :
    ∀ line ∈ placed (lines options spans rect), line.AllFonts P := by
  have hpairs : Pairs (fun line _ => line.AllFonts P)
      (Row.fill rect.width (Chunk.split options spans))
      (linesOf options rect (Chunk.split options spans)) := by
    refine pairs_linesOf _ (fun row hrow _ _ => Row.allFonts_layOut fun chunk hchunk => ?_)
      fun _ _ dy hline => Line.allFonts_shift hline dy
    exact Chunk.allFonts_split h chunk (Row.mem_fill hrow hchunk)
  intro line hline
  unfold lines at hline
  split at hline
  · simp [placed] at hline
  · obtain ⟨_, -, hfonts⟩ := hpairs.exists_row line hline
    exact hfonts

end PageScript
