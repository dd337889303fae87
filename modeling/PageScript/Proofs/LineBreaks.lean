import PageScript.Conversion.TextFlow
import PageScript.Proofs.Filling

/-!
# Line breaks

Where the lines of a text are broken, and which words share a span, follows from the widths of the
words and of the rectangle alone. How high the rectangle is and where the lines are put in it only
tells how many of the lines there are.
-/
namespace PageScript

variable {φ α : Type}

/-- The text of the span in its font and size, wherever it stands. -/
def LineSpan.content (s : LineSpan φ α) : Span φ α := ⟨s.text, s.font, s.size⟩

/-- The texts of the line in their fonts and sizes. -/
def Line.content (l : Line φ α) : List (Span φ α) := l.spans.map LineSpan.content

def Word.content (w : Word φ α) : Span φ α := ⟨w.text, w.font, w.size⟩

variable [Scalar α]

theorem Line.content_shift (dy : α) (l : Line φ α) : (l.shift dy).content = l.content := by
  rw [content, shift, List.map_map]
  rfl

/-- The words of some chunks, each with whether a gap is before it. -/
def Row.joints (chunks : List (Chunk φ α)) : List (Bool × Word φ α) :=
  (pieces Scalar.zero none chunks).map fun p => (p.1.isSome, p.2)

/-- Where there are gaps does not depend on how wide they are. -/
theorem Row.joints_pieces (extra : α) (chunks : List (Chunk φ α)) :
    (pieces extra none chunks).map (fun p => (p.1.isSome, p.2)) = joints chunks := by
  -- From the second chunk on the gaps differ in width, so they are only taken to be there alike.
  have hgaps (gap gap' : Option α) (h : gap.isSome = gap'.isSome) :
      (pieces extra gap chunks).map (fun p => (p.1.isSome, p.2)) =
        (pieces Scalar.zero gap' chunks).map fun p => (p.1.isSome, p.2) := by
    induction chunks generalizing gap gap' with
    | nil => rfl
    | cons chunk chunks ih =>
      have hrest := ih (some (chunk.spaceAfter + extra)) (some (chunk.spaceAfter + Scalar.zero)) rfl
      rw [pieces, pieces, List.map_append, List.map_append, hrest]
      cases chunk.words with
      | nil => rfl
      | cons word words => simp [h]
  exact hgaps none none rfl

variable [FlowFont φ α]

/-- A word behind some spans, the last one first, and behind a gap if there is one. -/
def Span.set (spans : List (Span φ α)) (joint : Bool × Word φ α) : List (Span φ α) :=
  match spans with
  | span :: before =>
    if Scalar.same span.size joint.2.size && FlowFont.sameFont span.font joint.2.font then
      { span with text := span.text ++ (if joint.1 then " " else "") ++ joint.2.text } :: before
    else joint.2.content :: span :: before
  | [] => [joint.2.content]

/-- What a line of the row shows, wherever it stands. -/
def Row.content (row : Row φ α) : List (Span φ α) := ((joints row.chunks).foldl Span.set []).reverse

theorem Pen.content_place (baseline wordSpacing : α) (pen : Pen φ α)
    (piece : Option α × Word φ α) :
    (place baseline wordSpacing pen piece).spans.map LineSpan.content =
      Span.set (pen.spans.map LineSpan.content) (piece.1.isSome, piece.2) := by
  obtain ⟨spans, x⟩ := pen
  obtain ⟨gap, word⟩ := piece
  cases spans with
  | nil => rfl
  | cons span spans =>
    simp only [place, List.map_cons, Span.set]
    have hsize : span.content.size = span.size := rfl
    have hfont : span.content.font = span.font := rfl
    rw [hsize, hfont]
    split
    · cases gap <;> simp [extend, LineSpan.content]
    · rfl

/-- What a line shows does not depend on where it stands and how far it is stretched. -/
theorem Row.content_layOut (scaling left baseline height extra : α) (row : Row φ α) :
    (layOut scaling left baseline height extra row.chunks).content = row.content := by
  have hfold (wordSpacing : α) (ps : List (Option α × Word φ α)) (pen : Pen φ α) :
      (ps.map fun p => (p.1.isSome, p.2)).foldl Span.set (pen.spans.map LineSpan.content) =
        (ps.foldl (Pen.place baseline wordSpacing) pen).spans.map LineSpan.content := by
    rw [List.foldl_map]
    exact List.foldl_hom (fun pen : Pen φ α => pen.spans.map LineSpan.content)
      (fun pen piece => (Pen.content_place baseline wordSpacing pen piece).symm)
  rw [content, ← joints_pieces extra row.chunks, Line.content, layOut]
  dsimp only
  rw [List.map_reverse, ← hfold]
  rfl

namespace Flow

variable {options options' : FlowOptions α} {rect rect' : Rectangle α}

theorem pairs_content (options : FlowOptions α) (rect : Rectangle α) (chunks : List (Chunk φ α)) :
    Pairs (fun line row => line.content = row.content) (Row.fill rect.width chunks)
      (linesOf options rect chunks) :=
  pairs_linesOf chunks (fun row _ _ _ => Row.content_layOut _ _ _ _ _ row)
    fun line _ dy h => (Line.content_shift dy line).trans h

/-- The lines show the first rows of the text, and all of them if they do not overflow. -/
theorem content_linesOf (options : FlowOptions α) (rect : Rectangle α) (chunks : List (Chunk φ α)) :
    (placed (linesOf options rect chunks)).map Line.content <+:
        (Row.fill rect.width chunks).map Row.content ∧
      ((linesOf options rect chunks).isOk →
        (placed (linesOf options rect chunks)).map Line.content =
          (Row.fill rect.width chunks).map Row.content) := by
  have hpairs := pairs_content options rect chunks
  cases hresult : linesOf options rect chunks with
  | ok lines =>
    rw [hresult] at hpairs
    have hall : lines.map Line.content = (Row.fill rect.width chunks).map Row.content :=
      map_eq_map_of_forall₂ hpairs
    exact ⟨hall ▸ List.prefix_rfl, fun _ => hall⟩
  | error overflow =>
    rw [hresult] at hpairs
    obtain ⟨n, hn⟩ := hpairs
    refine ⟨?_, fun h => (Bool.false_ne_true h).elim⟩
    rw [placed, map_eq_map_of_forall₂ hn, List.map_take]
    exact List.take_prefix n _

/-- Chunks are measured by the two options that words are spaced and stretched by. -/
theorem split_congr (hcharacter : options'.characterSpacing = options.characterSpacing)
    (hscaling : options'.horizontalScaling = options.horizontalScaling) (spans : List (Span φ α)) :
    Chunk.split options' spans = Chunk.split options spans := by
  have hspan : Chunk.splitSpan (φ := φ) options' = Chunk.splitSpan options := by
    funext s span
    simp only [Chunk.splitSpan, Chunk.measured, hcharacter, hscaling]
  rw [Chunk.split, Chunk.split, hspan]

/-- Flows of one text into rectangles of one width break it into the same lines, though one of them
may have room for more of the lines than the other. -/
theorem breaks_alike (spans : List (Span φ α)) (hwidth : rect'.width = rect.width)
    (hcharacter : options'.characterSpacing = options.characterSpacing)
    (hscaling : options'.horizontalScaling = options.horizontalScaling) :
    let a := (placed (lines options spans rect)).map Line.content
    let b := (placed (lines options' spans rect')).map Line.content
    (a <+: b ∨ b <+: a) ∧
      ((lines options spans rect).isOk → (lines options' spans rect').isOk → a = b) := by
  have hlines (options : FlowOptions α) (rect : Rectangle α) : lines options spans rect =
      if Scalar.atMost rect.width Scalar.zero then .ok []
      else linesOf options rect (Chunk.split options spans) := rfl
  intro a b
  by_cases h : Scalar.atMost rect.width Scalar.zero
  · have hnone : a = [] ∧ b = [] := by
      simp only [a, b]
      rw [hlines, hlines, hwidth, if_pos h, if_pos h]
      exact ⟨rfl, rfl⟩
    rw [hnone.1, hnone.2]
    exact ⟨.inl List.prefix_rfl, fun _ _ => rfl⟩
  · obtain ⟨hfirst, hall⟩ := content_linesOf options rect (Chunk.split options spans)
    obtain ⟨hfirst', hall'⟩ := content_linesOf options' rect' (Chunk.split options' spans)
    rw [hwidth, split_congr hcharacter hscaling] at hfirst' hall'
    simp only [a, b]
    rw [hlines, hlines options', hwidth, if_neg h, if_neg h, split_congr hcharacter hscaling]
    exact ⟨List.prefix_or_prefix_of_prefix hfirst hfirst',
      fun hok hok' => (hall hok).trans (hall' hok').symm⟩

/-- A justified flow into a high rectangle has one line more than one that is cut off. -/
theorem breaks_alike_taller :
    let courier : LoadedFont FixedWidthFont := ⟨"F1", .monospace 600 (-157)⟩
    let spans : List (Span (LoadedFont FixedWidthFont) Float32) := [⟨"a b left", courier, 12⟩]
    let options : FlowOptions Float32 :=
      { FlowOptions.standard with justify := true, vertical := .bottom, lineSpacing := 3 }
    let low : Rectangle Float32 := ⟨0, 0, 40, 20⟩
    let high : Rectangle Float32 := ⟨5, 7, 40, 100⟩
    let a := (placed (lines .standard spans low)).map Line.content
    let b := (placed (lines options spans high)).map Line.content
    (high.width = low.width ∧
        options.characterSpacing = FlowOptions.standard.characterSpacing ∧
        options.horizontalScaling = FlowOptions.standard.horizontalScaling) ∧
      (a.length = 1 ∧ b.length = 2) ∧ (a <+: b ∨ b <+: a) ∧
      ((lines .standard spans low).isOk → (lines options spans high).isOk → a = b) := by
  intro courier spans options low high a b
  have hlength : a.length = 1 ∧ b.length = 2 := by decide +kernel
  exact ⟨⟨rfl, rfl, rfl⟩, hlength, breaks_alike spans rfl rfl rfl⟩

end Flow

end PageScript
