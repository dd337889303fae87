import Mathlib.Data.List.Forall2
import PageScript.Conversion.TextFlow
import PageScript.Proofs.FlowFonts

/-!
# Flowed text keeps its letters

The lines of a flow show the letters of its spans, each of them once, in order and in its font and
size. Lines that overflow show those of a beginning of the text that ends between two words.
-/
namespace PageScript

variable {φ α : Type}

def LineSpan.glyphs (s : LineSpan φ α) : List (Glyph φ α) := Glyph.ofText s.text s.font s.size

/-- The letters of some line spans; the only blanks on a line are spaces. -/
def LineSpan.letters (spans : List (LineSpan φ α)) : List (Glyph φ α) :=
  (spans.flatMap glyphs).filter (·.char != ' ')

def Line.letters (l : Line φ α) : List (Glyph φ α) := LineSpan.letters l.spans

def Row.glyphs (row : Row φ α) : List (Glyph φ α) := row.chunks.flatMap Chunk.glyphs

namespace Flow

/-- The letters of some text, without what separates its words. -/
def letters (text : List (Glyph φ α)) : List (Glyph φ α) := text.filter (!·.isSeparator)

/-- A size that is not a number is the same as itself here, though it does not equal itself. -/
structure Alike [Scalar α] [FlowFont φ α] (a b : Glyph φ α) : Prop where
  char : a.char = b.char
  font : FlowFont.sameFont a.font b.font
  size : a.size = b.size ∨ Scalar.same a.size b.size

end Flow

section Letters

theorem Glyph.ofText_append (s t : String) (font : φ) (size : α) :
    ofText (s ++ t) font size = ofText s font size ++ ofText t font size := by
  simp [ofText]

theorem LineSpan.letters_append (a b : List (LineSpan φ α)) :
    letters (a ++ b) = letters a ++ letters b := by
  simp [letters]

theorem Line.letters_shift [Scalar α] (dy : α) (l : Line φ α) :
    (l.shift dy).letters = l.letters := by
  have h : LineSpan.glyphs ∘ LineSpan.shift dy = (LineSpan.glyphs : LineSpan φ α → _) := rfl
  simp [Line.letters, LineSpan.letters, Line.shift, List.flatMap_map, ← Function.comp_def, h]

theorem Glyph.forall_ofText {text : String} {font : φ} {size : α} :
    (∀ g ∈ ofText text font size, g.isSeparator = false) ↔
      ∀ c ∈ text.toList, Word.isSeparator c = false := by
  simp [ofText, isSeparator]

/-- What is no separator is no space. -/
theorem filter_ofText {text : String} (h : ∀ c ∈ text.toList, Word.isSeparator c = false) (font : φ)
    (size : α) : (Glyph.ofText text font size).filter (·.char != ' ') =
      Glyph.ofText text font size := by
  apply List.filter_eq_self.mpr
  intro g hg
  obtain ⟨c, hc, rfl⟩ := List.mem_map.mp hg
  have hsep := h c hc
  by_contra hspace
  have hchar : c = ' ' := by simpa using hspace
  rw [hchar] at hsep
  exact absurd hsep (by decide)

end Letters

open PageScript.Flow List

section Setting

variable [Scalar α] [FlowFont φ α]

theorem Flow.alike_ofText {font font' : φ} {size size' : α} (text : String)
    (hfont : FlowFont.sameFont font font') (hsize : size = size' ∨ Scalar.same size size') :
    Forall₂ Alike (Glyph.ofText text font size) (Glyph.ofText text font' size') := by
  rw [Glyph.ofText, Glyph.ofText, forall₂_map_left_iff, forall₂_map_right_iff, forall₂_same]
  exact fun c _ => ⟨rfl, hfont, hsize⟩

theorem Flow.alike_refl (hfont : ∀ f : φ, FlowFont.sameFont f f) (gs : List (Glyph φ α)) :
    Forall₂ Alike gs gs :=
  forall₂_same.mpr fun g _ => ⟨rfl, hfont g.font, .inl rfl⟩

section Pen

variable {baseline wordSpacing : α} {gap : Option α} {word : Word φ α}

omit [FlowFont φ α] in
theorem Pen.letters_start {pen : Pen φ α}
    (hw : ∀ c ∈ word.text.toList, Word.isSeparator c = false) :
    LineSpan.letters (start baseline wordSpacing pen gap word).spans.reverse =
      LineSpan.letters pen.spans.reverse ++ word.glyphs := by
  simp only [start, List.reverse_cons, LineSpan.letters_append]
  simp [LineSpan.letters, LineSpan.glyphs, Word.glyphs, filter_ofText hw]

omit [FlowFont φ α] in
theorem Pen.letters_extend {span : LineSpan φ α} {before : List (LineSpan φ α)} {x : α}
    (hw : ∀ c ∈ word.text.toList, Word.isSeparator c = false) :
    LineSpan.letters (extend span before x gap word).spans.reverse =
      LineSpan.letters (span :: before).reverse ++ Glyph.ofText word.text span.font span.size := by
  have hspace : (Glyph.ofText " " span.font span.size).filter (·.char != ' ') = [] := rfl
  cases gap <;> simp only [extend, List.reverse_cons, LineSpan.letters_append] <;>
    simp [LineSpan.letters, LineSpan.glyphs, Glyph.ofText_append, filter_ofText hw, hspace]

/-- A word is set behind the letters that have been set, in its font and size or in those of a span
that cannot be told from them. -/
theorem Pen.letters_place (hfont : ∀ f : φ, FlowFont.sameFont f f) {pen : Pen φ α}
    {gs : List (Glyph φ α)} (h : Forall₂ Alike (LineSpan.letters pen.spans.reverse) gs)
    (hw : ∀ g ∈ word.glyphs, g.isSeparator = false) :
    Forall₂ Alike (LineSpan.letters (place baseline wordSpacing pen (gap, word)).spans.reverse)
      (gs ++ word.glyphs) := by
  have hchars := Glyph.forall_ofText.mp hw
  have hstart : Forall₂ Alike
      (LineSpan.letters (start baseline wordSpacing pen gap word).spans.reverse)
      (gs ++ word.glyphs) := by
    rw [letters_start hchars]
    exact rel_append h (alike_refl hfont _)
  unfold place
  split
  · next span before hspans =>
    split
    · next hmerge =>
      obtain ⟨hsize, hsame⟩ := Bool.and_eq_true_iff.mp hmerge
      rw [letters_extend hchars, ← hspans]
      exact rel_append h (alike_ofText word.text hsame (.inr hsize))
    · exact hstart
  · exact hstart

end Pen

namespace Row

/-- A line shows the letters of its chunks. -/
theorem letters_layOut (hfont : ∀ f : φ, FlowFont.sameFont f f)
    {scaling left baseline height extra : α} {row : Row φ α}
    (hg : ∀ g ∈ row.glyphs, g.isSeparator = false) :
    Forall₂ Alike (layOut scaling left baseline height extra row.chunks).letters row.glyphs := by
  have hfold (wordSpacing : α) (ps : List (Option α × Word φ α)) (pen : Pen φ α)
      (gs : List (Glyph φ α)) (h : Forall₂ Alike (LineSpan.letters pen.spans.reverse) gs)
      (hps : ∀ g ∈ (ps.map Prod.snd).flatMap Word.glyphs, g.isSeparator = false) :
      Forall₂ Alike
        (LineSpan.letters (ps.foldl (Pen.place baseline wordSpacing) pen).spans.reverse)
        (gs ++ (ps.map Prod.snd).flatMap Word.glyphs) := by
    induction ps generalizing pen gs with
    | nil => simpa using h
    | cons p ps ih =>
      simp only [List.map_cons, List.flatMap_cons, List.forall_mem_append] at hps
      rw [List.map_cons, List.flatMap_cons, ← List.append_assoc]
      exact ih _ _ (Pen.letters_place hfont h hps.1) hps.2
  have hwords : ((pieces extra none row.chunks).map Prod.snd).flatMap Word.glyphs = row.glyphs := by
    rw [words_pieces, List.flatMap_assoc]
    rfl
  rw [← hwords] at hg ⊢
  exact hfold _ _ ⟨[], left⟩ [] .nil hg

end Row

/-- The line shows the row. -/
def Line.Shows (line : Line φ α) (row : Row φ α) : Prop := Forall₂ Alike line.letters row.glyphs

/-- All rows are shown, or as many of them as fit. -/
def Flow.Shows (rows : List (Row φ α)) : Except (Overflow φ α) (List (Line φ α)) → Prop
  | .ok lines => Forall₂ Line.Shows lines rows
  | .error overflow => ∃ n, Forall₂ Line.Shows overflow.lines (rows.take n)

namespace Column

variable {options : FlowOptions α} {rect : Rectangle α}

theorem shows_placeAll (options : FlowOptions α) (rect : Rectangle α)
    (hfont : ∀ f : φ, FlowFont.sameFont f f) (column : Column φ α) {done rows : List (Row φ α)}
    (h : Forall₂ Line.Shows column.lines.reverse done)
    (hg : ∀ row ∈ rows, ∀ g ∈ row.glyphs, g.isSeparator = false) :
    Flow.Shows (done ++ rows) ((placeAll options rect column rows).map (·.lines.reverse)) :=
  pairs_placeAll column (fun row hrow _ _ => Row.letters_layOut hfont (hg row hrow)) h

theorem shows_align {column : Column φ α} {rows : List (Row φ α)}
    (h : Forall₂ Line.Shows column.lines.reverse rows) :
    Flow.Shows rows (align options rect column) := by
  refine pairs_align (fun line row dy hs => ?_) h
  rwa [Line.Shows, Line.letters_shift]

end Column

namespace Flow

/-- The letters of some text are those of some lines, or some lines that overflow have those of a
beginning of it that does not end inside a word. -/
def Keeps (text : List (Glyph φ α)) : Except (Overflow φ α) (List (Line φ α)) → Prop
  | .ok lines => Forall₂ Alike (lines.flatMap Line.letters) (letters text)
  | .error overflow => ∃ before behind, text = before ++ behind ∧
      Parted Glyph.isSeparator before behind ∧
      Forall₂ Alike (overflow.lines.flatMap Line.letters) (letters before)

omit [Scalar α] [FlowFont φ α] in
theorem flatten_letters (text : List (Glyph φ α)) :
    (runs Glyph.isSeparator text).flatten = letters text := flatten_runs

theorem letters_of_shows {lines : List (Line φ α)} {rows : List (Row φ α)}
    (h : Forall₂ Line.Shows lines rows) :
    Forall₂ Alike (lines.flatMap Line.letters) (rows.flatMap Row.glyphs) :=
  rel_flatMap h fun _ _ hs => hs

/-- Rows that have the words of a text in order show its letters. -/
theorem keeps_of_shows {text : List (Glyph φ α)} {rows : List (Row φ α)}
    {result : Except (Overflow φ α) (List (Line φ α))}
    (hrows : (rows.flatMap Row.chunks).map Chunk.glyphs = runs Glyph.isSeparator text)
    (h : Shows rows result) : Keeps text result := by
  have hglyphs (some : List (Row φ α)) :
      some.flatMap Row.glyphs = ((some.flatMap Row.chunks).map Chunk.glyphs).flatten := by
    rw [← List.flatMap_def, List.flatMap_assoc]
    rfl
  cases result with
  | ok lines =>
    have hall := letters_of_shows h
    rwa [hglyphs, hrows, flatten_letters] at hall
  | error overflow =>
    obtain ⟨n, hn⟩ := h
    have hfirst := letters_of_shows hn
    have hsplit : (rows.take n).flatMap Row.chunks ++ (rows.drop n).flatMap Row.chunks =
        rows.flatMap Row.chunks := by
      rw [← List.flatMap_append, List.take_append_drop]
    have htake : ((rows.take n).flatMap Row.chunks).map Chunk.glyphs =
        (runs Glyph.isSeparator text).take ((rows.take n).flatMap Row.chunks).length := by
      rw [← hrows, ← hsplit, List.map_append, List.take_left']
      simp
    obtain ⟨before, behind, htext, hparted, hruns⟩ :=
      exists_take_runs Glyph.isSeparator text ((rows.take n).flatMap Row.chunks).length
    refine ⟨before, behind, htext, hparted, ?_⟩
    rwa [hglyphs, htake, ← hruns, flatten_letters] at hfirst

/-- A flow into a rectangle that has a width shows its text, letter by letter. -/
theorem keeps_lines (options : FlowOptions α) (spans : List (Span φ α)) (rect : Rectangle α)
    (hfont : ∀ f : φ, FlowFont.sameFont f f) (hwidth : ¬ Scalar.atMost rect.width Scalar.zero) :
    Keeps (text spans) (lines options spans rect) := by
  have hrows : ((Row.fill rect.width (Chunk.split options spans)).flatMap Row.chunks).map
      Chunk.glyphs = runs Glyph.isSeparator (text spans) := by
    rw [Row.chunks_fill, Chunk.glyphs_split]
  have hnone : ∀ row ∈ Row.fill rect.width (Chunk.split options spans), ∀ g ∈ row.glyphs,
      g.isSeparator = false := by
    intro row hrow g hg
    have hall : g ∈ letters (text spans) := by
      rw [← flatten_letters, ← hrows, ← List.flatMap_def, List.flatMap_assoc]
      exact List.mem_flatMap.mpr ⟨row, hrow, hg⟩
    simpa using (List.mem_filter.mp hall).2
  have hplaced := Column.shows_placeAll options rect hfont ⟨[], rect.height, rect.top⟩ .nil hnone
  apply keeps_of_shows hrows
  rw [lines, if_neg hwidth]
  dsimp only
  cases hp : Column.placeAll options rect ⟨[], rect.height, rect.top⟩
      (Row.fill rect.width (Chunk.split options spans)) with
  | ok column =>
    rw [hp] at hplaced
    exact Column.shows_align hplaced
  | error overflow =>
    rw [hp] at hplaced
    exact hplaced

end Flow

end Setting

/-- Two spans of one word each and a rectangle with room for one of them. -/
theorem Flow.keeps_lines_courier :
    let courier : LoadedFont FixedWidthFont := ⟨"F1", .monospace 600 (-157)⟩
    let spans : List (Span (LoadedFont FixedWidthFont) Float32) :=
      [⟨"left ", courier, 12⟩, ⟨"out", courier, 12⟩]
    let rect : Rectangle Float32 := ⟨0, 0, 40, 20⟩
    (∀ f : LoadedFont FixedWidthFont, FlowFont.sameFont f f) ∧
      ¬ Scalar.atMost rect.width Scalar.zero ∧
      Keeps (text spans) (lines .standard spans rect) := by
  intro courier spans rect
  have hfont : ∀ f : LoadedFont FixedWidthFont, FlowFont.sameFont f f :=
    fun f => beq_self_eq_true f.handle
  have hwidth : ¬ Scalar.atMost rect.width Scalar.zero := by decide +kernel
  exact ⟨hfont, hwidth, keeps_lines .standard spans rect hfont hwidth⟩

end PageScript
