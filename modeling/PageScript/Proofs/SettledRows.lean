import Mathlib.Data.List.Destutter
import Mathlib.Data.List.Forall2
import PageScript.Conversion.TextFlow
import PageScript.Proofs.FlowFonts

/-!
# Settled rows

Where a line stands, and how far it reaches down, follows from its row and the rows around it; the
widths of words and the ways in which lines are aligned sideways have no part in it once the rows
are there. Rows are stacked for as long as their heights fit. The last one is tried with its
descent, and only if no row is left over.
-/
namespace PageScript

open List (Forall₂)

variable {φ α : Type}

def LineSpan.style (s : LineSpan φ α) : φ × α := (s.font, s.size)

def Word.style (w : Word φ α) : φ × α := (w.font, w.size)

/-- A row with the baseline that it gets. -/
structure PlacedRow (φ α : Type) where
  row : Row φ α
  baseline : α

def Row.words (row : Row φ α) : List (Word φ α) := row.chunks.flatMap Chunk.words

variable [Scalar α]

def PlacedRow.shift (dy : α) (p : PlacedRow φ α) : PlacedRow φ α :=
  { p with baseline := p.baseline + dy }

/-- How far lines are moved that leave `slack` free. -/
def FlowOptions.move (options : FlowOptions α) (slack : α) : α :=
  match options.vertical with
  | .top => Scalar.zero
  | .middle => -slack / Scalar.ofNat 2
  | .bottom => -slack

/-- The baselines of rows below each other, for as long as they fit. There is no space above the
first one. -/
def Column.stack (options : FlowOptions α) (first : Bool) (remaining baseline : α) :
    List (Row φ α) → List (PlacedRow φ α)
  | [] => []
  | row :: rows =>
    let spacing := if first then Scalar.zero else options.lineSpacing
    let left := remaining - (row.height + spacing)
    let next := baseline - (spacing + row.height)
    if Scalar.less left Scalar.zero then []
    else ⟨row, next⟩ :: stack options false left next rows

variable [FlowFont φ α]

/-- Words in the two styles do not share a span. -/
def Differ (a b : φ × α) : Prop := (Scalar.same a.2 b.2 && FlowFont.sameFont a.1 b.1) = false

instance : DecidableRel (@Differ φ α _ _) := fun _ _ => inferInstanceAs (Decidable (_ = false))

/-- The styles that follow each other on a row. -/
def Row.styles (row : Row φ α) : List (φ × α) := (row.words.map Word.style).destutter Differ

/-- How far the row reaches below its baseline. -/
def Row.descent (row : Row φ α) : α :=
  Scalar.greatest (row.styles.map fun s => FontMetrics.descent s.1 s.2)

namespace PlacedRow

/-- How far the row reaches below the top of the rectangle. -/
def reach (rect : Rectangle α) (p : PlacedRow φ α) : α := rect.top - p.baseline + p.row.descent

/-- The row does not reach further down than the rectangle is high. -/
def Fits (rect : Rectangle α) (p : PlacedRow φ α) : Prop :=
  Scalar.less rect.height (p.reach rect) = false

end PlacedRow

/-- What becomes of rows of which none is left over: the last one is dropped if it does not fit with
its descent, and all are moved if it does. -/
def Column.settle (options : FlowOptions α) (rect : Rectangle α) (placed : List (PlacedRow φ α)) :
    List (PlacedRow φ α) :=
  match placed.getLast? with
  | none => []
  | some last =>
    if Scalar.less rect.height (last.reach rect) then placed.dropLast
    else
      let dy := options.move (rect.height - last.reach rect)
      if Scalar.same dy Scalar.zero then placed else placed.map (PlacedRow.shift dy)

/-! ### Rows as lines -/

/-- A line is what becomes of a row at its baseline. -/
structure Line.Sets (line : Line φ α) (p : PlacedRow φ α) : Prop where
  styles : line.spans.map LineSpan.style = p.row.styles
  baseline : ∀ s ∈ line.spans, s.baseline = p.baseline

namespace Line.Sets

variable {line : Line φ α} {p : PlacedRow φ α}

theorem descent (h : line.Sets p) : line.descent = p.row.descent := by
  rw [Line.descent, Row.descent, ← h.styles, List.map_map]
  rfl

theorem shift (h : line.Sets p) (dy : α) : (line.shift dy).Sets (p.shift dy) where
  styles := by
    rw [PlacedRow.shift, ← h.styles, Line.shift, List.map_map]
    rfl
  baseline := by
    intro s hs
    obtain ⟨t, ht, rfl⟩ := List.mem_map.mp hs
    exact congrArg (· + dy) (h.baseline t ht)

end Line.Sets

namespace Row

variable (baseline wordSpacing : α) {pen : Pen φ α}

/-- A word goes on with the last span, or starts one of its own, as its style tells. -/
theorem styles_place {style : φ × α} {before : List (φ × α)}
    (h : pen.spans.map LineSpan.style = style :: before) (piece : Option α × Word φ α) :
    (Pen.place baseline wordSpacing pen piece).spans.map LineSpan.style =
      if Differ style piece.2.style then piece.2.style :: style :: before
      else style :: before := by
  obtain ⟨span, spans, hspans, rfl, rfl⟩ := List.map_eq_cons_iff.mp h
  unfold Pen.place
  rw [hspans]
  dsimp only
  by_cases hs : Scalar.same span.size piece.2.size && FlowFont.sameFont span.font piece.2.font
  · have hsame : ¬ Differ span.style piece.2.style := fun h => Bool.false_ne_true (h.symm.trans hs)
    rw [if_pos hs, if_neg hsame]
    obtain ⟨_ | gap, word⟩ := piece <;> rfl
  · have hdiffer : Differ span.style piece.2.style := (Bool.not_eq_true _).mp hs
    rw [if_neg hs, if_pos hdiffer, Pen.start, hspans]
    rfl

theorem styles_fold {style : φ × α} {before : List (φ × α)}
    (h : pen.spans.map LineSpan.style = style :: before)
    (pieces : List (Option α × Word φ α)) :
    (pieces.foldl (Pen.place baseline wordSpacing) pen).spans.reverse.map LineSpan.style =
      before.reverse ++ (pieces.map fun p => p.2.style).destutter' Differ style := by
  induction pieces generalizing pen style before with
  | nil => simp [h]
  | cons piece pieces ih =>
    have hplace := styles_place baseline wordSpacing h piece
    rw [List.foldl_cons, List.map_cons]
    by_cases hd : Differ style piece.2.style
    · rw [if_pos hd] at hplace
      rw [ih hplace, List.destutter'_cons_pos _ hd]
      simp
    · rw [if_neg hd] at hplace
      rw [ih hplace, List.destutter'_cons_neg _ hd]

theorem sets_layOut (scaling left baseline height extra : α) (row : Row φ α) :
    (layOut scaling left baseline height extra row.chunks).Sets ⟨row, baseline⟩ where
  styles := by
    have hwords : row.words.map Word.style =
        (pieces extra none row.chunks).map fun p => p.2.style := by
      rw [words, ← words_pieces extra none row.chunks, List.map_map]
      rfl
    rw [styles, hwords, layOut]
    dsimp only
    generalize (if Scalar.same extra Scalar.zero || Scalar.same scaling Scalar.zero then
      Scalar.zero else extra / scaling) = wordSpacing
    cases pieces extra none row.chunks with
    | nil => rfl
    | cons piece pieces =>
      have hstart : (Pen.place baseline wordSpacing ⟨[], left⟩ piece).spans.map LineSpan.style =
        [piece.2.style] := rfl
      exact styles_fold baseline _ hstart pieces
  baseline := by
    intro s hs
    have hnone : ∀ s ∈ (⟨[], left⟩ : Pen φ α).spans, s.baseline = baseline := by simp
    exact forall_fold (fun _ _ _ => id) (fun _ _ _ => rfl) hnone s (List.mem_reverse.mp hs)

end Row

/-! ### Rows below each other -/

namespace Column

variable {options : FlowOptions α} {rect : Rectangle α} {column : Column φ α}
  {placed : List (PlacedRow φ α)}

/-- The lines of a column, the last one first, are the rows that have been placed. -/
structure Holds (column : Column φ α) (placed : List (PlacedRow φ α)) : Prop where
  lines : Forall₂ Line.Sets column.lines placed.reverse
  baseline : ∀ p ∈ placed.getLast?, column.baseline = p.baseline

theorem Holds.isEmpty (h : column.Holds placed) : column.lines.isEmpty = placed.isEmpty := by
  have hl := h.lines.length_eq
  rw [List.length_reverse] at hl
  rw [Bool.eq_iff_iff, List.isEmpty_iff_length_eq_zero, List.isEmpty_iff_length_eq_zero, hl]

theorem Holds.forward (h : column.Holds placed) :
    Forall₂ Line.Sets column.lines.reverse placed := by
  simpa using List.rel_reverse h.lines

theorem Holds.snoc {line : Line φ α} {p : PlacedRow φ α} (h : column.Holds placed)
    (remaining : α) (hl : line.Sets p) :
    Holds ⟨line :: column.lines, remaining, p.baseline⟩ (placed ++ [p]) where
  lines := by simpa using ⟨hl, h.lines⟩
  baseline := by simp

theorem place_next (options : FlowOptions α) (rect : Rectangle α) (isLast : Bool)
    (column : Column φ α) (row : Row φ α) :
    let spacing := if column.lines.isEmpty then Scalar.zero else options.lineSpacing
    let left := column.remaining - (row.height + spacing)
    let next := column.baseline - (spacing + row.height)
    (Scalar.less left Scalar.zero = true ∧
        place options rect isLast column row = .error ⟨column.lines.reverse⟩) ∨
      (Scalar.less left Scalar.zero = false ∧ ∃ line : Line φ α, line.Sets ⟨row, next⟩ ∧
        place options rect isLast column row = .ok ⟨line :: column.lines, left, next⟩) := by
  intro spacing left next
  unfold place
  dsimp only
  by_cases hless : Scalar.less left Scalar.zero
  · exact .inl ⟨hless, if_pos hless⟩
  · exact .inr ⟨(Bool.not_eq_true _).mp hless, _, Row.sets_layOut .., if_neg hless⟩

/-- A column goes on as the heights of its rows tell, and overflows where they do not fit. -/
theorem Holds.placeAll (h : column.Holds placed) (options : FlowOptions α) (rect : Rectangle α)
    (rows : List (Row φ α)) :
    let next := stack options placed.isEmpty column.remaining column.baseline rows
    match column.placeAll options rect rows with
    | .ok column' => column'.Holds (placed ++ next) ∧ next.length = rows.length
    | .error overflow =>
      Forall₂ Line.Sets overflow.lines (placed ++ next) ∧ next.length < rows.length := by
  induction rows generalizing column placed with
  | nil => simpa [Column.placeAll, stack] using h
  | cons row rows ih =>
    have hplace := place_next options rect rows.isEmpty column row
    rw [h.isEmpty] at hplace
    rw [Column.placeAll, stack]
    dsimp only at hplace ⊢
    generalize (if placed.isEmpty then Scalar.zero else options.lineSpacing) = spacing at hplace ⊢
    rcases hplace with ⟨hless, herror⟩ | ⟨hless, line, hline, hok⟩
    · rw [herror, hless]
      simpa using h.forward
    · have hnext := ih (h.snoc (column.remaining - (row.height + spacing)) hline)
      have hsome (p : PlacedRow φ α) : (placed ++ [p]).isEmpty = false := by simp
      rw [hsome] at hnext
      rw [hok, hless]
      simpa using hnext

theorem align_eq (options : FlowOptions α) (rect : Rectangle α) (column : Column φ α) :
    align options rect column =
      let descent := (column.lines.head?.map Line.descent).getD Scalar.zero
      let content := rect.top - column.baseline + descent
      let dy := options.move (rect.height - content)
      if Scalar.less rect.height content then .error ⟨column.lines.tail.reverse⟩
      else if Scalar.same dy Scalar.zero then .ok column.lines.reverse
      else .ok (column.lines.reverse.map (Line.shift dy)) := rfl

/-- What is tried of a column is how far its last row reaches. -/
theorem Holds.content {last : PlacedRow φ α} (h : column.Holds placed)
    (hlast : placed.getLast? = some last) (rect : Rectangle α) :
    rect.top - column.baseline + (column.lines.head?.map Line.descent).getD Scalar.zero =
      last.reach rect := by
  obtain ⟨before, rfl⟩ := List.getLast?_eq_some_iff.mp hlast
  have hlines := h.lines
  rw [List.reverse_append, List.reverse_singleton, List.singleton_append,
    List.forall₂_cons_right_iff] at hlines
  obtain ⟨line, lines, hline, -, hcolumn⟩ := hlines
  rw [h.baseline last hlast, hcolumn, PlacedRow.reach, ← hline.descent]
  rfl

/-- The lines of a column are dropped and moved as its rows are. -/
theorem Holds.align (h : column.Holds placed) (options : FlowOptions α) (rect : Rectangle α) :
    Forall₂ Line.Sets (Flow.placed (column.align options rect)) (settle options rect placed) := by
  rw [align_eq, settle]
  dsimp only
  cases hlast : placed.getLast? with
  | none =>
    have hnone : column.lines = [] := by simpa [List.getLast?_eq_none_iff.mp hlast] using h.lines
    rw [hnone]
    split
    · exact .nil
    · split <;> exact .nil
  | some last =>
    rw [h.content hlast]
    dsimp only
    split
    · rw [Flow.placed, ← List.dropLast_reverse, List.dropLast_eq_take, List.dropLast_eq_take,
        h.forward.length_eq]
      exact List.forall₂_take _ h.forward
    · split
      · exact h.forward
      · exact List.rel_map (fun _ _ hsets => hsets.shift _) h.forward

end Column

namespace Flow

variable (options : FlowOptions α) (spans : List (Span φ α)) (rect : Rectangle α)

/-- The rows of a flow. There are none in a rectangle without width. -/
def rows : List (Row φ α) :=
  if Scalar.atMost rect.width Scalar.zero then []
  else Row.fill rect.width (Chunk.split options spans)

/-- The rows of a flow for which the rectangle is high enough, whatever their descents. -/
def stacked : List (PlacedRow φ α) :=
  Column.stack options true rect.height rect.top (rows options spans rect)

/-- The rows that a flow gets into its rectangle. If one is left over, no descent is tried. -/
def settled : List (PlacedRow φ α) :=
  if (stacked options spans rect).length < (rows options spans rect).length then
    stacked options spans rect
  else Column.settle options rect (stacked options spans rect)

variable {rect}

theorem stacked_of_narrow (h : Scalar.atMost rect.width Scalar.zero) :
    stacked options spans rect = [] := by
  rw [stacked, rows, if_pos h, Column.stack]

/-- A flow into a rectangle that has a width stacks its rows, and aligns them if none is left. -/
theorem lines_cases (h : ¬ Scalar.atMost rect.width Scalar.zero) :
    (∃ overflow, lines options spans rect = .error overflow ∧
        Forall₂ Line.Sets overflow.lines (stacked options spans rect) ∧
        (stacked options spans rect).length < (rows options spans rect).length) ∨
      ∃ column, lines options spans rect = Column.align options rect column ∧
        column.Holds (stacked options spans rect) ∧
        (stacked options spans rect).length = (rows options spans rect).length := by
  have hstart : Column.Holds (⟨[], rect.height, rect.top⟩ : Column φ α) [] := ⟨.nil, by simp⟩
  have hall := hstart.placeAll options rect (rows options spans rect)
  dsimp only [List.isEmpty_nil, List.nil_append] at hall
  rw [lines, if_neg h]
  rw [rows, if_neg h] at hall
  rw [stacked, rows, if_neg h]
  dsimp only
  revert hall
  cases Column.placeAll options rect ⟨[], rect.height, rect.top⟩
      (Row.fill rect.width (Chunk.split options spans)) with
  | error overflow => exact fun ⟨hlines, hlength⟩ => .inl ⟨overflow, rfl, hlines, hlength⟩
  | ok column => exact fun ⟨hholds, hlength⟩ => .inr ⟨column, rfl, hholds, hlength⟩

variable (rect) in
/-- The lines of a flow are the rows that it gets into its rectangle. -/
theorem lines_settled :
    Forall₂ Line.Sets (placed (lines options spans rect)) (settled options spans rect) := by
  unfold settled
  by_cases h : Scalar.atMost rect.width Scalar.zero
  · rw [stacked_of_narrow options spans h, rows, if_pos h, lines, if_pos h]
    exact .nil
  · rcases lines_cases options spans h with
      ⟨overflow, hlines, hsets, hlength⟩ | ⟨column, hlines, hholds, hlength⟩
    · rw [hlines, if_pos hlength]
      exact hsets
    · rw [hlines, if_neg (Nat.not_lt.mpr hlength.ge)]
      exact hholds.align options rect

variable {options spans} in
/-- If a flow has room for all of its text, no row is left over, and the last one has been found to
fit. -/
theorem settled_of_ok {ls : List (Line φ α)} (h : lines options spans rect = .ok ls) :
    (stacked options spans rect).length = (rows options spans rect).length ∧
      settled options spans rect = Column.settle options rect (stacked options spans rect) ∧
      ∀ last ∈ (stacked options spans rect).getLast?, last.Fits rect := by
  unfold settled
  by_cases hw : Scalar.atMost rect.width Scalar.zero
  · rw [stacked_of_narrow options spans hw, rows, if_pos hw]
    simp
  · rcases lines_cases options spans hw with
      ⟨overflow, hlines, -⟩ | ⟨column, hlines, hholds, hlength⟩
    · cases hlines.symm.trans h
    · refine ⟨hlength, if_neg (Nat.not_lt.mpr hlength.ge), fun last hlast => ?_⟩
      rw [hlines, Column.align_eq] at h
      dsimp only at h
      rw [hholds.content hlast] at h
      refine (Bool.not_eq_true _).mp fun hless => ?_
      rw [if_pos hless] at h
      cases h

variable {options spans} in
/-- If a flow overflows, a row is left over, or the last one is dropped since it does not fit. -/
theorem settled_of_error {overflow : Overflow φ α}
    (h : lines options spans rect = .error overflow) :
    (stacked options spans rect).length < (rows options spans rect).length ∧
        settled options spans rect = stacked options spans rect ∨
      (stacked options spans rect).length = (rows options spans rect).length ∧
        settled options spans rect = (stacked options spans rect).dropLast ∧
        ∀ last ∈ (stacked options spans rect).getLast?, ¬ last.Fits rect := by
  unfold settled
  by_cases hw : Scalar.atMost rect.width Scalar.zero
  · rw [lines, if_pos hw] at h
    cases h
  · rcases lines_cases options spans hw with ⟨_, -, -, hlength⟩ | ⟨column, hlines, hholds, hlength⟩
    · exact .inl ⟨hlength, if_pos hlength⟩
    · rw [if_neg (Nat.not_lt.mpr hlength.ge), Column.settle]
      refine .inr ⟨hlength, ?_⟩
      cases hlast : (stacked options spans rect).getLast? with
      | none =>
        rw [List.getLast?_eq_none_iff.mp hlast]
        exact ⟨rfl, by simp⟩
      | some last =>
        rw [hlines, Column.align_eq] at h
        dsimp only at h ⊢
        rw [hholds.content hlast] at h
        by_cases hless : Scalar.less rect.height (last.reach rect)
        · refine ⟨if_pos hless, ?_⟩
          rintro _ ⟨⟩ hfits
          exact Bool.false_ne_true (hfits.symm.trans hless)
        · rw [if_neg hless] at h
          split at h <;> cases h

end Flow

end PageScript
