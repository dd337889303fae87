import PageScript.Proofs.Descenders

/-!
# Stacked lines

A flow sets a line for each row that gets into its rectangle, where the row stands. Where nothing is
rounded, the lines stand below each other in the rectangle, and the block of them is at its top, at
its bottom or midway, as is asked for.
-/
namespace PageScript

open List (Forall₂)

variable {φ α : Type}

/-- For each of some rows, whether it is the last one. -/
def Row.lasts : List (Row φ α) → List Bool
  | [] => []
  | _ :: rows => rows.isEmpty :: lasts rows

theorem Row.length_lasts (rows : List (Row φ α)) : (lasts rows).length = rows.length := by
  induction rows with
  | nil => rfl
  | cons row rows ih => rw [lasts, List.length_cons, List.length_cons, ih]

variable [Scalar α] [FlowFont φ α]

/-- The line of a row where it stands. -/
def PlacedRow.line (options : FlowOptions α) (rect : Rectangle α) (isLast : Bool)
    (p : PlacedRow φ α) : Line φ α :=
  p.row.line options rect isLast p.baseline

variable {options : FlowOptions α} {rect : Rectangle α}

theorem PlacedRow.line_shift (isLast : Bool) (dy : α) (p : PlacedRow φ α) :
    (p.line options rect isLast).shift dy = (p.shift dy).line options rect isLast :=
  Row.line_shift options rect isLast p.baseline dy p.row

namespace Column

theorem place_eq (options : FlowOptions α) (rect : Rectangle α) (isLast : Bool)
    (column : Column φ α) (row : Row φ α) : place options rect isLast column row =
      let spacing := if column.lines.isEmpty then Scalar.zero else options.lineSpacing
      let left := column.remaining - (row.height + spacing)
      let next := column.baseline - (spacing + row.height)
      if Scalar.less left Scalar.zero then .error ⟨column.lines.reverse⟩
      else .ok ⟨PlacedRow.line options rect isLast ⟨row, next⟩ :: column.lines, left, next⟩ := rfl

/-- The lines of a column are those of its rows, as many of them as fit. -/
theorem lines_placeAll (options : FlowOptions α) (rect : Rectangle α) (column : Column φ α)
    (rows : List (Row φ α)) :
    Flow.placed ((placeAll options rect column rows).map (·.lines.reverse)) =
      column.lines.reverse ++ List.zipWith (PlacedRow.line options rect) (Row.lasts rows)
        (stack options column.lines.isEmpty column.remaining column.baseline rows) := by
  induction rows generalizing column with
  | nil => simp [placeAll, stack, Row.lasts, Except.map, Flow.placed]
  | cons row rows ih =>
    rw [placeAll, place_eq, stack, Row.lasts]
    dsimp only
    generalize (if column.lines.isEmpty then Scalar.zero else options.lineSpacing) = spacing
    by_cases hless : Scalar.less (column.remaining - (row.height + spacing)) Scalar.zero
    · rw [if_pos hless, if_pos hless]
      simp [Except.map, Flow.placed]
    · rw [if_neg hless, if_neg hless]
      dsimp only
      rw [ih]
      simp

theorem zipWith_take {β γ δ : Type} (f : β → γ → δ) (xs : List β) (ys : List γ) (n : Nat) :
    List.zipWith f xs (ys.take n) = (List.zipWith f xs ys).take n := by
  induction xs generalizing ys n with
  | nil => simp
  | cons x xs ih => cases ys <;> cases n <;> simp [ih]

/-- Lines are dropped and moved as their rows are. -/
theorem Holds.lines_align {column : Column φ α} {placed : List (PlacedRow φ α)} {lasts : List Bool}
    (h : column.Holds placed)
    (hlines : column.lines.reverse = List.zipWith (PlacedRow.line options rect) lasts placed) :
    Flow.placed (Column.align options rect column) =
      List.zipWith (PlacedRow.line options rect) lasts (settle options rect placed) := by
  rw [align_eq, settle]
  dsimp only
  cases hlast : placed.getLast? with
  | none =>
    have hnone : column.lines = [] := by simpa [List.getLast?_eq_none_iff.mp hlast] using h.lines
    rw [hnone, List.zipWith_nil_right]
    split
    · rfl
    · split <;> rfl
  | some last =>
    rw [h.content hlast]
    dsimp only
    split
    · have hlength : column.lines.reverse.length = placed.length := h.forward.length_eq
      rw [Flow.placed, ← List.dropLast_reverse, List.dropLast_eq_take, List.dropLast_eq_take,
        hlength, hlines, zipWith_take]
    · split
      · exact hlines
      · rw [Flow.placed, hlines, List.map_zipWith, List.zipWith_map_right]
        simp only [PlacedRow.line_shift]

omit [FlowFont φ α] in
theorem rows_stack (options : FlowOptions α) (first : Bool) (remaining baseline : α)
    (rows : List (Row φ α)) :
    (stack options first remaining baseline rows).map PlacedRow.row <+: rows := by
  induction rows generalizing first remaining baseline with
  | nil => exact List.prefix_rfl
  | cons row rows ih =>
    rw [stack]
    generalize (if first then Scalar.zero else options.lineSpacing) = spacing
    split
    · exact List.nil_prefix
    · exact List.cons_prefix_cons.mpr ⟨rfl, ih ..⟩

theorem rows_settle (options : FlowOptions α) (rect : Rectangle α)
    (placed : List (PlacedRow φ α)) :
    (settle options rect placed).map PlacedRow.row <+: placed.map PlacedRow.row := by
  unfold settle
  cases placed.getLast? with
  | none => exact List.nil_prefix
  | some last =>
    dsimp only
    split
    · exact (List.dropLast_prefix placed).map _
    · split
      · exact List.prefix_rfl
      · rw [List.map_map]
        exact List.prefix_rfl

end Column

namespace Flow

theorem mem_fill_of_mem_rows {options : FlowOptions α} {spans : List (Span φ α)}
    {rect : Rectangle α} {row : Row φ α} (h : row ∈ rows options spans rect) :
    row ∈ Row.fill rect.width (Chunk.split options spans) := by
  unfold rows at h
  split at h
  · cases h
  · exact h

/-- A flow gets the first of its rows into its rectangle. -/
theorem rows_settled (options : FlowOptions α) (spans : List (Span φ α)) (rect : Rectangle α) :
    (settled options spans rect).map PlacedRow.row <+: rows options spans rect := by
  unfold settled
  split
  · exact Column.rows_stack ..
  · exact (Column.rows_settle ..).trans (Column.rows_stack ..)

/-- The lines of a flow are those of the rows that it gets into its rectangle. -/
theorem placed_lines (options : FlowOptions α) (spans : List (Span φ α)) (rect : Rectangle α) :
    placed (lines options spans rect) = List.zipWith (PlacedRow.line options rect)
      (Row.lasts (rows options spans rect)) (settled options spans rect) := by
  unfold settled
  by_cases h : Scalar.atMost rect.width Scalar.zero
  · rw [stacked_of_narrow options spans h, rows, if_pos h, lines, if_pos h]
    rfl
  · have hrows : rows options spans rect = Row.fill rect.width (Chunk.split options spans) :=
      if_neg h
    have hstart : Column.Holds (⟨[], rect.height, rect.top⟩ : Column φ α) [] := ⟨.nil, by simp⟩
    have hholds := hstart.placeAll options rect (rows options spans rect)
    have hplaced := Column.lines_placeAll options rect
      ⟨[], rect.height, rect.top⟩ (rows options spans rect)
    dsimp only [List.isEmpty_nil, List.nil_append, List.reverse_nil] at hholds hplaced
    rw [lines, if_neg h, ← hrows]
    rw [← stacked] at hholds hplaced
    dsimp only
    cases hp : Column.placeAll options rect ⟨[], rect.height, rect.top⟩
        (rows options spans rect) with
    | error overflow =>
      rw [hp] at hholds hplaced
      rw [if_pos hholds.2]
      exact hplaced
    | ok column =>
      rw [hp] at hholds hplaced
      rw [if_neg (Nat.not_lt.mpr hholds.2.ge)]
      exact hholds.1.lines_align hplaced

/-- Every line stands where its row does. -/
theorem lines_stand (options : FlowOptions α) (spans : List (Span φ α)) (rect : Rectangle α) :
    Forall₂ (fun line p => ∃ isLast, line = PlacedRow.line options rect isLast p)
      (placed (lines options spans rect)) (settled options spans rect) := by
  have hlength : (settled options spans rect).length ≤
      (Row.lasts (rows options spans rect)).length := by
    have hle := (rows_settled options spans rect).length_le
    rwa [List.length_map, ← Row.length_lasts] at hle
  rw [placed_lines]
  generalize Row.lasts (rows options spans rect) = lasts at hlength ⊢
  generalize settled options spans rect = placed at hlength ⊢
  induction placed generalizing lasts with
  | nil =>
    rw [List.zipWith_nil_right]
    exact .nil
  | cons p placed ih =>
    cases lasts with
    | nil => exact absurd hlength (by simp)
    | cons isLast lasts => exact .cons ⟨isLast, rfl⟩ (ih lasts (by simpa using hlength))

/-- The lines of a flow are set each from a row, and the last row is set as such. -/
theorem lines_rows (options : FlowOptions α) (spans : List (Span φ α)) (rect : Rectangle α) :
    Forall₂ (fun line r => ∃ baseline, line = Row.line options rect r.1 baseline r.2)
      (placed (lines options spans rect))
      (((Row.lasts (rows options spans rect)).zip (rows options spans rect)).take
        (placed (lines options spans rect)).length) := by
  have hlength := Row.length_lasts (rows options spans rect)
  have hprefix := rows_settled options spans rect
  rw [(lines_stand options spans rect).length_eq, placed_lines]
  generalize Row.lasts (rows options spans rect) = lasts at hlength ⊢
  generalize rows options spans rect = rows at hlength hprefix ⊢
  generalize settled options spans rect = placed at hprefix ⊢
  induction placed generalizing lasts rows with
  | nil =>
    rw [List.zipWith_nil_right]
    exact .nil
  | cons p placed ih =>
    obtain ⟨more, rfl⟩ := hprefix
    cases lasts with
    | nil => exact absurd hlength (by simp)
    | cons isLast lasts =>
      exact .cons ⟨p.baseline, rfl⟩ (ih lasts _ (by simpa using hlength) (List.prefix_append ..))

end Flow

/-! ### Where nothing is rounded -/

section Exact

variable {ψ : Type} [FlowFont ψ ℚ] {options : FlowOptions ℚ} {spans : List (Span ψ ℚ)}
  {rect : Rectangle ℚ} {ls : List (Line ψ ℚ)}

/-- The line is that of a row, moved by `dy`. -/
structure Line.Moved (dy : ℚ) (line : Line ψ ℚ) (p : PlacedRow ψ ℚ) : Prop where
  sets : line.Sets (p.shift dy)
  baseline : line.baseline = p.baseline + dy
  height : line.height = p.row.height

/-- How far each span of the line reaches below its baseline. -/
def Line.depths (l : Line ψ ℚ) : Set ℚ :=
  {d | ∃ s ∈ l.spans, FontMetrics.descent s.font s.size = d}

/-- The lines stand inside of the rectangle and below each other. -/
structure Flow.Stacked (rect : Rectangle ℚ) (ls : List (Line ψ ℚ)) : Prop where
  downward : ls.IsChain fun a b => b.baseline + b.height ≤ a.baseline
  inside : ∀ line ∈ ls, rect.bottom ≤ line.baseline ∧ line.baseline + line.height ≤ rect.top
  level : ∀ line ∈ ls, ∀ s ∈ line.spans, s.baseline = line.baseline

/-- Lines from `first` to `last`, which is `depth` deep, are at the top or the bottom of the
rectangle, or there is as much space above as below them. -/
def VerticalAlign.Puts (rect : Rectangle ℚ) (first last : Line ψ ℚ) (depth : ℚ) :
    VerticalAlign → Prop
  | .top => first.baseline + first.height = rect.top
  | .middle => rect.top - (first.baseline + first.height) = last.baseline - depth - rect.bottom
  | .bottom => last.baseline - depth = rect.bottom

namespace Scalar

theorem foldl_max_mem (a : ℚ) (values : List ℚ) :
    values.foldl Scalar.max a = a ∨ values.foldl Scalar.max a ∈ values := by
  induction values generalizing a with
  | nil => exact .inl rfl
  | cons x xs ih =>
    rw [List.foldl_cons]
    rcases ih (Scalar.max a x) with heq | hmem
    · rw [heq, max_exact]
      rcases max_choice a x with h | h
      · exact .inl h
      · rw [h]
        exact .inr List.mem_cons_self
    · exact .inr (List.mem_cons_of_mem x hmem)

/-- The greatest of some numbers is one of them, if none of them is negative. -/
theorem isGreatest_greatest {values : List ℚ} (hne : values ≠ []) (h : ∀ x ∈ values, 0 ≤ x) :
    IsGreatest {x | x ∈ values} (greatest values) := by
  have hle := (foldl_max_exact 0 values).2
  refine ⟨?_, hle⟩
  rcases foldl_max_mem 0 values with hzero | hmem
  · obtain ⟨x, hx⟩ := List.exists_mem_of_ne_nil values hne
    have hgreatest : greatest values = x :=
      le_antisymm (hzero.trans_le (h x hx)) (hle x hx)
    exact hgreatest ▸ hx
  · exact hmem

end Scalar

namespace Flow

/-- Rows have words, and each is in the font and size of a span. -/
theorem words_of_mem_rows {row : Row ψ ℚ} (h : row ∈ rows options spans rect) :
    row.words ≠ [] ∧ ∀ w ∈ row.words, ∃ s ∈ spans, w.font = s.font ∧ w.size = s.size := by
  have hfill := mem_fill_of_mem_rows h
  have hchunks : ∀ chunk ∈ row.chunks, chunk ∈ Chunk.split options spans :=
    fun chunk hchunk => Row.mem_fill hfill hchunk
  refine ⟨?_, fun w hw => ?_⟩
  · obtain ⟨chunk, hchunk⟩ := List.exists_mem_of_ne_nil row.chunks
      ((Row.greedy_fill rect.width _).1.ne_nil _ (List.mem_map_of_mem hfill))
    obtain ⟨word, hword⟩ :=
      List.exists_mem_of_ne_nil chunk.words (Chunk.words_ne_nil (hchunks chunk hchunk))
    exact List.ne_nil_of_mem (List.mem_flatMap.mpr ⟨chunk, hchunk, hword⟩)
  · obtain ⟨chunk, hchunk, hword⟩ := List.mem_flatMap.mp hw
    exact Chunk.exists_span (hchunks chunk hchunk) hword

/-- The descent of a line is the greatest of those of its spans. -/
theorem isGreatest_descent {line : Line ψ ℚ} {p : PlacedRow ψ ℚ} (hline : line.Sets p)
    (hrow : p.row ∈ rows options spans rect)
    (hd : ∀ s ∈ spans, 0 ≤ FontMetrics.descent s.font s.size) :
    IsGreatest line.depths line.descent := by
  obtain ⟨hwords, hspans⟩ := words_of_mem_rows hrow
  have hdepths : line.depths =
      {d | d ∈ line.spans.map fun s => FontMetrics.descent s.font s.size} := by
    simp [Line.depths]
  have hne : line.spans ≠ [] := by
    intro hnil
    have hstyles := hline.styles
    rw [hnil, List.map_nil, Row.styles, eq_comm, List.destutter_eq_nil, List.map_eq_nil_iff]
      at hstyles
    exact hwords hstyles
  rw [hdepths]
  refine Scalar.isGreatest_greatest (by simpa using hne) (List.forall_mem_map.mpr fun s hs => ?_)
  have hstyle : s.style ∈ p.row.words.map Word.style := by
    refine (List.destutter_sublist Differ _).subset ?_
    rw [← Row.styles, ← hline.styles]
    exact List.mem_map_of_mem hs
  obtain ⟨w, hw, hws⟩ := List.mem_map.mp hstyle
  obtain ⟨span, hspan, hfont, hsize⟩ := hspans w hw
  have hsame : s.font = span.font ∧ s.size = span.size :=
    ⟨(congrArg Prod.fst hws).symm.trans hfont, (congrArg Prod.snd hws).symm.trans hsize⟩
  rw [hsame.1, hsame.2]
  exact hd span hspan

/-- All lines of a flow that has room for them are those of its rows, moved alike, and the last row
fits. -/
theorem exists_moved (h : lines options spans rect = .ok ls) (hne : ls ≠ []) :
    ∃ low, (stacked options spans rect).getLast? = some low ∧ low.reach rect ≤ rect.height ∧
      Forall₂ (Line.Moved (options.move (rect.height - low.reach rect))) ls
        (stacked options spans rect) := by
  obtain ⟨-, hsettled, hfits⟩ := settled_of_ok h
  have hstand := lines_stand options spans rect
  rw [hsettled, h, placed] at hstand
  cases hlast : (stacked options spans rect).getLast? with
  | none =>
    rw [Column.settle, hlast] at hstand
    exact absurd (List.forall₂_nil_right_iff.mp hstand) hne
  | some low =>
    have hfit := hfits low hlast
    rw [Column.settle_exact hlast hfit, List.forall₂_map_right_iff] at hstand
    refine ⟨low, rfl, PlacedRow.fits_iff.mp hfit, hstand.imp ?_⟩
    rintro line p ⟨isLast, rfl⟩
    exact ⟨Row.sets_layOut .., rfl, rfl⟩

end Flow

theorem FlowOptions.move_le (options : FlowOptions ℚ) {slack : ℚ} (h : 0 ≤ slack) :
    options.move slack ≤ 0 := by
  unfold move
  cases options.vertical with
  | top => exact le_refl 0
  | middle =>
    change -slack / 2 ≤ 0
    linarith
  | bottom =>
    change -slack ≤ 0
    linarith

omit [FlowFont ψ ℚ] in
/-- Lines that reached from the top down to `slack` above the bottom are moved to where they are
asked to be. -/
theorem FlowOptions.puts_move (options : FlowOptions ℚ) (slack : ℚ) {depth : ℚ}
    {first last : Line ψ ℚ}
    (htop : first.baseline + first.height = rect.top + options.move slack)
    (hbottom : last.baseline - depth = rect.bottom + slack + options.move slack) :
    options.vertical.Puts rect first last depth := by
  unfold move at htop hbottom
  cases hv : options.vertical with
  | top =>
    rw [hv] at htop
    exact htop.trans (add_zero _)
  | middle =>
    rw [hv] at htop hbottom
    change _ = rect.top + -slack / 2 at htop
    change _ = rect.bottom + slack + -slack / 2 at hbottom
    change rect.top - (first.baseline + first.height) = last.baseline - depth - rect.bottom
    linarith
  | bottom =>
    rw [hv] at hbottom
    change _ = rect.bottom + slack + -slack at hbottom
    change last.baseline - depth = rect.bottom
    linarith

omit [FlowFont ψ ℚ] in
/-- There is no space above the first row. -/
theorem Column.stack_first (options : FlowOptions ℚ) (remaining baseline : ℚ)
    (rows : List (Row ψ ℚ)) :
    ∀ p ∈ (stack options true remaining baseline rows).head?,
      p.baseline + p.row.height = baseline := by
  intro p hp
  cases rows with
  | nil => cases hp
  | cons row rows =>
    rw [stack, if_pos rfl] at hp
    split at hp
    · cases hp
    · obtain rfl := Option.some.inj hp
      change baseline - (0 + row.height) + row.height = baseline
      linarith

namespace Flow

variable {dy : ℚ} {placed : List (PlacedRow ψ ℚ)}

/-- Rows that do not overlap are lines that do not. -/
theorem downward_of_moved (h : Forall₂ (Line.Moved dy) ls placed)
    (hboxes : placed.Pairwise fun p q => q.baseline + q.row.height ≤ p.baseline) :
    ls.IsChain fun a b => b.baseline + b.height ≤ a.baseline := by
  have hsame : ls.map (fun l => (l.baseline, l.height)) =
      placed.map fun p => (p.baseline + dy, p.row.height) :=
    map_eq_map_of_forall₂ (h.imp fun line p hline => Prod.ext hline.baseline hline.height)
  have hmoved : (placed.map fun p => (p.baseline + dy, p.row.height)).Pairwise
      fun a b => b.1 + b.2 ≤ a.1 := by
    refine List.pairwise_map.mpr (hboxes.imp fun {p q} hpq => ?_)
    dsimp only
    linarith
  rw [← hsame] at hmoved
  exact (List.pairwise_map.mp hmoved).isChain

/-- Rows below each other in the rectangle, once moved, are lines that are. -/
theorem stacked_of_moved (h : Forall₂ (Line.Moved dy) ls placed)
    (hboxes : placed.Pairwise fun p q => q.baseline + q.row.height ≤ p.baseline)
    (hbottom : ∀ p ∈ placed, rect.bottom ≤ p.baseline + dy)
    (htop : ∀ p ∈ placed, p.baseline + dy + p.row.height ≤ rect.top) : Stacked rect ls where
  downward := downward_of_moved h hboxes
  inside line hline := by
    obtain ⟨p, hp, hset⟩ := mem_of_forall₂ h line hline
    rw [hset.baseline, hset.height]
    exact ⟨hbottom p hp, htop p hp⟩
  level line hline s hs := by
    obtain ⟨p, -, hset⟩ := mem_of_forall₂ h line hline
    exact (hset.sets.baseline s hs).trans hset.baseline.symm

/-- Rows that begin at the top of the rectangle are lines that are where they are asked to be. -/
theorem exists_puts (options : FlowOptions ℚ) {low : PlacedRow ψ ℚ}
    (h : Forall₂ (Line.Moved (options.move (rect.height - low.reach rect))) ls placed)
    (hfirst : ∀ p ∈ placed.head?, p.baseline + p.row.height = rect.top)
    (hlow : placed.getLast? = some low) :
    ∃ first last, ls.head? = some first ∧ ls.getLast? = some last ∧ last.Sets
        (low.shift (options.move (rect.height - low.reach rect))) ∧
      options.vertical.Puts rect first last last.descent := by
  cases h with
  | nil => cases hlow
  | @cons first top more below hset hmore =>
    have htop : top.baseline + top.row.height = rect.top := hfirst top rfl
    have hlast := List.getLast?_eq_some_getLast (List.cons_ne_nil first more)
    obtain ⟨_, hsame, hlastSet⟩ := getLast?_of_forall₂ (.cons hset hmore) _ hlast
    obtain rfl := Option.some.inj (hlow.symm.trans hsame)
    refine ⟨first, _, rfl, hlast, hlastSet.sets,
      options.puts_move (rect.height - low.reach rect) ?_ ?_⟩
    · rw [hset.baseline, hset.height]
      linarith
    · have hdescent : ((first :: more).getLast (List.cons_ne_nil first more)).descent =
          low.row.descent := hlastSet.sets.descent
      have hreach : low.reach rect =
          rect.bottom + rect.height - low.baseline + low.row.descent := rfl
      rw [hlastSet.baseline, hdescent]
      linarith

/-- The lines of a flow that has room for all of its text stand below each other in the rectangle,
as a block that is where it is asked to be. -/
theorem stands_as_asked (h : lines options spans rect = .ok ls) (hne : ls ≠ [])
    (hs : 0 ≤ options.lineSpacing) (hd : ∀ s ∈ spans, 0 ≤ FontMetrics.descent s.font s.size) :
    Stacked rect ls ∧ ∃ first last depth, ls.head? = some first ∧ ls.getLast? = some last ∧
      IsGreatest last.depths depth ∧ options.vertical.Puts rect first last depth := by
  obtain ⟨low, hlow, hfits, hmoved⟩ := exists_moved h hne
  have hslack : 0 ≤ rect.height - low.reach rect := by linarith
  have hup := options.neg_le_move hslack
  have hdown := options.move_le hslack
  obtain ⟨hpairs, hbelow⟩ :=
    Column.stack_boxes hs true rect.height rect.top (rows options spans rect)
  have hlowest := Column.last_lowest hs true rect.height rect.top (rows options spans rect) low hlow
  have hreach : low.reach rect = rect.bottom + rect.height - low.baseline + low.row.descent := rfl
  have hdepth : 0 ≤ low.row.descent := (Scalar.foldl_max_exact 0 _).1
  constructor
  · refine stacked_of_moved hmoved hpairs (fun p hp => ?_) (fun p hp => ?_)
    · have hlow : low.baseline ≤ p.baseline := hlowest p hp
      linarith
    · have htop : p.baseline + p.row.height ≤ rect.top := hbelow p hp
      linarith
  · have hrow : low.row ∈ rows options spans rect := (Column.rows_stack ..).subset
      (List.mem_map_of_mem (List.mem_of_mem_getLast? hlow))
    obtain ⟨first, last, hfirst, hlast, hset, hputs⟩ :=
      exists_puts options hmoved (Column.stack_first options rect.height rect.top _) hlow
    exact ⟨first, last, _, hfirst, hlast, isGreatest_descent hset hrow hd, hputs⟩

end Flow

end Exact

/-- A font all of whose characters are equally wide, measured without rounding. -/
structure ExactFont where
  /-- The width of a character and the depth below the baseline, in thousandths of the size. -/
  width : ℚ
  depth : ℚ
  deriving DecidableEq

instance : FlowFont ExactFont ℚ where
  textWidth f text size characterSpacing horizontalScaling :=
    text.toList.length * (f.width / 1000 * size + characterSpacing) * horizontalScaling
  spaceWidth f size characterSpacing horizontalScaling :=
    (f.width / 1000 * size + characterSpacing) * horizontalScaling
  descent f size := f.depth / 1000 * size
  sameFont f g := f = g

/-- Three lines with space between them, midway between the sides of a rectangle. -/
theorem Flow.stands_as_asked_midway :
    let options : FlowOptions ℚ := { FlowOptions.standard with vertical := .middle, lineSpacing := 2 }
    let spans : List (Span ExactFont ℚ) :=
      [⟨"small ", ⟨500, 200⟩, 8⟩, ⟨"and larger, ", ⟨500, 200⟩, 12⟩, ⟨"then small", ⟨600, 250⟩, 8⟩]
    let rect : Rectangle ℚ := ⟨10, 20, 60, 50⟩
    let ls := placed (lines options spans rect)
    (lines options spans rect = .ok ls ∧ ls ≠ [] ∧ 0 ≤ options.lineSpacing ∧
        ∀ s ∈ spans, 0 ≤ FontMetrics.descent s.font s.size) ∧
      Stacked rect ls ∧ ∃ first last depth, ls.head? = some first ∧ ls.getLast? = some last ∧
        IsGreatest last.depths depth ∧ options.vertical.Puts rect first last depth := by
  intro options spans rect ls
  have hlength : ls.length = 3 := by decide +kernel
  have hok : lines options spans rect = .ok ls := by
    have hisOk : (lines options spans rect).isOk = true := by decide +kernel
    simp only [ls]
    cases hlines : lines options spans rect with
    | ok lines => rfl
    | error overflow =>
      rw [hlines] at hisOk
      cases hisOk
  have hne : ls ≠ [] := List.length_pos_iff.mp (by rw [hlength]; decide)
  have hspacing : 0 ≤ options.lineSpacing := by decide +kernel
  have hdescent : ∀ s ∈ spans, 0 ≤ FontMetrics.descent s.font s.size := by decide +kernel
  exact ⟨⟨hok, hne, hspacing, hdescent⟩, stands_as_asked hok hne hspacing hdescent⟩

end PageScript
