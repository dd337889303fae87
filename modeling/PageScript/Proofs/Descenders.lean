import Mathlib.Algebra.Order.Field.Rat
import Mathlib.Tactic.Linarith
import PageScript.Proofs.SettledRows

/-!
# Descenders

No line is to reach below the rectangle that its text flows into. Where nothing is rounded, a line
does not if the rows down to it leave enough height for its descenders. A flow makes sure of this
for its last line, and only if no row is left over; it is then true of all lines if no other has
deeper descenders.
-/
namespace PageScript

open List (Forall₂)

section Settled

variable {φ α : Type} [Scalar α] [FlowFont φ α]

/-- No span of the line reaches below the rectangle. -/
def Line.DescendsInside (rect : Rectangle α) (line : Line φ α) : Prop :=
  ∀ s ∈ line.spans,
    Scalar.less (s.baseline - FontMetrics.descent s.font s.size) rect.bottom = false

instance (rect : Rectangle α) (line : Line φ α) : Decidable (line.DescendsInside rect) :=
  inferInstanceAs (Decidable (∀ s ∈ line.spans, _ = false))

def PlacedRow.DescendsInside (rect : Rectangle α) (p : PlacedRow φ α) : Prop :=
  ∀ s ∈ p.row.styles,
    Scalar.less (p.baseline - FontMetrics.descent s.1 s.2) rect.bottom = false

theorem Line.Sets.descendsInside {line : Line φ α} {p : PlacedRow φ α} (h : line.Sets p)
    (rect : Rectangle α) : line.DescendsInside rect ↔ p.DescendsInside rect := by
  rw [PlacedRow.DescendsInside, ← h.styles, List.forall_mem_map]
  refine forall₂_congr fun s hs => ?_
  rw [h.baseline s hs]
  rfl

theorem Flow.descends_settled (options : FlowOptions α) (spans : List (Span φ α))
    (rect : Rectangle α) :
    (∀ line ∈ placed (lines options spans rect), line.DescendsInside rect) ↔
      ∀ p ∈ settled options spans rect, p.DescendsInside rect := by
  generalize placed (lines options spans rect) = lines, settled options spans rect = rows,
    lines_settled options spans rect = hsets
  induction hsets with
  | nil => simp
  | cons hline _ ih => simp [hline.descendsInside, ih]

end Settled

/-! ### Where nothing is rounded -/

namespace Scalar

theorem max_exact (a b : ℚ) : Scalar.max a b = Max.max a b := by
  simp [Scalar.max, atMost, max_def]

theorem foldl_max_exact (a : ℚ) (values : List ℚ) :
    a ≤ values.foldl Scalar.max a ∧ ∀ x ∈ values, x ≤ values.foldl Scalar.max a := by
  induction values generalizing a with
  | nil => simp
  | cons y ys ih =>
    obtain ⟨hfirst, hrest⟩ := ih (Scalar.max a y)
    rw [max_exact] at hfirst
    rw [List.foldl_cons]
    refine ⟨(le_max_left a y).trans (by rwa [max_exact]), List.forall_mem_cons.mpr ⟨?_, hrest⟩⟩
    exact (le_max_right a y).trans (by rwa [max_exact])

end Scalar

section Exact

theorem getElem?_of_forall₂ {β γ : Type} {R : β → γ → Prop} {xs : List β} {ys : List γ}
    (h : Forall₂ R xs ys) {n : ℕ} {x : β} (hx : xs[n]? = some x) :
    ∃ y, ys[n]? = some y ∧ R x y := by
  obtain ⟨hn, rfl⟩ := List.getElem?_eq_some_iff.mp hx
  have hn' : n < ys.length := h.length_eq ▸ hn
  exact ⟨ys[n], List.getElem?_eq_getElem hn', h.get hn hn'⟩

theorem getLast?_of_forall₂ {β γ : Type} {R : β → γ → Prop} {xs : List β} {ys : List γ}
    (h : Forall₂ R xs ys) : ∀ x ∈ xs.getLast?, ∃ y ∈ ys.getLast?, R x y := by
  simp only [List.getLast?_eq_getElem?, ← h.length_eq]
  exact fun x => getElem?_of_forall₂ h

variable {ψ : Type} [FlowFont ψ ℚ] {options : FlowOptions ℚ} {rect : Rectangle ℚ}
  {p last : PlacedRow ψ ℚ}

theorem PlacedRow.fits_iff : p.Fits rect ↔ p.reach rect ≤ rect.height := by
  simp [Fits, Scalar.less]

/-- A row that fits keeps its descenders inside. -/
theorem PlacedRow.descendsInside_of_reach (h : p.reach rect ≤ rect.height) :
    p.DescendsInside rect := by
  intro s hs
  have hd : FontMetrics.descent s.1 s.2 ≤ p.row.descent :=
    (Scalar.foldl_max_exact 0 _).2 _ (List.mem_map_of_mem hs)
  have hr : rect.bottom + rect.height - p.baseline + p.row.descent ≤ rect.height := h
  have hle : rect.bottom ≤ p.baseline - FontMetrics.descent s.1 s.2 := by linarith
  simpa [Scalar.less] using hle

theorem PlacedRow.reach_shift (dy : ℚ) : (p.shift dy).reach rect = p.reach rect - dy := by
  change rect.top - (p.baseline + dy) + p.row.descent =
    rect.top - p.baseline + p.row.descent - dy
  linarith

theorem FlowOptions.neg_le_move (options : FlowOptions ℚ) {slack : ℚ} (h : 0 ≤ slack) :
    -slack ≤ options.move slack := by
  unfold move
  cases options.vertical with
  | top =>
    change -slack ≤ 0
    linarith
  | middle =>
    change -slack ≤ -slack / 2
    linarith
  | bottom => exact le_refl (-slack)

omit [FlowFont ψ ℚ] in
theorem PlacedRow.shift_zero : PlacedRow.shift (0 : ℚ) = (id : PlacedRow ψ ℚ → PlacedRow ψ ℚ) :=
  funext fun p => congrArg (PlacedRow.mk p.row) (add_zero p.baseline)

theorem Column.settle_exact {placed : List (PlacedRow ψ ℚ)} (hlast : placed.getLast? = some last)
    (h : last.Fits rect) : settle options rect placed =
      placed.map (PlacedRow.shift (options.move (rect.height - last.reach rect))) := by
  rw [settle, hlast]
  dsimp only
  rw [if_neg ((Bool.not_eq_true _).mpr h)]
  split
  · next hzero =>
    have hdy : options.move (rect.height - last.reach rect) = 0 := by
      simpa [Scalar.same, Scalar.zero, Scalar.ofNat] using hzero
    rw [hdy, PlacedRow.shift_zero, List.map_id]
  · rfl

/-- The height of some rows with the line spacing between them. -/
def Row.extent (options : FlowOptions ℚ) (rows : List (Row ψ ℚ)) : ℚ :=
  (rows.map Row.height).sum + (rows.length - 1 : ℕ) * options.lineSpacing

/-- The height that some rows leave below them. -/
def Row.room (options : FlowOptions ℚ) (rect : Rectangle ℚ) (rows : List (Row ψ ℚ)) : ℚ :=
  rect.height - extent options rows

/-- No descent of the row is longer than the height that it gets below its baseline. -/
def Row.Clears (row : Row ψ ℚ) (below : ℚ) : Prop :=
  ∀ s ∈ row.styles, FontMetrics.descent s.1 s.2 ≤ below

theorem PlacedRow.descendsInside_iff :
    p.DescendsInside rect ↔ p.row.Clears (p.baseline - rect.bottom) := by
  refine forall₂_congr fun s hs => ?_
  have hless : Scalar.less (p.baseline - FontMetrics.descent s.1 s.2) rect.bottom = false ↔
      rect.bottom ≤ p.baseline - FontMetrics.descent s.1 s.2 := by simp [Scalar.less]
  rw [hless]
  exact le_sub_comm

omit [FlowFont ψ ℚ] in
theorem Row.extent_single (row : Row ψ ℚ) : extent options [row] = row.height := by simp [extent]

omit [FlowFont ψ ℚ] in
theorem Row.extent_cons (row : Row ψ ℚ) {rows : List (Row ψ ℚ)} (h : rows ≠ []) :
    extent options (row :: rows) = row.height + (options.lineSpacing + extent options rows) := by
  obtain ⟨next, rest, rfl⟩ := List.exists_cons_of_ne_nil h
  simp only [extent, List.map_cons, List.sum_cons, List.length_cons, Nat.add_sub_cancel]
  push_cast
  linarith

namespace Column

variable {remaining baseline : ℚ} {rows : List (Row ψ ℚ)} {n : ℕ}

omit [FlowFont ψ ℚ] in
/-- A row stands below the rows down to it and the spaces between them. -/
theorem stack_get {first : Bool}
    (h : (stack options first remaining baseline rows)[n]? = some p) :
    let used := (if first then Scalar.zero else options.lineSpacing) +
      Row.extent options (rows.take (n + 1))
    rows[n]? = some p.row ∧ p.baseline = baseline - used ∧ 0 ≤ remaining - used := by
  induction rows generalizing first remaining baseline n with
  | nil => cases h
  | cons row rows ih =>
    rw [stack] at h
    generalize (if first then Scalar.zero else options.lineSpacing) = spacing at h ⊢
    dsimp only at h ⊢
    split at h
    · cases h
    · next hless =>
      have hroom : 0 ≤ remaining - (row.height + spacing) := by
        simpa [Scalar.less, Scalar.zero, Scalar.ofNat] using hless
      cases n with
      | zero =>
        obtain rfl := Option.some.inj h
        rw [List.take_succ_cons, List.take_zero, Row.extent_single]
        exact ⟨rfl, rfl, by linarith⟩
      | succ n =>
        obtain ⟨hrow, hbaseline, hleft⟩ := ih h
        have hne : rows.take (n + 1) ≠ [] := by
          rintro hnil
          rw [List.take_eq_nil_iff.mp hnil |>.resolve_left (Nat.succ_ne_zero n)] at hrow
          cases hrow
        rw [List.take_succ_cons, Row.extent_cons row hne]
        rw [if_neg Bool.false_ne_true] at hbaseline hleft
        exact ⟨hrow, by linarith, by linarith⟩

omit [FlowFont ψ ℚ] in
/-- There is no room for the first row that is left over. -/
theorem stack_left {first : Bool}
    (h : (stack options first remaining baseline rows).length < rows.length) :
    remaining - ((if first then Scalar.zero else options.lineSpacing) + Row.extent options
      (rows.take ((stack options first remaining baseline rows).length + 1))) < 0 := by
  induction rows generalizing first remaining baseline with
  | nil => cases h
  | cons row rows ih =>
    rw [stack] at h ⊢
    generalize (if first then Scalar.zero else options.lineSpacing) = spacing at h ⊢
    split
    · next hless =>
      have hroom : remaining - (row.height + spacing) < 0 := by
        simpa [Scalar.less, Scalar.zero, Scalar.ofNat] using hless
      rw [List.length_nil, List.take_succ_cons, List.take_zero, Row.extent_single]
      linarith
    · next hless =>
      rw [if_neg hless] at h
      have hmore := Nat.lt_of_succ_lt_succ h
      have hleft := ih hmore
      have hne : rows ≠ [] := List.ne_nil_of_length_pos (Nat.zero_lt_of_lt hmore)
      rw [List.length_cons, List.take_succ_cons, Row.extent_cons row (by simpa using hne)]
      rw [if_neg Bool.false_ne_true] at hleft
      linarith

end Column

omit [FlowFont ψ ℚ] in
theorem Row.height_nonneg (row : Row ψ ℚ) : 0 ≤ row.height := (Scalar.foldl_max_exact 0 _).1

omit [FlowFont ψ ℚ] in
/-- Rows that follow each other do not overlap if the space between them is not negative. -/
theorem Column.stack_boxes (hs : 0 ≤ options.lineSpacing) (first : Bool)
    (remaining baseline : ℚ) (rows : List (Row ψ ℚ)) :
    (stack options first remaining baseline rows).Pairwise
        (fun p q => q.baseline + q.row.height ≤ p.baseline) ∧
      ∀ p ∈ stack options first remaining baseline rows,
        p.baseline + p.row.height ≤ baseline := by
  induction rows generalizing first remaining baseline with
  | nil => simp [stack]
  | cons row rows ih =>
    have hheight := row.height_nonneg
    have hspacing : 0 ≤ if first then Scalar.zero else options.lineSpacing := by
      split
      · exact le_refl 0
      · exact hs
    rw [stack]
    generalize (if first then Scalar.zero else options.lineSpacing) = spacing at hspacing ⊢
    split
    · simp
    · obtain ⟨hpairs, hbelow⟩ :=
        ih false (remaining - (row.height + spacing)) (baseline - (spacing + row.height))
      refine ⟨List.pairwise_cons.mpr ⟨hbelow, hpairs⟩, List.forall_mem_cons.mpr ⟨?_, ?_⟩⟩
      · dsimp only
        linarith
      · intro p hp
        have := hbelow p hp
        linarith

omit [FlowFont ψ ℚ] in
/-- No row is lower than the last one. -/
theorem Column.last_lowest (hs : 0 ≤ options.lineSpacing) (first : Bool)
    (remaining baseline : ℚ) (rows : List (Row ψ ℚ)) :
    ∀ last ∈ (stack options first remaining baseline rows).getLast?,
      ∀ p ∈ stack options first remaining baseline rows, last.baseline ≤ p.baseline := by
  intro last hlast p hp
  obtain ⟨before, hstack⟩ := List.getLast?_eq_some_iff.mp hlast
  have hpairs := (stack_boxes hs first remaining baseline rows).1
  rw [hstack] at hp hpairs
  rcases List.mem_append.mp hp with hp | hp
  · have hbelow := (List.pairwise_append.mp hpairs).2.2 p hp last List.mem_cons_self
    have hheight := last.row.height_nonneg
    linarith
  · rw [List.mem_singleton.mp hp]

namespace Flow

variable {spans : List (Span ψ ℚ)} {ls : List (Line ψ ℚ)}

/-- A row that fits stands where the rows down to it leave room for it. -/
theorem stacked_exact {n : ℕ} (h : (stacked options spans rect)[n]? = some p) :
    let room := Row.room options rect ((rows options spans rect).take (n + 1))
    (rows options spans rect)[n]? = some p.row ∧ p.baseline - rect.bottom = room ∧ 0 ≤ room := by
  obtain ⟨hrow, hbaseline, hroom⟩ := Column.stack_get h
  have htop : rect.top = rect.bottom + rect.height := rfl
  have hnone : (if true then Scalar.zero else options.lineSpacing) = (0 : ℚ) := rfl
  rw [hnone, zero_add] at hbaseline hroom
  rw [htop] at hbaseline
  exact ⟨hrow, by rw [hbaseline, Row.room]; linarith, hroom⟩

/-- If no row is left over, the last one reaches as far down as the rows and its descent do. -/
theorem reach_last
    (hlength : (stacked options spans rect).length = (rows options spans rect).length)
    (hlast : (stacked options spans rect).getLast? = some last) :
    (rows options spans rect).getLast? = some last.row ∧ last.reach rect =
      rect.height - (Row.room options rect (rows options spans rect) - last.row.descent) := by
  rw [List.getLast?_eq_getElem?, hlength] at hlast
  obtain ⟨hrow, hbaseline, -⟩ := stacked_exact hlast
  have hpos : 0 < (rows options spans rect).length := by
    refine List.length_pos_iff.mpr fun hnil => ?_
    rw [hnil] at hrow
    cases hrow
  rw [Nat.sub_add_cancel hpos, List.take_length] at hbaseline
  have hreach : last.reach rect =
      rect.bottom + rect.height - last.baseline + last.row.descent := rfl
  rw [List.getLast?_eq_getElem?]
  exact ⟨hrow, by rw [hreach]; linarith⟩

/-- The lines are those of the first of some rows, moved by `dy`. Each keeps its descenders inside
if and only if they are no longer than the height that it gets below its baseline. -/
def Clear (options : FlowOptions ℚ) (rect : Rectangle ℚ) (dy : ℚ) (rows : List (Row ψ ℚ))
    (ls : List (Line ψ ℚ)) : Prop :=
  ∀ n line, ls[n]? = some line → ∃ row, rows[n]? = some row ∧
    let room := Row.room options rect (rows.take (n + 1))
    0 ≤ room ∧ (line.DescendsInside rect ↔ row.Clears (room + dy))

/-- The first of some rows for which there is no room, or the last one if there is none for its
descent. -/
def LeftOver (options : FlowOptions ℚ) (rect : Rectangle ℚ) (rows : List (Row ψ ℚ)) (n : ℕ) :
    Prop :=
  ∃ row, rows[n]? = some row ∧
    let room := Row.room options rect (rows.take (n + 1))
    (room < 0 ∨ n + 1 = rows.length ∧ room < row.descent)

/-- The lines of a flow that has room for all of its rows. They are moved as the height that is left
below the last descent tells, and the last one is inside. -/
structure AllPlaced (options : FlowOptions ℚ) (rect : Rectangle ℚ) (rows : List (Row ψ ℚ))
    (ls : List (Line ψ ℚ)) : Prop where
  length : ls.length = rows.length
  clear : ∃ dy, Clear options rect dy rows ls ∧ ∀ last ∈ rows.getLast?,
    let slack := Row.room options rect rows - last.descent
    0 ≤ slack ∧ dy = options.move slack
  last : ∀ last ∈ ls.getLast?, last.DescendsInside rect
  all : 0 ≤ options.lineSpacing →
    (∀ last ∈ ls.getLast?, ∀ line ∈ ls, line.descent ≤ last.descent) →
    ∀ line ∈ ls, line.DescendsInside rect

/-- The lines of a flow that overflows. They are not moved. -/
structure CutShort (options : FlowOptions ℚ) (rect : Rectangle ℚ) (rows : List (Row ψ ℚ))
    (ls : List (Line ψ ℚ)) : Prop where
  clear : Clear options rect 0 rows ls
  leftOver : rows = [] ∨ LeftOver options rect rows ls.length

theorem clear_of_sets {dy : ℚ} {placed : List (PlacedRow ψ ℚ)}
    (hplaced : placed <+: stacked options spans rect)
    (hsets : Forall₂ Line.Sets ls (placed.map (PlacedRow.shift dy))) :
    Clear options rect dy (rows options spans rect) ls := by
  intro n line hline
  obtain ⟨_, hmoved, hset⟩ := getElem?_of_forall₂ hsets hline
  rw [List.getElem?_map] at hmoved
  obtain ⟨p, hp, rfl⟩ := Option.map_eq_some_iff.mp hmoved
  have hstacked : (stacked options spans rect)[n]? = some p := by
    obtain ⟨hn, rfl⟩ := List.getElem?_eq_some_iff.mp hp
    exact List.prefix_iff_getElem?.mp hplaced n hn
  obtain ⟨hrow, hbaseline, hroom⟩ := stacked_exact hstacked
  refine ⟨p.row, hrow, hroom, ?_⟩
  have hbelow : (p.shift dy).baseline - rect.bottom = p.baseline - rect.bottom + dy :=
    add_sub_right_comm ..
  rw [hset.descendsInside, PlacedRow.descendsInside_iff, hbelow, hbaseline]
  rfl

/-- The rows of a flow that has room for all of its text are moved as far as its last row allows. -/
theorem settled_exact (h : lines options spans rect = .ok ls) :
    ∃ dy, Forall₂ Line.Sets ls ((stacked options spans rect).map (PlacedRow.shift dy)) ∧
      ∀ last ∈ (stacked options spans rect).getLast?, last.reach rect ≤ rect.height ∧
        dy = options.move (rect.height - last.reach rect) := by
  obtain ⟨-, hsettled, hfits⟩ := settled_of_ok h
  have hsets := lines_settled options spans rect
  rw [hsettled, h] at hsets
  cases hlast : (stacked options spans rect).getLast? with
  | none =>
    rw [Column.settle, hlast] at hsets
    rw [List.getLast?_eq_none_iff.mp hlast]
    exact ⟨0, hsets, by simp⟩
  | some last =>
    have hfit := hfits last hlast
    rw [Column.settle_exact hlast hfit] at hsets
    refine ⟨_, hsets, ?_⟩
    rintro _ ⟨⟩
    exact ⟨PlacedRow.fits_iff.mp hfit, rfl⟩

/-- All rows that reach no further than the last one keep their descenders inside, wherever they are
moved to. -/
theorem shift_inside (hfit : last.reach rect ≤ rect.height) (hp : p.reach rect ≤ last.reach rect) :
    (p.shift (options.move (rect.height - last.reach rect))).DescendsInside rect := by
  have hmove := options.neg_le_move (sub_nonneg.mpr hfit)
  refine PlacedRow.descendsInside_of_reach ?_
  rw [PlacedRow.reach_shift]
  linarith

/-- The last line of a flow that has room for all of its text keeps its descenders inside. -/
theorem last_inside (h : lines options spans rect = .ok ls) :
    ∀ line ∈ ls.getLast?, line.DescendsInside rect := by
  obtain ⟨dy, hsets, hmoved⟩ := settled_exact h
  intro line hline
  obtain ⟨_, hp, hset⟩ := getLast?_of_forall₂ hsets line hline
  rw [List.getLast?_map] at hp
  obtain ⟨last, hlast, rfl⟩ := Option.map_eq_some_iff.mp hp
  obtain ⟨hfit, rfl⟩ := hmoved last hlast
  exact (hset.descendsInside rect).mpr (shift_inside hfit le_rfl)

/-- All lines do if none is deeper than the last one. -/
theorem all_inside (h : lines options spans rect = .ok ls) (hs : 0 ≤ options.lineSpacing)
    (hd : ∀ last ∈ ls.getLast?, ∀ line ∈ ls, line.descent ≤ last.descent) :
    ∀ line ∈ ls, line.DescendsInside rect := by
  obtain ⟨dy, hsets, hmoved⟩ := settled_exact h
  intro line hline
  obtain ⟨_, hmap, hset⟩ := mem_of_forall₂ hsets line hline
  obtain ⟨p, hp, rfl⟩ := List.mem_map.mp hmap
  obtain ⟨before, lastLine, rfl⟩ :=
    (List.eq_nil_or_concat' ls).resolve_left (List.ne_nil_of_mem hline)
  obtain ⟨_, hmap, hlastSet⟩ := getLast?_of_forall₂ hsets lastLine (by simp)
  rw [List.getLast?_map] at hmap
  obtain ⟨last, hlast, rfl⟩ := Option.map_eq_some_iff.mp hmap
  obtain ⟨hfit, rfl⟩ := hmoved last hlast
  refine (hset.descendsInside rect).mpr (shift_inside hfit ?_)
  have hdeep : p.row.descent ≤ last.row.descent := by
    have := hd lastLine (by simp) line hline
    rwa [hset.descent, hlastSet.descent] at this
  have hlow : last.baseline ≤ p.baseline :=
    Column.last_lowest hs true rect.height rect.top _ last hlast p hp
  change rect.top - p.baseline + p.row.descent ≤ rect.top - last.baseline + last.row.descent
  linarith

theorem allPlaced_of_ok (h : lines options spans rect = .ok ls) :
    AllPlaced options rect (rows options spans rect) ls := by
  obtain ⟨hlength, -, -⟩ := settled_of_ok h
  obtain ⟨dy, hsets, hmoved⟩ := settled_exact h
  refine
    { length := by rw [hsets.length_eq, List.length_map, hlength]
      clear := ⟨dy, clear_of_sets List.prefix_rfl hsets, fun row hrow => ?_⟩
      last := last_inside h
      all := all_inside h }
  have hne : stacked options spans rect ≠ [] := by
    refine List.ne_nil_of_length_pos ?_
    rw [hlength]
    exact List.length_pos_of_mem (List.mem_of_mem_getLast? hrow)
  have hlast := List.getLast?_eq_some_getLast hne
  obtain ⟨hfit, hdy⟩ := hmoved _ hlast
  obtain ⟨hsame, hreach⟩ := reach_last hlength hlast
  obtain rfl := Option.some.inj (hrow.symm.trans hsame)
  rw [hreach] at hfit hdy
  rw [sub_sub_cancel] at hdy
  exact ⟨by linarith, hdy⟩

theorem cutShort_of_error {overflow : Overflow ψ ℚ}
    (h : lines options spans rect = .error overflow) :
    CutShort options rect (rows options spans rect) overflow.lines := by
  have hsets := lines_settled options spans rect
  have hclear {placed : List (PlacedRow ψ ℚ)} (hplaced : placed <+: stacked options spans rect)
      (hset : Forall₂ Line.Sets overflow.lines placed) :
      Clear options rect 0 (rows options spans rect) overflow.lines := by
    refine clear_of_sets hplaced ?_
    rwa [PlacedRow.shift_zero, List.map_id]
  rw [h, placed] at hsets
  rcases settled_of_error h with ⟨hlength, hsettled⟩ | ⟨hlength, hsettled, hfits⟩
  · rw [hsettled] at hsets
    refine ⟨hclear List.prefix_rfl hsets, .inr ⟨_, List.getElem?_eq_getElem ?_, .inl ?_⟩⟩
    · rwa [hsets.length_eq]
    · rw [hsets.length_eq]
      have hleft := Column.stack_left hlength
      have hnone : (if true then Scalar.zero else options.lineSpacing) = (0 : ℚ) := rfl
      rwa [hnone, zero_add] at hleft
  · rw [hsettled] at hsets
    refine ⟨hclear (List.dropLast_prefix _) hsets, ?_⟩
    rcases List.eq_nil_or_concat' (stacked options spans rect) with hnil | ⟨before, last, hstacked⟩
    · rw [hnil] at hlength
      exact .inl (List.length_eq_zero_iff.mp hlength.symm)
    · have hlast : (stacked options spans rect).getLast? = some last := by
        rw [hstacked, List.getLast?_concat]
      have hfit := hfits last hlast
      obtain ⟨hrow, hreach⟩ := reach_last hlength hlast
      have hcount : overflow.lines.length + 1 = (rows options spans rect).length := by
        rw [← hlength, hsets.length_eq, hstacked]
        simp
      rw [PlacedRow.fits_iff, hreach] at hfit
      rw [List.getLast?_eq_getElem?, ← hcount, Nat.add_sub_cancel] at hrow
      refine .inr ⟨last.row, hrow, .inr ⟨hcount, ?_⟩⟩
      rw [hcount, List.take_length]
      linarith

/-- The lines of a flow keep their descenders inside the rectangle if and only if the rows do that
get into it. Where nothing is rounded, those are the rows whose descents are no longer than the
height that the rows down to them leave. Only the last row is sure to be one of them, and only if no
row is left over. -/
theorem descends_inside {φ α : Type} [Scalar α] [FlowFont φ α] (options : FlowOptions α)
    (spans : List (Span φ α)) (rect : Rectangle α) :
    ((∀ line ∈ placed (lines options spans rect), line.DescendsInside rect) ↔
      ∀ p ∈ settled options spans rect, p.DescendsInside rect) ∧
    ∀ {ψ : Type} [FlowFont ψ ℚ] (options : FlowOptions ℚ) (spans : List (Span ψ ℚ))
      (rect : Rectangle ℚ),
      (∀ ls, lines options spans rect = .ok ls →
        AllPlaced options rect (rows options spans rect) ls) ∧
      ∀ overflow, lines options spans rect = .error overflow →
        CutShort options rect (rows options spans rect) overflow.lines :=
  ⟨descends_settled options spans rect, fun _ _ _ =>
    ⟨fun _ h => allPlaced_of_ok h, fun _ h => cutShort_of_error h⟩⟩

/-- Lines reach below the rectangle if a row is left over, and if another line than the last is
deeper. -/
theorem descenders_outside :
    let font : LoadedFont FixedWidthFont := ⟨"F", .monospace 500 (-200)⟩
    (∃ line ∈ placed (lines .standard [⟨"aaaa bbbb", font, 10⟩] ⟨0, 0, 25, 10.5⟩),
        ¬ line.DescendsInside ⟨0, 0, 25, 10.5⟩) ∧
      ∃ line ∈ ((lines .standard [⟨"aaaa", font, 100⟩, ⟨" bbbb", font, 10⟩]
          ⟨0, 0, 200, 115⟩).toOption.getD []), ¬ line.DescendsInside ⟨0, 0, 200, 115⟩ := by
  decide +kernel

end Flow

end Exact

end PageScript
