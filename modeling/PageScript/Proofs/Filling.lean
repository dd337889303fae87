import Mathlib.Data.List.Chain
import Mathlib.Data.List.Forall2
import Mathlib.Data.List.Infix
import PageScript.Flow

/-!
# Filled rows

Rows are filled greedily: a chunk is put on a row if the row does not get wider than the rectangle,
and starts the next row if it does. Every line comes from one row, and no row is passed over.
-/
namespace PageScript

open List (Forall₂)

variable {φ α : Type} [Scalar α]

namespace Chunk

/-- The width of chunks next to each other behind some others, of which `last` is the last. -/
def reachFrom (width : α) (last : Chunk φ α) : List (Chunk φ α) → α
  | [] => width
  | chunk :: chunks => reachFrom (width + last.spaceAfter + chunk.width) chunk chunks

/-- The width of chunks next to each other, added up from the first to the last. -/
def reach : List (Chunk φ α) → α
  | [] => Scalar.zero
  | chunk :: chunks => reachFrom (Scalar.zero + chunk.width) chunk chunks

theorem reachFrom_concat (width : α) (last : Chunk φ α) (chunks : List (Chunk φ α))
    (chunk : Chunk φ α) : reachFrom width last (chunks ++ [chunk]) =
      reachFrom width last chunks + ((last :: chunks).getLast (List.cons_ne_nil _ _)).spaceAfter +
        chunk.width := by
  induction chunks generalizing width last with
  | nil => rfl
  | cons next chunks ih =>
    rw [List.cons_append, reachFrom, ih]
    rfl

/-- One more chunk is added up with the space before it. -/
theorem reach_concat {chunks : List (Chunk φ α)} {last : Chunk φ α}
    (hlast : chunks.getLast? = some last) (chunk : Chunk φ α) :
    reach (chunks ++ [chunk]) = reach chunks + last.spaceAfter + chunk.width := by
  cases chunks with
  | nil => cases hlast
  | cons first chunks =>
    rw [List.getLast?_eq_some_getLast (List.cons_ne_nil _ _)] at hlast
    obtain rfl := Option.some.inj hlast
    exact reachFrom_concat ..

end Chunk

/-- Rows of chunks as they are filled one after another. -/
structure Row.Greedy (limit : α) (rows : List (List (Chunk φ α))) : Prop where
  ne_nil : ∀ chunks ∈ rows, chunks ≠ []
  /-- A chunk that is not the first of its row fits behind those before it. -/
  fits : ∀ chunks ∈ rows, ∀ before chunk, before ≠ [] → before ++ [chunk] <+: chunks →
    Scalar.less limit (Chunk.reach (before ++ [chunk])) = false
  /-- The first chunk of a row does not fit on the row before. -/
  full : rows.IsChain fun chunks next => ∃ first, next.head? = some first ∧
    Scalar.less limit (Chunk.reach (chunks ++ [first])) = true

namespace Row

/-- A row that goes on. -/
structure Filling (limit : α) (last : Chunk φ α) (before : List (Chunk φ α)) (width : α) : Prop where
  width : width = Chunk.reach (last :: before).reverse
  fits : ∀ first chunk, first ≠ [] → first ++ [chunk] <+: (last :: before).reverse →
    Scalar.less limit (Chunk.reach (first ++ [chunk])) = false

theorem filling_single (limit : α) (chunk : Chunk φ α) :
    Filling limit chunk [] (Scalar.zero + chunk.width) where
  width := rfl
  fits first next hne hprefix := by
    have hlength := hprefix.length_le
    simp only [List.length_append, List.length_singleton, List.reverse_singleton] at hlength
    exact absurd (List.length_eq_zero_iff.mp (by omega)) hne

theorem Filling.reach_concat {limit width : α} {last : Chunk φ α} {before : List (Chunk φ α)}
    (h : Filling limit last before width) (chunk : Chunk φ α) :
    Chunk.reach ((last :: before).reverse ++ [chunk]) = width + last.spaceAfter + chunk.width := by
  have hlast : (last :: before).reverse.getLast? = some last := by simp
  rw [Chunk.reach_concat hlast, h.width]

theorem Filling.next {limit width : α} {last chunk : Chunk φ α} {before : List (Chunk φ α)}
    (h : Filling limit last before width)
    (hfit : Scalar.less limit (width + last.spaceAfter + chunk.width) = false) :
    Filling limit chunk (last :: before) (width + last.spaceAfter + chunk.width) := by
  have hreach : Chunk.reach (chunk :: last :: before).reverse =
      width + last.spaceAfter + chunk.width := by
    rw [List.reverse_cons, h.reach_concat]
  refine ⟨hreach.symm, fun first next hne hprefix => ?_⟩
  rw [List.reverse_cons, List.prefix_concat_iff] at hprefix
  rcases hprefix with heq | hprefix
  · rw [heq, ← List.reverse_cons, hreach]
    exact hfit
  · exact h.fits first next hne hprefix

theorem Filling.row_fits {limit width : α} {last : Chunk φ α} {before : List (Chunk φ α)}
    (h : Filling limit last before width) {rows : List (List (Chunk φ α))} (hrows : Greedy limit rows)
    (hfull : ∀ next ∈ rows.head?, ∃ first, next.head? = some first ∧
      Scalar.less limit (width + last.spaceAfter + first.width) = true) :
    Greedy limit ((last :: before).reverse :: rows) where
  ne_nil := List.forall_mem_cons.mpr ⟨by simp, hrows.ne_nil⟩
  fits := List.forall_mem_cons.mpr ⟨h.fits, hrows.fits⟩
  full := by
    refine List.isChain_cons.mpr ⟨fun next hnext => ?_, hrows.full⟩
    obtain ⟨first, hfirst, hless⟩ := hfull next hnext
    refine ⟨first, hfirst, ?_⟩
    rw [h.reach_concat]
    exact hless

/-- The row that is going on is the first one, and starts with the chunks that it has. -/
theorem head_fillFrom (limit width : α) (last : Chunk φ α) (before chunks : List (Chunk φ α)) :
    ∃ row rows, fillFrom limit last before width chunks = row :: rows ∧
      (last :: before).reverse <+: row.chunks := by
  induction chunks generalizing last before width with
  | nil => exact ⟨_, _, rfl, List.prefix_rfl⟩
  | cons chunk chunks ih =>
    rw [fillFrom]
    split
    · exact ⟨_, _, rfl, List.prefix_rfl⟩
    · obtain ⟨row, rows, hrows, hprefix⟩ :=
        ih (width + last.spaceAfter + chunk.width) chunk (last :: before)
      have hmore : (chunk :: last :: before).reverse = (last :: before).reverse ++ [chunk] :=
        List.reverse_cons
      exact ⟨row, rows, hrows, ((hmore ▸ List.prefix_append ..).trans hprefix)⟩

theorem Filling.greedy {limit width : α} {last : Chunk φ α} {before : List (Chunk φ α)}
    (h : Filling limit last before width) (chunks : List (Chunk φ α)) :
    Greedy limit ((fillFrom limit last before width chunks).map Row.chunks) ∧
      ∀ row ∈ fillFrom limit last before width chunks, row.width = Chunk.reach row.chunks := by
  induction chunks generalizing last before width with
  | nil =>
    refine ⟨h.row_fits ⟨by simp, by simp, by simp⟩ (by simp), ?_⟩
    simpa [fillFrom] using h.width
  | cons chunk chunks ih =>
    rw [fillFrom]
    split
    · next hless =>
      obtain ⟨hgreedy, hwidth⟩ := ih (filling_single limit chunk)
      obtain ⟨row, rows, hrows, hprefix⟩ :=
        head_fillFrom limit (Scalar.zero + chunk.width) chunk [] chunks
      refine ⟨h.row_fits hgreedy ?_, List.forall_mem_cons.mpr ⟨h.width, hwidth⟩⟩
      rw [hrows]
      rintro _ ⟨⟩
      obtain ⟨more, hmore⟩ := hprefix
      exact ⟨chunk, by rw [← hmore]; rfl, hless⟩
    · next hfit => exact ih (h.next ((Bool.not_eq_true _).mp hfit))

theorem chunks_fillFrom (limit width : α) (last : Chunk φ α) (before chunks : List (Chunk φ α)) :
    (fillFrom limit last before width chunks).flatMap Row.chunks =
      (last :: before).reverse ++ chunks := by
  induction chunks generalizing last before width with
  | nil => simp [fillFrom]
  | cons chunk chunks ih =>
    rw [fillFrom]
    split
    · rw [List.flatMap_cons, ih]
      simp
    · rw [ih]
      simp

/-- The rows have all chunks in order. -/
theorem chunks_fill (limit : α) (chunks : List (Chunk φ α)) :
    (fill limit chunks).flatMap Row.chunks = chunks := by
  cases chunks with
  | nil => rfl
  | cons chunk chunks => simp [fill, chunks_fillFrom]

/-- Rows are filled greedily, and their widths are those of their chunks next to each other. -/
theorem greedy_fill (limit : α) (chunks : List (Chunk φ α)) :
    Greedy limit ((fill limit chunks).map Row.chunks) ∧
      ∀ row ∈ fill limit chunks, row.width = Chunk.reach row.chunks := by
  cases chunks with
  | nil => exact ⟨⟨by simp [fill], by simp [fill], by simp [fill]⟩, by simp [fill]⟩
  | cons chunk chunks => exact (filling_single limit chunk).greedy chunks

theorem Greedy.take {limit : α} {rows : List (List (Chunk φ α))} (h : Greedy limit rows) (n : Nat) :
    Greedy limit (rows.take n) where
  ne_nil chunks hchunks := h.ne_nil chunks (List.mem_of_mem_take hchunks)
  fits chunks hchunks := h.fits chunks (List.mem_of_mem_take hchunks)
  full := h.full.take n

end Row

/-! ### Rows as lines -/

variable [FlowFont φ α]

/-- The line of a row at a baseline. -/
def Row.line (options : FlowOptions α) (rect : Rectangle α) (isLast : Bool) (baseline : α)
    (row : Row φ α) : Line φ α :=
  layOut options.horizontalScaling (Column.spread options rect isLast row).1 baseline row.height
    (Column.spread options rect isLast row).2 row.chunks

namespace Pen

def shift (dy : α) (pen : Pen φ α) : Pen φ α := { pen with spans := pen.spans.map (LineSpan.shift dy) }

/-- A word is set in the same way whatever the baseline is. -/
theorem place_shift (baseline wordSpacing dy : α) (pen : Pen φ α) (piece : Option α × Word φ α) :
    place (baseline + dy) wordSpacing (pen.shift dy) piece =
      (place baseline wordSpacing pen piece).shift dy := by
  obtain ⟨spans, x⟩ := pen
  obtain ⟨gap, word⟩ := piece
  cases spans with
  | nil => rfl
  | cons span spans =>
    simp only [place, shift, List.map_cons]
    have hsize : (span.shift dy).size = span.size := rfl
    have hfont : (span.shift dy).font = span.font := rfl
    rw [hsize, hfont]
    split
    · cases gap <;> rfl
    · rfl

end Pen

theorem Row.line_shift (options : FlowOptions α) (rect : Rectangle α) (isLast : Bool)
    (baseline dy : α) (row : Row φ α) : (row.line options rect isLast baseline).shift dy =
      row.line options rect isLast (baseline + dy) := by
  have hfold (wordSpacing left : α) (ps : List (Option α × Word φ α)) :
      ps.foldl (Pen.place (baseline + dy) wordSpacing) (Pen.shift dy ⟨[], left⟩) =
        (ps.foldl (Pen.place baseline wordSpacing) ⟨[], left⟩).shift dy :=
    List.foldl_hom (Pen.shift dy) (Pen.place_shift baseline wordSpacing dy)
  simp only [Pen.shift, List.map_nil] at hfold
  simp [line, layOut, Line.shift, hfold]

theorem mem_of_forall₂ {β γ : Type} {R : β → γ → Prop} {xs : List β} {ys : List γ}
    (h : Forall₂ R xs ys) : ∀ x ∈ xs, ∃ y ∈ ys, R x y := by
  induction h with
  | nil => simp
  | cons hxy _ ih =>
    refine List.forall_mem_cons.mpr ⟨⟨_, List.mem_cons_self, hxy⟩, fun x hx => ?_⟩
    obtain ⟨y, hy, hr⟩ := ih x hx
    exact ⟨y, List.mem_cons_of_mem _ hy, hr⟩

theorem map_eq_map_of_forall₂ {β γ δ : Type} {f : β → δ} {g : γ → δ} {xs : List β} {ys : List γ}
    (h : Forall₂ (fun x y => f x = g y) xs ys) : xs.map f = ys.map g := by
  rwa [← List.forall₂_eq_eq_eq, List.forall₂_map_left_iff, List.forall₂_map_right_iff]

namespace Flow

/-- The lines that fit, be they all or not. -/
def placed : Except (Overflow φ α) (List (Line φ α)) → List (Line φ α)
  | .ok lines => lines
  | .error overflow => overflow.lines

/-- Lines pair with rows: all of them, or the first ones if the lines overflow. -/
def Pairs (R : Line φ α → Row φ α → Prop) (rows : List (Row φ α)) :
    Except (Overflow φ α) (List (Line φ α)) → Prop
  | .ok lines => Forall₂ R lines rows
  | .error overflow => ∃ n, Forall₂ R overflow.lines (rows.take n)

omit [Scalar α] [FlowFont φ α] in
theorem Pairs.exists_row {R : Line φ α → Row φ α → Prop} {rows : List (Row φ α)}
    {result : Except (Overflow φ α) (List (Line φ α))} (h : Pairs R rows result) :
    ∀ line ∈ placed result, ∃ row ∈ rows, R line row := by
  cases result with
  | ok lines => exact mem_of_forall₂ h
  | error overflow =>
    obtain ⟨n, hn⟩ := h
    intro line hline
    obtain ⟨row, hrow, hr⟩ := mem_of_forall₂ hn line hline
    exact ⟨row, List.mem_of_mem_take hrow, hr⟩

end Flow

namespace Column

variable {options : FlowOptions α} {rect : Rectangle α} {R : Line φ α → Row φ α → Prop}

theorem place_line (options : FlowOptions α) (rect : Rectangle α) (isLast : Bool)
    (column : Column φ α) (row : Row φ α) :
    place options rect isLast column row = .error ⟨column.lines.reverse⟩ ∨
      ∃ remaining baseline, place options rect isLast column row =
        .ok ⟨row.line options rect isLast baseline :: column.lines, remaining, baseline⟩ := by
  unfold place
  dsimp only
  generalize (if column.lines.isEmpty then Scalar.zero else options.lineSpacing) = spacing
  split
  · exact .inl rfl
  · exact .inr ⟨_, _, rfl⟩

/-- What holds of every row and its line holds of the lines of a column. -/
theorem pairs_placeAll (column : Column φ α) {done rows : List (Row φ α)}
    (hR : ∀ row ∈ rows, ∀ isLast baseline, R (row.line options rect isLast baseline) row)
    (h : Forall₂ R column.lines.reverse done) :
    Flow.Pairs R (done ++ rows) ((placeAll options rect column rows).map (·.lines.reverse)) := by
  induction rows generalizing column done with
  | nil => simpa [placeAll, Except.map, Flow.Pairs] using h
  | cons row rows ih =>
    obtain ⟨hrow, hrows⟩ := List.forall_mem_cons.mp hR
    rw [placeAll]
    rcases place_line options rect rows.isEmpty column row with hp | ⟨remaining, baseline, hp⟩
    · have hdone : (done ++ row :: rows).take done.length = done := by simp
      rw [hp]
      exact ⟨done.length, by rwa [hdone]⟩
    · have hnext : Forall₂ R (row.line options rect rows.isEmpty baseline :: column.lines).reverse
          (done ++ [row]) := by
        rw [List.reverse_cons]
        exact List.rel_append h (.cons (hrow _ _) .nil)
      rw [hp]
      have hall := ih ⟨_, remaining, baseline⟩ hrows hnext
      rwa [List.append_assoc] at hall

/-- What stays true of lines that are moved holds of them where they are aligned. -/
theorem pairs_align (hshift : ∀ line row dy, R line row → R (line.shift dy) row)
    {column : Column φ α} {rows : List (Row φ α)} (h : Forall₂ R column.lines.reverse rows) :
    Flow.Pairs R rows (align options rect column) := by
  have hmoved (dy : α) : Flow.Pairs R rows
      (if Scalar.same dy Scalar.zero then .ok column.lines.reverse
        else .ok (column.lines.reverse.map (Line.shift dy))) := by
    split
    · exact h
    · exact List.forall₂_map_left_iff.mpr (h.imp fun line row hline => hshift line row dy hline)
  unfold align
  dsimp only
  split
  · refine ⟨rows.length - 1, ?_⟩
    rw [← List.dropLast_reverse, List.dropLast_eq_take, h.length_eq]
    exact List.forall₂_take _ h
  · exact hmoved _

end Column

namespace Flow

/-- The lines of some chunks in a rectangle. -/
def linesOf (options : FlowOptions α) (rect : Rectangle α) (chunks : List (Chunk φ α)) :
    Except (Overflow φ α) (List (Line φ α)) := do
  let column ← Column.placeAll options rect ⟨[], rect.height, rect.top⟩ (Row.fill rect.width chunks)
  column.align options rect

variable {options : FlowOptions α} {rect : Rectangle α} {R : Line φ α → Row φ α → Prop}

theorem pairs_linesOf (chunks : List (Chunk φ α))
    (hR : ∀ row ∈ Row.fill rect.width chunks, ∀ isLast baseline,
      R (row.line options rect isLast baseline) row)
    (hshift : ∀ line row dy, R line row → R (line.shift dy) row) :
    Pairs R (Row.fill rect.width chunks) (linesOf options rect chunks) := by
  have hplaced := Column.pairs_placeAll ⟨[], rect.height, rect.top⟩ hR .nil
  rw [List.nil_append] at hplaced
  unfold linesOf
  cases hp : Column.placeAll options rect ⟨[], rect.height, rect.top⟩
      (Row.fill rect.width chunks) with
  | ok column =>
    rw [hp] at hplaced
    exact Column.pairs_align hshift hplaced
  | error overflow =>
    rw [hp] at hplaced
    exact hplaced

end Flow

end PageScript
