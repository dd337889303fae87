import PageScript.Proofs.LineBreaks

/-!
# Filled lines

A line is laid out from a group of the chunks that are filled greedily, and shows their words. Words
that follow each other in one font and size are one span, with a space wherever one chunk ends and
the next begins, and none between the pieces of a chunk.
-/
namespace PageScript

open List (Forall₂)

variable {φ α : Type}

/-- A word of a row, with how many chunks are before its own. -/
structure RowWord (φ α : Type) where
  word : Word φ α
  number : Nat

/-- The words of the chunks of a row. -/
def Row.numbered (chunks : List (Chunk φ α)) : List (RowWord φ α) :=
  chunks.zipIdx.flatMap fun c => c.1.words.map (⟨·, c.2⟩)

/-- The text of words that are set as one, with a space wherever a chunk begins. -/
def RowWord.spell : List (RowWord φ α) → List Char
  | [] => []
  | [w] => w.word.text.toList
  | v :: w :: ws =>
    v.word.text.toList ++ (if v.number = w.number then [] else [' ']) ++ spell (w :: ws)

/-- The span shows some words, in the font and size of the first of them. -/
structure Span.Joins (s : Span φ α) (group : List (RowWord φ α)) : Prop where
  text : s.text.toList = RowWord.spell group
  first : ∃ w, group.head? = some w ∧ s.font = w.word.font ∧ s.size = w.word.size

/-! ### Words behind each other -/

namespace RowWord

/-- One more word is spelled behind the last one. -/
theorem spell_concat {group : List (RowWord φ α)} {last : RowWord φ α}
    (hlast : group.getLast? = some last) (w : RowWord φ α) : spell (group ++ [w]) =
      spell group ++ (if last.number = w.number then [] else [' ']) ++ w.word.text.toList := by
  induction group with
  | nil => cases hlast
  | cons v ws ih =>
    cases ws with
    | nil =>
      obtain rfl := Option.some.inj hlast
      rfl
    | cons u ws =>
      rw [List.getLast?_cons_cons] at hlast
      have hspell := ih hlast
      simp only [List.cons_append] at hspell
      simp only [List.cons_append, spell, hspell, List.append_assoc]

/-- The words, each with whether it is in another chunk than the one before it. -/
def jointsFrom (number : Nat) : List (RowWord φ α) → List (Bool × Word φ α)
  | [] => []
  | w :: ws => (number != w.number, w.word) :: jointsFrom w.number ws

theorem jointsFrom_cons (number : Nat) (w : RowWord φ α) (ws : List (RowWord φ α)) :
    jointsFrom number (w :: ws) = (number != w.number, w.word) :: jointsFrom w.number ws := rfl

theorem jointsFrom_chunk (number : Nat) (words : List (Word φ α)) (rest : List (RowWord φ α)) :
    jointsFrom number (words.map (⟨·, number⟩) ++ rest) =
      words.map (false, ·) ++ jointsFrom number rest := by
  induction words with
  | nil => rfl
  | cons word words ih => simp [jointsFrom, ih]

end RowWord

namespace Row

variable [Scalar α]

/-- A gap is before each word that a chunk begins with, and before no other word. -/
theorem joints_from (gap : α) {number first : Nat} (h : number < first)
    (chunks : List (Chunk φ α)) :
    (pieces Scalar.zero (some gap) chunks).map (fun p => (p.1.isSome, p.2)) =
      RowWord.jointsFrom number
        ((chunks.zipIdx first).flatMap fun c => c.1.words.map (⟨·, c.2⟩)) := by
  induction chunks generalizing gap number first with
  | nil => rfl
  | cons chunk chunks ih =>
    rw [pieces, List.map_append, List.zipIdx_cons, List.flatMap_cons]
    cases chunk.words with
    | nil => exact ih _ (Nat.lt_succ_of_lt h)
    | cons word words =>
      have hnumber : (number != first) = true := bne_iff_ne.mpr h.ne
      rw [ih _ (Nat.lt_succ_self first)]
      simp only [List.map_cons, List.cons_append, RowWord.jointsFrom_cons,
        RowWord.jointsFrom_chunk, hnumber]
      simp [Function.comp_def]

/-- The first word of all may be behind chunks that have none. -/
theorem joints_numbered (chunks : List (Chunk φ α)) :
    numbered chunks = [] ∧ joints chunks = [] ∨
      ∃ gap first rest, numbered chunks = first :: rest ∧
        joints chunks = (gap, first.word) :: RowWord.jointsFrom first.number rest := by
  cases chunks with
  | nil => exact .inl ⟨rfl, rfl⟩
  | cons chunk chunks =>
    have hmore := joints_from (chunk.spaceAfter + Scalar.zero) (Nat.zero_lt_one) chunks
    rw [numbered, joints, pieces, List.map_append, hmore, List.zipIdx_cons, List.flatMap_cons]
    cases chunk.words with
    | nil =>
      cases ((chunks.zipIdx 1).flatMap fun c => c.1.words.map (⟨·, c.2⟩ : _ → RowWord φ α)) with
      | nil => exact .inl ⟨rfl, rfl⟩
      | cons first rest => exact .inr ⟨_, first, rest, rfl, rfl⟩
    | cons word words =>
      refine .inr ⟨false, ⟨word, 0⟩, words.map (⟨·, 0⟩) ++ _, rfl, ?_⟩
      rw [RowWord.jointsFrom_chunk]
      simp [Function.comp_def]

end Row

/-! ### Words in one style -/

variable [Scalar α] [FlowFont φ α]

/-- The words are in one font and size. -/
def RowWord.alike (a b : RowWord φ α) : Bool :=
  Scalar.same a.word.size b.word.size && FlowFont.sameFont a.word.font b.word.font

/-- The words are cut into groups. A group goes on for as long as the words are alike to the first
one in it. -/
structure RowWord.Cuts (words : List (RowWord φ α)) (groups : List (List (RowWord φ α))) :
    Prop where
  flatten : groups.flatten = words
  uniform : ∀ group ∈ groups, ∃ first more, group = first :: more ∧ ∀ w ∈ more, first.alike w
  parted : groups.IsChain fun a b => ∀ v ∈ a.head?, ∀ w ∈ b.head?, v.alike w = false

namespace RowWord

variable {first next : RowWord φ α} {more words group : List (RowWord φ α)}
  {groups : List (List (RowWord φ α))}

theorem cuts_single (h : ∀ w ∈ more, first.alike w) : Cuts (first :: more) [first :: more] where
  flatten := List.flatten_singleton
  uniform := List.forall_mem_singleton.mpr ⟨first, more, rfl, h⟩
  parted := List.isChain_singleton _

theorem Cuts.cons (h : Cuts words (group :: groups)) (hgroup : group.head? = some next)
    (hmore : ∀ w ∈ more, first.alike w) (hnext : first.alike next = false) :
    Cuts (first :: more ++ words) ((first :: more) :: group :: groups) where
  flatten := by rw [List.flatten_cons, h.flatten]
  uniform := List.forall_mem_cons.mpr ⟨⟨first, more, rfl, hmore⟩, h.uniform⟩
  parted := by
    refine List.isChain_cons_cons.mpr ⟨?_, h.parted⟩
    rw [hgroup]
    rintro _ ⟨⟩ _ ⟨⟩
    exact hnext

end RowWord

/-- The line shows the words of some chunks, those that are alike as one span. -/
def Line.Spells (line : Line φ α) (chunks : List (Chunk φ α)) : Prop :=
  ∃ groups, RowWord.Cuts (Row.numbered chunks) groups ∧ Forall₂ Span.Joins line.content groups

namespace Span

variable {span : Span φ α} {before : List (Span φ α)} {group : List (RowWord φ α)}
  {groups : List (List (RowWord φ α))} {last : RowWord φ α}

omit [FlowFont φ α] [Scalar α] in
theorem joins_single (w : RowWord φ α) : w.word.content.Joins [w] := ⟨rfl, w, rfl, rfl, rfl⟩

omit [FlowFont φ α] [Scalar α] in
theorem Joins.concat (h : span.Joins group) (hlast : group.getLast? = some last)
    (w : RowWord φ α) : Joins { span with
      text := span.text ++ (if last.number != w.number then " " else "") ++ w.word.text }
      (group ++ [w]) where
  text := by
    rw [RowWord.spell_concat hlast, ← h.text]
    by_cases hn : last.number = w.number <;> simp [hn]
  first := by
    obtain ⟨first, hfirst, hstyle⟩ := h.first
    exact ⟨first, by simp [List.head?_append, hfirst], hstyle⟩

omit [FlowFont φ α] [Scalar α] in
theorem Joins.behind (h : span.Joins group) (hbefore : Forall₂ Joins before.reverse groups) :
    Forall₂ Joins (span :: before).reverse (groups ++ [group]) := by
  rw [List.reverse_cons]
  exact List.rel_append hbefore (.cons h .nil)

/-- Words that come behind a span go on with it for as long as they are alike to its first one, and
are spans of their own from where they are not. -/
theorem joins_fold {first : RowWord φ α} {more : List (RowWord φ α)}
    (hbefore : Forall₂ Joins before.reverse groups) (hspan : span.Joins (first :: more))
    (hlast : (first :: more).getLast? = some last) (hmore : ∀ w ∈ more, first.alike w)
    (ws : List (RowWord φ α)) : ∃ group rest,
      RowWord.Cuts (first :: more ++ ws) (group :: rest) ∧ group.head? = some first ∧
      Forall₂ Joins ((RowWord.jointsFrom last.number ws).foldl Span.set (span :: before)).reverse
        (groups ++ group :: rest) := by
  -- The last span may still grow, so that its words are not among the groups that are complete.
  induction ws generalizing span before groups first more last with
  | nil =>
    rw [List.append_nil]
    exact ⟨_, [], RowWord.cuts_single hmore, rfl, hspan.behind hbefore⟩
  | cons w ws ih =>
    obtain ⟨_, ⟨⟩, hfont, hsize⟩ := hspan.first
    have halike : (Scalar.same span.size w.word.size && FlowFont.sameFont span.font w.word.font) =
        first.alike w := by
      rw [hfont, hsize]
      rfl
    rw [RowWord.jointsFrom_cons, List.foldl_cons, Span.set]
    dsimp only
    rw [halike]
    split
    · next hw =>
      have hgrown : ∀ v ∈ more ++ [w], first.alike v :=
        List.forall_mem_append.mpr ⟨hmore, List.forall_mem_singleton.mpr hw⟩
      have hlast' : (first :: (more ++ [w])).getLast? = some w := by
        rw [← List.cons_append, List.getLast?_concat]
      have hwords : first :: more ++ w :: ws = first :: (more ++ [w]) ++ ws := by simp
      rw [hwords]
      exact ih hbefore (hspan.concat hlast w) hlast' hgrown
    · next hw =>
      obtain ⟨group, rest, hcuts, hgroup, hjoins⟩ :=
        ih (hspan.behind hbefore) (joins_single w) rfl (by simp)
      have hcut := hcuts.cons hgroup hmore ((Bool.not_eq_true _).mp hw)
      rw [List.append_assoc] at hjoins
      exact ⟨_, _, hcut, rfl, hjoins⟩

end Span

/-- The spans of a row are its words, cut wherever one is not alike to the first of its span. -/
theorem Row.joins_content (row : Row φ α) : ∃ groups,
    RowWord.Cuts (numbered row.chunks) groups ∧ Forall₂ Span.Joins row.content groups := by
  rw [content]
  rcases joints_numbered row.chunks with
    ⟨hnumbered, hjoints⟩ | ⟨gap, first, rest, hnumbered, hjoints⟩
  · rw [hnumbered, hjoints]
    exact ⟨[], ⟨rfl, by simp, .nil⟩, .nil⟩
  · rw [hnumbered, hjoints]
    have hnone : Forall₂ Span.Joins ([] : List (Span φ α)).reverse [] := .nil
    obtain ⟨group, more, hcuts, -, hjoins⟩ :=
      Span.joins_fold hnone (Span.joins_single first) rfl (by simp) rest
    exact ⟨_, hcuts, hjoins⟩

theorem Row.spells_line (options : FlowOptions α) (rect : Rectangle α) (isLast : Bool)
    (baseline : α) (row : Row φ α) : (row.line options rect isLast baseline).Spells row.chunks := by
  rw [Line.Spells, line, content_layOut]
  exact row.joins_content

/-! ### Lines of greedy rows -/

namespace Flow

/-- The line is what some chunks are laid out as, with the width that they have side by side, and
shows their words. -/
structure LaidOut (options : FlowOptions α) (rect : Rectangle α) (line : Line φ α)
    (chunks : List (Chunk φ α)) : Prop where
  placed : ∃ isLast baseline,
    line = Row.line options rect isLast baseline ⟨chunks, Chunk.reach chunks⟩
  spelled : line.Spells chunks

variable {options : FlowOptions α} {rect : Rectangle α}

theorem laidOut_line {row : Row φ α} (h : row.width = Chunk.reach row.chunks) (isLast : Bool)
    (baseline : α) : LaidOut options rect (row.line options rect isLast baseline) row.chunks where
  placed := ⟨isLast, baseline, by rw [← h]⟩
  spelled := row.spells_line ..

theorem LaidOut.shift {line : Line φ α} {chunks : List (Chunk φ α)}
    (h : LaidOut options rect line chunks) (dy : α) :
    LaidOut options rect (line.shift dy) chunks where
  placed := by
    obtain ⟨isLast, baseline, rfl⟩ := h.placed
    exact ⟨isLast, baseline + dy, Row.line_shift ..⟩
  spelled := by
    rw [Line.Spells, Line.content_shift]
    exact h.spelled

/-- The lines are laid out from groups of the chunks that are filled greedily, and show their words:
those of all chunks, or those of the first ones if the lines overflow. -/
theorem fills_greedily (options : FlowOptions α) (rect : Rectangle α) :
    (∀ spans : List (Span φ α), lines options spans rect =
      if Scalar.atMost rect.width Scalar.zero then .ok []
      else linesOf options rect (Chunk.split options spans)) ∧
    ∀ chunks : List (Chunk φ α), ∃ rows : List (List (Chunk φ α)), Row.Greedy rect.width rows ∧
      Forall₂ (LaidOut options rect) (placed (linesOf options rect chunks)) rows ∧
      rows.flatten <+: chunks ∧ ((linesOf options rect chunks).isOk → rows.flatten = chunks) := by
  refine ⟨fun spans => rfl, fun chunks => ?_⟩
  obtain ⟨hgreedy, hwidth⟩ := Row.greedy_fill rect.width chunks
  have hall : ((Row.fill rect.width chunks).map Row.chunks).flatten = chunks := by
    rw [← List.flatMap_def, Row.chunks_fill]
  have hpairs : Pairs (fun line row => LaidOut options rect line row.chunks)
      (Row.fill rect.width chunks) (linesOf options rect chunks) :=
    pairs_linesOf chunks (fun row hrow => laidOut_line (hwidth row hrow))
      fun _ _ dy h => h.shift dy
  cases hresult : linesOf options rect chunks with
  | ok lines =>
    rw [hresult] at hpairs
    have hprefix : ((Row.fill rect.width chunks).map Row.chunks).flatten <+: chunks := by rw [hall]
    exact ⟨_, hgreedy, List.forall₂_map_right_iff.mpr hpairs, hprefix, fun _ => hall⟩
  | error overflow =>
    rw [hresult] at hpairs
    obtain ⟨n, hn⟩ := hpairs
    have hprefix := (List.take_prefix n ((Row.fill rect.width chunks).map Row.chunks)).flatten
    rw [hall] at hprefix
    refine ⟨_, hgreedy.take n, ?_, hprefix, fun h => (Bool.false_ne_true h).elim⟩
    rw [← List.map_take]
    exact List.forall₂_map_right_iff.mpr hn

end Flow

end PageScript
