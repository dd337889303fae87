import Mathlib.Data.List.Forall2
import Mathlib.Data.List.SplitBy
import PageScript.Proofs.Words

/-!
# The pieces of words

A word may go on over several spans. Its chunk has one piece for each of them, cut where a span ends
and the next begins.
-/
namespace PageScript

open List (Forall₂)

variable {φ α : Type}

/-- A letter of some spans, with the span that it is from and how many spans are before that one. -/
structure SpanLetter (φ α : Type) where
  char : Char
  span : Span φ α
  number : Nat

namespace SpanLetter

def isSeparator (l : SpanLetter φ α) : Bool := Word.isSeparator l.char

def sameSpan (a b : SpanLetter φ α) : Bool := a.number == b.number

def glyph (l : SpanLetter φ α) : Glyph φ α := ⟨l.char, l.span.font, l.span.size⟩

end SpanLetter

def Span.letters (s : Span φ α) (number : Nat) : List (SpanLetter φ α) :=
  s.text.toList.map (⟨·, s, number⟩)

/-- The text that some spans are together, each letter with its span. -/
def Flow.spanLetters (spans : List (Span φ α)) : List (SpanLetter φ α) :=
  spans.zipIdx.flatMap fun s => s.1.letters s.2

def Chunk.text (c : Chunk φ α) : List Char := c.words.flatMap (·.text.toList)

variable [FlowFont φ α] {options : FlowOptions α}

/-- The word has the letters of a piece of a span, and the font and size of the span. -/
structure Word.Sets (options : FlowOptions α) (word : Word φ α) (piece : List (SpanLetter φ α)) :
    Prop where
  text : word.text.toList = piece.map SpanLetter.char
  ne_nil : piece ≠ []
  font : ∀ l ∈ piece, word.font = l.span.font
  size : ∀ l ∈ piece, word.size = l.span.size
  width : word.width = FontMetrics.textWidth word.font word.text word.size options.characterSpacing
    options.horizontalScaling

/-- The chunk has the pieces of a word, and behind it a space of the last one. -/
structure Chunk.Sets (options : FlowOptions α) (chunk : Chunk φ α) (letters : List (SpanLetter φ α)) :
    Prop where
  words : Forall₂ (Word.Sets options) chunk.words (letters.splitBy SpanLetter.sameSpan)
  spaceAfter : ∃ last, chunk.words.getLast? = some last ∧ chunk.spaceAfter =
    FontMetrics.spaceWidth last.font last.size options.characterSpacing options.horizontalScaling

namespace Flow

omit [FlowFont φ α]

theorem spanLetters_append (spans : List (Span φ α)) (span : Span φ α) :
    spanLetters (spans ++ [span]) = spanLetters spans ++ span.letters spans.length := by
  simp [spanLetters, List.zipIdx_append]

theorem number_lt {spans : List (Span φ α)} {l : SpanLetter φ α} (h : l ∈ spanLetters spans) :
    l.number < spans.length := by
  obtain ⟨s, hs, hl⟩ := List.mem_flatMap.mp h
  obtain ⟨c, -, rfl⟩ := List.mem_map.mp hl
  exact List.snd_lt_of_mem_zipIdx hs

theorem span_mem {spans : List (Span φ α)} {l : SpanLetter φ α} (h : l ∈ spanLetters spans) :
    l.span ∈ spans := by
  obtain ⟨s, hs, hl⟩ := List.mem_flatMap.mp h
  obtain ⟨c, -, rfl⟩ := List.mem_map.mp hl
  exact List.fst_mem_of_mem_zipIdx hs

/-- What is told of each letter, whatever the number of its span, is told of the spans in order. -/
theorem map_spanLetters {β : Type} {f : SpanLetter φ α → β} {g : Span φ α → List β}
    (h : ∀ s n, (s.letters n).map f = g s) (spans : List (Span φ α)) :
    (spanLetters spans).map f = spans.flatMap g := by
  have hfst : spans.zipIdx.flatMap (fun s => g s.1) = (spans.zipIdx.map Prod.fst).flatMap g :=
    (List.flatMap_map ..).symm
  rw [spanLetters, List.map_flatMap]
  simp only [h]
  rw [hfst, List.zipIdx_map_fst]

theorem chars_spanLetters (spans : List (Span φ α)) :
    (spanLetters spans).map SpanLetter.char = spans.flatMap (·.text.toList) :=
  map_spanLetters (fun s n => by simp [Span.letters, Function.comp_def]) spans

theorem glyphs_spanLetters (spans : List (Span φ α)) :
    (spanLetters spans).map SpanLetter.glyph = text spans :=
  map_spanLetters (fun s n => by simp [Span.letters, Function.comp_def]; rfl) spans

end Flow

section Runs

omit [FlowFont φ α]

variable {run before behind : List (SpanLetter φ α)} {span : Span φ α} {number : Nat}

theorem number_of_mem_letters {l : SpanLetter φ α} (h : l ∈ span.letters number) :
    l.number = number := by
  obtain ⟨c, -, rfl⟩ := List.mem_map.mp h
  rfl

theorem mem_letters_of_runs (span : Span φ α) (number : Nat) :
    ∀ piece ∈ runs SpanLetter.isSeparator (span.letters number), ∀ l ∈ piece,
      l ∈ span.letters number :=
  fun _ hpiece _ hl => mem_of_mem_runs hpiece hl

/-- A run of one span is one piece. -/
theorem splitBy_of_letters (hne : run ≠ []) (h : ∀ l ∈ run, l.number = number) :
    run.splitBy SpanLetter.sameSpan = [run] := by
  refine List.splitBy_of_isChain hne (List.Pairwise.isChain ?_)
  refine List.pairwise_of_forall_mem_list fun a ha b hb => ?_
  rw [SpanLetter.sameSpan, h a ha, h b hb, beq_self_eq_true]

end Runs

namespace Chunk

/-- The words of one span are its runs of letters. -/
theorem sets_measured (options : FlowOptions α) (span : Span φ α) (number : Nat) :
    Forall₂ (Word.Sets options) (measured options span)
      (runs SpanLetter.isSeparator (span.letters number)) := by
  have hsep : SpanLetter.isSeparator ∘ (fun c => (⟨c, span, number⟩ : SpanLetter φ α)) =
      Word.isSeparator := rfl
  rw [Span.letters, runs_map, hsep, measured, Word.texts, Word.textsFrom_nil, List.map_map,
    List.forall₂_map_left_iff, List.forall₂_map_right_iff, List.forall₂_same]
  intro letters hletters
  exact {
    text := by simp [Function.comp_def]
    ne_nil := by simpa using ne_nil_of_mem_runs hletters
    font := by simp
    size := by simp
    width := rfl }

variable {chunk : Chunk φ α} {word : Word φ α} {run piece : List (SpanLetter φ α)}
  {span : Span φ α} {number : Nat}

/-- The width of a space in a span. -/
def spaceOf (options : FlowOptions α) (span : Span φ α) : α :=
  FontMetrics.spaceWidth span.font span.size options.characterSpacing options.horizontalScaling

/-- A space of the span is one of each word that has a piece of it. -/
theorem spaceOf_eq (hword : word.Sets options piece)
    (hpiece : ∀ l ∈ piece, l ∈ span.letters number) : spaceOf options span =
      FontMetrics.spaceWidth word.font word.size options.characterSpacing
        options.horizontalScaling := by
  obtain ⟨l, hl⟩ := List.exists_mem_of_ne_nil piece hword.ne_nil
  obtain ⟨c, -, rfl⟩ := List.mem_map.mp (hpiece l hl)
  rw [hword.font _ hl, hword.size _ hl]
  rfl

theorem splitBy_piece (hword : word.Sets options piece)
    (hpiece : ∀ l ∈ piece, l ∈ span.letters number) :
    piece.splitBy SpanLetter.sameSpan = [piece] :=
  splitBy_of_letters hword.ne_nil fun l hl => number_of_mem_letters (hpiece l hl)

theorem sets_single (hword : word.Sets options piece)
    (hpiece : ∀ l ∈ piece, l ∈ span.letters number) :
    (single word (spaceOf options span)).Sets options piece where
  words := by
    rw [splitBy_piece hword hpiece]
    exact .cons hword .nil
  spaceAfter := ⟨word, rfl, spaceOf_eq hword hpiece⟩

/-- A word of a later span is a piece of its own at the end of a chunk. -/
theorem Sets.glue [Scalar α] (hchunk : chunk.Sets options run) (hword : word.Sets options piece)
    (hrun : ∀ l ∈ run, l.number < number) (hpiece : ∀ l ∈ piece, l ∈ span.letters number) :
    (glue chunk word (spaceOf options span)).Sets options (run ++ piece) where
  words := by
    have hcut : ∀ x ∈ run.getLast?, ∀ y ∈ piece.head?, SpanLetter.sameSpan x y = false := by
      intro x hx y hy
      have hlt := hrun x (List.mem_of_mem_getLast? hx)
      rw [SpanLetter.sameSpan, number_of_mem_letters (hpiece y (List.mem_of_mem_head? hy))]
      exact beq_eq_false_iff_ne.mpr (Nat.ne_of_lt hlt)
    rw [List.splitBy_append hcut, splitBy_piece hword hpiece]
    exact List.rel_append hchunk.words (.cons hword .nil)
  spaceAfter := ⟨word, List.getLast?_concat .., spaceOf_eq hword hpiece⟩

/-- The chunks, the last one first, with some words of a span behind them. -/
def pushed (options : FlowOptions α) (span : Span φ α) (chunks : List (Chunk φ α))
    (words : List (Word φ α)) : List (Chunk φ α) :=
  words.foldl (fun chunks word => single word (spaceOf options span) :: chunks) chunks

theorem sets_pushed {words : List (Word φ α)} {chunks : List (Chunk φ α)}
    {runs pieces : List (List (SpanLetter φ α))}
    (hchunks : Forall₂ (Sets options) chunks.reverse runs)
    (hwords : Forall₂ (Word.Sets options) words pieces)
    (hpieces : ∀ piece ∈ pieces, ∀ l ∈ piece, l ∈ span.letters number) :
    Forall₂ (Sets options) (pushed options span chunks words).reverse (runs ++ pieces) := by
  induction hwords generalizing chunks runs with
  | nil => simpa [pushed] using hchunks
  | @cons word piece words pieces hword _ ih =>
    obtain ⟨hpiece, hpieces⟩ := List.forall_mem_cons.mp hpieces
    have hnext : Forall₂ (Sets options)
        (single word (spaceOf options span) :: chunks).reverse (runs ++ [piece]) := by
      rw [List.reverse_cons]
      exact List.rel_append hchunks (.cons (sets_single hword hpiece) .nil)
    have hall := ih hnext hpieces
    rwa [List.append_assoc] at hall

/-- The chunks found in some spans are the words of their text, and it is known whether it ends
inside of one. -/
structure Splitting.Finds (options : FlowOptions α) (spans : List (Span φ α)) (s : Splitting φ α) :
    Prop where
  chunks : Forall₂ (Chunk.Sets options) s.chunks.reverse
    (runs SpanLetter.isSeparator (Flow.spanLetters spans))
  inside : s.insideWord = (Flow.spanLetters spans).getLast?.any (!·.isSeparator)

section Finds

variable {spans : List (Span φ α)} {s : Splitting φ α} {l : SpanLetter φ α}
  {more : List (SpanLetter φ α)}

/-- Words found behind no word, or behind a separator, are words of their own. -/
theorem Splitting.Finds.parted (h : s.Finds options spans)
    (hletters : span.letters spans.length = l :: more)
    (hl : (s.insideWord && !l.isSeparator) = false) :
    Forall₂ (Chunk.Sets options) (pushed options span s.chunks (measured options span)).reverse
      (runs SpanLetter.isSeparator (Flow.spanLetters spans ++ span.letters spans.length)) := by
  have hparted : Parted SpanLetter.isSeparator (Flow.spanLetters spans)
      (span.letters spans.length) := by
    rw [hletters]
    intro x hx y hy
    obtain rfl := Option.some.inj hy
    rw [h.inside, Option.mem_def.mp hx, Option.any_some] at hl
    cases hsep : x.isSeparator
    · simpa [hsep] using hl
    · exact .inl rfl
  rw [runs_append hparted]
  exact sets_pushed h.chunks (sets_measured options span spans.length)
    (mem_letters_of_runs span spans.length)

/-- A word found inside of one belongs to the last chunk, and there is one. -/
theorem Splitting.Finds.glued [Scalar α] (h : s.Finds options spans)
    (hletters : span.letters spans.length = l :: more)
    (hl : (s.insideWord && !l.isSeparator) = true) :
    ∃ chunk before word later, s.chunks = chunk :: before ∧
      measured options span = word :: later ∧
      Forall₂ (Chunk.Sets options)
        (pushed options span (glue chunk word (spaceOf options span) :: before) later).reverse
        (runs SpanLetter.isSeparator (Flow.spanLetters spans ++ span.letters spans.length)) := by
  obtain ⟨hinside, hfirst⟩ := Bool.and_eq_true_iff.mp hl
  rw [h.inside] at hinside
  obtain ⟨x, hlast, hx⟩ := (Option.any_eq_true _ _).mp hinside
  obtain ⟨before', run, piece, pieces, hruns, hmore, hboth⟩ :=
    runs_glue (b := more) hlast (by simpa using hx) (by simpa using hfirst)
  rw [← hletters] at hmore hboth
  have hchunks := List.rel_reverse h.chunks
  rw [hruns, List.reverse_reverse, List.reverse_append, List.reverse_singleton,
    List.singleton_append, List.forall₂_cons_right_iff] at hchunks
  obtain ⟨chunk, before, hchunk, hbefore, hs⟩ := hchunks
  have hwords := sets_measured options span spans.length
  rw [hmore, List.forall₂_cons_right_iff] at hwords
  obtain ⟨word, later, hword, hlater, hmeasured⟩ := hwords
  have hpieces := mem_letters_of_runs span spans.length
  rw [hmore, List.forall_mem_cons] at hpieces
  have hrun : ∀ l ∈ run, l.number < spans.length := fun l hl =>
    Flow.number_lt (mem_of_mem_runs (hruns ▸ List.mem_concat_self) hl)
  have hglued : Forall₂ (Sets options) (Chunk.glue chunk word (spaceOf options span) :: before).reverse
      (before' ++ [run ++ piece]) := by
    have hbefore' : Forall₂ (Sets options) before.reverse before' := by
      simpa using List.rel_reverse hbefore
    rw [List.reverse_cons]
    exact List.rel_append hbefore' (.cons (hchunk.glue hword hrun hpieces.1) .nil)
  have hall := sets_pushed hglued hlater hpieces.2
  refine ⟨chunk, before, word, later, hs, hmeasured, ?_⟩
  rw [hboth]
  simpa using hall

theorem Splitting.Finds.splitSpan [Scalar α] (h : s.Finds options spans) (span : Span φ α) :
    (splitSpan options s span).Finds options (spans ++ [span]) := by
  unfold Chunk.splitSpan
  split
  · next hempty =>
    have hnone : span.letters spans.length = [] := by rw [Span.letters, hempty, List.map_nil]
    have hsame : Flow.spanLetters (spans ++ [span]) = Flow.spanLetters spans := by
      rw [Flow.spanLetters_append, hnone, List.append_nil]
    exact ⟨hsame ▸ h.chunks, hsame ▸ h.inside⟩
  · next first rest htext =>
    have hletters : span.letters spans.length =
        ⟨first, span, spans.length⟩ :: rest.map (⟨·, span, spans.length⟩) := by
      rw [Span.letters, htext, List.map_cons]
    refine ⟨?_, ?_⟩
    · rw [Flow.spanLetters_append]
      dsimp only
      cases hfirst : s.insideWord && !Word.isSeparator first with
      | false => exact h.parted hletters hfirst
      | true =>
        obtain ⟨chunk, before, word, later, hs, hmeasured, hglued⟩ := h.glued hletters hfirst
        rw [hs, hmeasured]
        exact hglued
    · have hlast : (span.letters spans.length).getLast? =
          some ⟨(first :: rest).getLast (List.cons_ne_nil _ _), span, spans.length⟩ := by
        rw [Span.letters, htext, List.getLast?_map,
          List.getLast?_eq_some_getLast (List.cons_ne_nil first rest)]
        rfl
      rw [Flow.spanLetters_append, List.getLast?_append, hlast]
      rfl

end Finds

variable [Scalar α] (options) (spans : List (Span φ α))

/-- The chunks of some spans are the words of their text, cut where the spans end. -/
theorem sets_split : Forall₂ (Sets options) (split options spans)
    (runs SpanLetter.isSeparator (Flow.spanLetters spans)) := by
  have hfold (done : List (Span φ α)) (s : Splitting φ α) (h : s.Finds options done) :
      (spans.foldl (Chunk.splitSpan options) s).Finds options (done ++ spans) := by
    induction spans generalizing done s with
    | nil => simpa using h
    | cons span spans ih => simpa using ih _ _ (h.splitSpan span)
  have hnone : (⟨[], false⟩ : Splitting φ α).Finds options [] :=
    ⟨by simp [Flow.spanLetters], rfl⟩
  exact (hfold [] _ hnone).chunks

variable {options spans}

omit [Scalar α] in
theorem forall_pushed {P : Chunk φ α → Prop} (hsingle : ∀ word space, P (single word space))
    (span : Span φ α) (words : List (Word φ α)) {chunks : List (Chunk φ α)}
    (h : ∀ chunk ∈ chunks, P chunk) : ∀ chunk ∈ pushed options span chunks words, P chunk := by
  induction words generalizing chunks with
  | nil => exact h
  | cons word words ih => exact ih (List.forall_mem_cons.mpr ⟨hsingle word _, h⟩)

/-- What holds of chunks of one word, and stays true if a word is added, holds of all chunks. -/
theorem forall_split {P : Chunk φ α → Prop} (hsingle : ∀ word space, P (single word space))
    (hglue : ∀ chunk word space, P chunk → P (glue chunk word space)) :
    ∀ chunk ∈ split options spans, P chunk := by
  have hspan (s : Splitting φ α) (span : Span φ α) (h : ∀ chunk ∈ s.chunks, P chunk) :
      ∀ chunk ∈ (splitSpan options s span).chunks, P chunk := by
    unfold splitSpan
    split
    · exact h
    · dsimp only
      split
      · next word more chunk before _ _ hchunks =>
        rw [hchunks] at h
        obtain ⟨hchunk, hbefore⟩ := List.forall_mem_cons.mp h
        exact forall_pushed hsingle span more
          (List.forall_mem_cons.mpr ⟨hglue chunk word _ hchunk, hbefore⟩)
      · exact forall_pushed hsingle span _ h
  have hfold (s : Splitting φ α) (h : ∀ chunk ∈ s.chunks, P chunk) :
      ∀ chunk ∈ (spans.foldl (splitSpan options) s).chunks, P chunk := by
    induction spans generalizing s with
    | nil => exact h
    | cons span spans ih => exact ih _ (hspan s span h)
  intro chunk hchunk
  exact hfold ⟨[], false⟩ (by simp) chunk (List.mem_reverse.mp hchunk)

theorem words_ne_nil {chunk : Chunk φ α} (h : chunk ∈ split options spans) : chunk.words ≠ [] :=
  forall_split (P := fun chunk => chunk.words ≠ []) (fun _ _ => List.cons_ne_nil _ _)
    (fun _ _ _ => by simp [glue]) chunk h

theorem map_split {β : Type} {f : Chunk φ α → β} {g : List (SpanLetter φ α) → β}
    (h : ∀ chunk run, chunk.Sets options run → f chunk = g run) : (split options spans).map f =
      (runs SpanLetter.isSeparator (Flow.spanLetters spans)).map g := by
  rw [← List.forall₂_eq_eq_eq, List.forall₂_map_left_iff, List.forall₂_map_right_iff]
  exact (sets_split options spans).imp h

omit [Scalar α] in
/-- What the letters of each word are told to be is told of the chunk. -/
theorem Sets.flatMap_words {β : Type} {f : Word φ α → List β} {g : SpanLetter φ α → β}
    (h : chunk.Sets options run)
    (hword : ∀ word piece, Word.Sets options word piece → f word = piece.map g) :
    chunk.words.flatMap f = run.map g := by
  have hpieces (words : List (Word φ α)) (pieces : List (List (SpanLetter φ α)))
      (hall : Forall₂ (Word.Sets options) words pieces) :
      words.flatMap f = pieces.flatten.map g := by
    induction hall with
    | nil => rfl
    | cons hfirst _ ih => rw [List.flatMap_cons, List.flatten_cons, List.map_append, ih, hword _ _ hfirst]
  rw [hpieces _ _ h.words, List.flatten_splitBy]

omit [Scalar α] in
theorem Sets.text (h : chunk.Sets options run) : chunk.text = run.map SpanLetter.char :=
  h.flatMap_words fun _ _ hword => hword.text

omit [Scalar α] in
theorem Sets.glyphs (h : chunk.Sets options run) : chunk.glyphs = run.map SpanLetter.glyph := by
  refine h.flatMap_words fun word piece hword => ?_
  rw [Word.glyphs, Glyph.ofText, hword.text, List.map_map]
  refine List.map_congr_left fun l hl => ?_
  rw [hword.font l hl, hword.size l hl]
  rfl

variable (options spans)

/-- The letters of the chunks are the words of the text, in their fonts and sizes. -/
theorem glyphs_split :
    (split options spans).map glyphs = runs Glyph.isSeparator (Flow.text spans) := by
  rw [map_split fun _ _ => Sets.glyphs, ← Flow.glyphs_spanLetters, runs_map]
  rfl

/-- The chunks of some spans are the words of the text that the spans are together. Each has a piece
for every span that its word goes over, and the space behind it is one of the last of them. -/
theorem split_words :
    (split options spans).map text = runs Word.isSeparator (spans.flatMap (·.text.toList)) ∧
      Forall₂ (Sets options) (split options spans)
        (runs SpanLetter.isSeparator (Flow.spanLetters spans)) := by
  refine ⟨?_, sets_split options spans⟩
  rw [map_split fun _ _ => Sets.text, ← Flow.chars_spanLetters, runs_map]
  rfl

end Chunk

end PageScript
