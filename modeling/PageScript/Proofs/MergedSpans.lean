import PageScript.Proofs.FilledLines
import PageScript.Proofs.SettledRows

/-!
# Merged spans

Where fonts and sizes are compared as equals are, the spans of a line are the longest runs of words
in one style: no two next to each other could be one. The spaces of a span are those that chunks
begin with, and between spans there is no text.
-/
namespace PageScript

open List (Forall₂)

variable {φ α : Type}

/-! ### Spaces in a text -/

/-- A text that neither begins nor ends with a space, and has none next to another. -/
structure Tidy (text : List Char) : Prop where
  ne_nil : text ≠ []
  first : text.head? ≠ some ' '
  last : text.getLast? ≠ some ' '
  single : text.IsChain fun a b => a ≠ ' ' ∨ b ≠ ' '

namespace Tidy

variable {a b : List Char}

theorem of_letters (hne : a ≠ []) (h : ∀ c ∈ a, c ≠ ' ') : Tidy a where
  ne_nil := hne
  first hfirst := h ' ' (List.mem_of_mem_head? hfirst) rfl
  last hlast := h ' ' (List.mem_of_mem_getLast? hlast) rfl
  single := (List.pairwise_of_forall_mem_list fun x hx _ _ => .inl (h x hx)).isChain

/-- Tidy texts may be put behind each other with a space between them or without. -/
theorem append (ha : Tidy a) (hb : Tidy b) {gap : List Char} (hgap : gap = [] ∨ gap = [' ']) :
    Tidy (a ++ gap ++ b) where
  ne_nil := by simp [ha.ne_nil]
  first := by
    rw [List.append_assoc, List.head?_append_of_ne_nil _ ha.ne_nil]
    exact ha.first
  last := by
    rw [List.getLast?_append_of_ne_nil _ hb.ne_nil]
    exact hb.last
  single := by
    have hjoin : (gap ++ b).IsChain fun a b => a ≠ ' ' ∨ b ≠ ' ' := by
      rcases hgap with rfl | rfl
      · exact hb.single
      · refine List.isChain_cons.mpr ⟨fun y hy => .inr ?_, hb.single⟩
        rintro rfl
        exact hb.first hy
    rw [List.append_assoc]
    refine List.isChain_append.mpr ⟨ha.single, hjoin, fun x hx y _ => .inl ?_⟩
    rintro rfl
    exact ha.last hx

end Tidy

namespace RowWord

/-- Words have letters, and no separators. -/
def Lettered (w : RowWord φ α) : Prop :=
  w.word.text.toList ≠ [] ∧ ∀ c ∈ w.word.text.toList, Word.isSeparator c = false

theorem Lettered.tidy {w : RowWord φ α} (h : w.Lettered) : Tidy w.word.text.toList := by
  refine Tidy.of_letters h.1 fun c hc hspace => ?_
  have hsep := h.2 c hc
  rw [hspace] at hsep
  exact absurd hsep (by decide)

theorem tidy_spell {group : List (RowWord φ α)} (hne : group ≠ [])
    (h : ∀ w ∈ group, w.Lettered) : Tidy (spell group) := by
  induction group with
  | nil => exact absurd rfl hne
  | cons v ws ih =>
    obtain ⟨hv, hws⟩ := List.forall_mem_cons.mp h
    cases ws with
    | nil => exact hv.tidy
    | cons w ws =>
      refine hv.tidy.append (ih (List.cons_ne_nil _ _) hws) ?_
      split
      · exact .inl rfl
      · exact .inr rfl

end RowWord

/-! ### Words in one style -/

variable [Scalar α] [FlowFont φ α]

/-- If words are compared as equals are, each of a group is alike to the next, and the last one is
not alike to the first one of the group behind. -/
theorem RowWord.Cuts.eq_splitBy (hsymm : ∀ a b : RowWord φ α, a.alike b → b.alike a)
    (htrans : ∀ a b c : RowWord φ α, a.alike b → b.alike c → a.alike c)
    {words : List (RowWord φ α)} {groups : List (List (RowWord φ α))} (h : Cuts words groups) :
    words.splitBy alike = groups := by
  refine List.splitBy_eq_iff.mpr ⟨h.flatten.symm, fun hnil => ?_, fun group hgroup => ?_, ?_⟩
  · obtain ⟨first, more, heq, -⟩ := h.uniform [] hnil
    cases heq
  · obtain ⟨first, more, rfl, hmore⟩ := h.uniform group hgroup
    have hmutual : more.Pairwise fun v w => v.alike w :=
      List.pairwise_of_forall_mem_list fun v hv w hw =>
        htrans _ _ _ (hsymm _ _ (hmore v hv)) (hmore w hw)
    exact (List.pairwise_cons.mpr ⟨hmore, hmutual⟩).isChain
  · refine h.parted.imp_of_mem_imp fun a b ha hb hcut => ?_
    obtain ⟨first, more, rfl, hmore⟩ := h.uniform a ha
    obtain ⟨next, rest, rfl, -⟩ := h.uniform b hb
    refine ⟨List.cons_ne_nil _ _, List.cons_ne_nil _ _, (Bool.not_eq_true _).mp fun hlast => ?_⟩
    have hfirst : first.alike next := by
      rcases List.mem_cons.mp (List.getLast_mem (List.cons_ne_nil first more)) with heq | hmem
      · rwa [heq] at hlast
      · exact htrans _ _ _ (hmore _ hmem) hlast
    exact Bool.false_ne_true ((hcut first rfl next rfl).symm.trans hfirst)

/-- The line has the words of a row as spans. No two spans next to each other could be one, and the
spaces of a span are those that chunks begin with, since words have none. -/
structure Line.Merges (line : Line φ α) (row : Row φ α) : Prop where
  parted : line.spans.IsChain fun a b =>
    ¬ (FlowFont.sameFont a.font b.font ∧ Scalar.same a.size b.size)
  tidy : ∀ s ∈ line.spans, Tidy s.text.toList
  lettered : ∀ w ∈ Row.numbered row.chunks, w.Lettered
  joined : Forall₂ Span.Joins line.content ((Row.numbered row.chunks).splitBy RowWord.alike)

section Rows

variable {options : FlowOptions α} {spans : List (Span φ α)} {rect : Rectangle α}

/-- The words of the chunks have letters, and no separators. -/
theorem Chunk.lettered_split {chunk : Chunk φ α} (h : chunk ∈ split options spans)
    {w : RowWord φ α} (hw : w.word ∈ chunk.words) : w.Lettered := by
  obtain ⟨run, hrun, hsets⟩ := mem_of_forall₂ (sets_split options spans) chunk h
  obtain ⟨piece, hpiece, hset⟩ := mem_of_forall₂ hsets.words w.word hw
  rw [RowWord.Lettered, hset.text]
  refine ⟨by simpa using hset.ne_nil, List.forall_mem_map.mpr fun l hl => ?_⟩
  have hletter : l ∈ run := by
    rw [← List.flatten_splitBy SpanLetter.sameSpan run]
    exact List.mem_flatten.mpr ⟨piece, hpiece, hl⟩
  have hsep : l.isSeparator = false := not_of_mem_runs hrun hletter
  exact hsep

omit [Scalar α] [FlowFont φ α] in
theorem Row.mem_numbered {chunks : List (Chunk φ α)} {w : RowWord φ α} (h : w ∈ numbered chunks) :
    ∃ chunk ∈ chunks, w.word ∈ chunk.words := by
  obtain ⟨c, hc, hw⟩ := List.mem_flatMap.mp h
  obtain ⟨word, hword, rfl⟩ := List.mem_map.mp hw
  exact ⟨c.1, List.fst_mem_of_mem_zipIdx hc, hword⟩

omit [FlowFont φ α] [Scalar α] in
/-- Spans that show words with letters are tidy. -/
theorem Line.tidy_of_joined {line : Line φ α} {words : List (RowWord φ α)}
    {r : RowWord φ α → RowWord φ α → Bool} (hwords : ∀ w ∈ words, w.Lettered)
    (hjoined : Forall₂ Span.Joins line.content (words.splitBy r)) :
    ∀ s ∈ line.spans, Tidy s.text.toList := by
  intro s hs
  obtain ⟨group, hgroup, hspan⟩ := mem_of_forall₂ hjoined _ (List.mem_map_of_mem hs)
  have hlettered : ∀ w ∈ group, w.Lettered := by
    intro w hw
    refine hwords w ?_
    rw [← List.flatten_splitBy r words]
    exact List.mem_flatten.mpr ⟨group, hgroup, hw⟩
  have htidy := RowWord.tidy_spell (List.ne_nil_of_mem_splitBy hgroup) hlettered
  rw [← hspan.text] at htidy
  exact htidy

/-- A line of a row of the text has merged its words. -/
theorem Row.merges_line (hsymm : ∀ a b : RowWord φ α, a.alike b → b.alike a)
    (htrans : ∀ a b c : RowWord φ α, a.alike b → b.alike c → a.alike c) {row : Row φ α}
    (hrow : row ∈ fill rect.width (Chunk.split options spans)) (isLast : Bool) (baseline : α) :
    (row.line options rect isLast baseline).Merges row := by
  have hchunks : ∀ chunk ∈ row.chunks, chunk ∈ Chunk.split options spans :=
    fun chunk hchunk => mem_fill hrow hchunk
  have hlettered : ∀ w ∈ numbered row.chunks, w.Lettered := by
    intro w hw
    obtain ⟨chunk, hchunk, hword⟩ := mem_numbered hw
    exact Chunk.lettered_split (hchunks chunk hchunk) hword
  have hjoined : Forall₂ Span.Joins (row.line options rect isLast baseline).content
      ((numbered row.chunks).splitBy RowWord.alike) := by
    obtain ⟨groups, hcuts, hjoins⟩ := row.spells_line options rect isLast baseline
    rwa [hcuts.eq_splitBy hsymm htrans]
  refine { parted := ?_, tidy := ?_, lettered := hlettered, joined := hjoined }
  · have hstyles : ((row.line options rect isLast baseline).spans.map LineSpan.style).IsChain
        Differ := by
      rw [line, (sets_layOut ..).styles]
      exact List.isChain_destutter _ _
    refine (List.isChain_map _).mp hstyles |>.imp fun a b hab hboth => ?_
    exact Bool.false_ne_true (hab.symm.trans (Bool.and_eq_true_iff.mpr hboth.symm))
  · exact Line.tidy_of_joined hlettered hjoined

theorem Line.Merges.shift {line : Line φ α} {row : Row φ α} (h : line.Merges row) (dy : α) :
    (line.shift dy).Merges row where
  parted := (List.isChain_map _).mpr h.parted
  tidy := List.forall_mem_map.mpr h.tidy
  lettered := h.lettered
  joined := by
    rw [content_shift]
    exact h.joined

/-- If fonts and sizes are compared as equals are, the lines of a flow have merged the words of its
rows. -/
theorem Flow.merges_lines (hsymm : ∀ a b : RowWord φ α, a.alike b → b.alike a)
    (htrans : ∀ a b c : RowWord φ α, a.alike b → b.alike c → a.alike c)
    (options : FlowOptions α) (spans : List (Span φ α)) (rect : Rectangle α) :
    Pairs Line.Merges (rows options spans rect) (lines options spans rect) := by
  unfold rows lines
  split
  · exact .nil
  · exact pairs_linesOf _ (fun row hrow => Row.merges_line hsymm htrans hrow)
      fun _ _ dy h => h.shift dy

end Rows

/-! ### Sizes in single precision -/

open Float.Model in
theorem eq_of_compare_finite {sign : UnpackedFloat.Sign} {m n : Nat} {e f : Int} (hm : 0 < m)
    (hn : 0 < n) (h : (compare e f).then (compare m n) = .eq) :
    UnpackedFloat.finite sign m e hm = .finite sign n f hn := by
  obtain ⟨hexponent, hmantissa⟩ := Ordering.then_eq_eq.mp h
  obtain rfl := Std.compare_eq_iff_eq.mp hexponent
  obtain rfl := Std.compare_eq_iff_eq.mp hmantissa
  rfl

open Float.Model in
/-- Numbers that compare equal are the same, zeros apart. -/
theorem eq_of_compare {a b : UnpackedFloat} (h : a.compare b = some .eq) :
    a = b ∨ ∃ s t, a = .zero s ∧ b = .zero t := by
  cases a with
  | notANumber => cases h
  | infinity s =>
    cases b with
    | notANumber => cases s <;> cases h
    | infinity t =>
      cases s <;> cases t
      all_goals first | exact .inl rfl | cases h
    | zero t => cases s <;> cases h
    | finite t n f hn => cases s <;> cases h
  | zero s =>
    cases b with
    | notANumber => cases h
    | infinity t => cases t <;> cases h
    | zero t => exact .inr ⟨s, t, rfl, rfl⟩
    | finite t n f hn => cases t <;> cases h
  | finite s m e hm =>
    cases b with
    | notANumber => cases s <;> cases h
    | infinity t => cases s <;> cases t <;> cases h
    | zero t => cases s <;> cases h
    | finite t n f hn =>
      have hsame : s = t := by
        cases s <;> cases t
        all_goals first | rfl | cases h
      subst hsame
      refine .inl (eq_of_compare_finite hm hn ?_)
      cases s with
      | positive => exact Option.some.inj h
      | negative => exact Ordering.swap_inj.mp (Option.some.inj h)

theorem Scalar.same_single (a b : Float32) : Scalar.same a b ↔
    a.toModel.unpack.compare b.toModel.unpack = some .eq := by
  change (a.toModel.unpack.compare b.toModel.unpack == some .eq) = true ↔ _
  exact beq_iff_eq

theorem Scalar.same_symm {a b : Float32} (h : Scalar.same a b) : Scalar.same b a := by
  rw [same_single] at h ⊢
  rcases eq_of_compare h with heq | ⟨s, t, ha, hb⟩
  · rwa [heq] at h ⊢
  · rw [ha, hb]
    rfl

theorem Scalar.same_trans {a b c : Float32} (hab : Scalar.same a b) (hbc : Scalar.same b c) :
    Scalar.same a c := by
  rw [same_single] at hab hbc ⊢
  rcases eq_of_compare hab with heq | ⟨s, t, ha, hb⟩
  · rwa [heq]
  · rcases eq_of_compare hbc with heq | ⟨t', u, -, hc⟩
    · rwa [← heq]
    · rw [ha, hc]
      rfl

/-- Where fonts are the same as equals are, the lines of a flow have merged the words of its rows:
all words of them, or those of the rows that fit. -/
theorem Flow.merges_maximally {ψ : Type} [FlowFont ψ Float32]
    (hfont : Equivalence fun f g : ψ => FlowFont.sameFont f g)
    (options : FlowOptions Float32) (spans : List (Span ψ Float32)) (rect : Rectangle Float32) :
    Pairs Line.Merges (rows options spans rect) (lines options spans rect) := by
  refine merges_lines (fun a b hab => ?_) (fun a b c hab hbc => ?_) options spans rect
  · obtain ⟨hsize, hsame⟩ := Bool.and_eq_true_iff.mp hab
    exact Bool.and_eq_true_iff.mpr ⟨Scalar.same_symm hsize, hfont.symm hsame⟩
  · obtain ⟨hsize, hsame⟩ := Bool.and_eq_true_iff.mp hab
    obtain ⟨hsize', hsame'⟩ := Bool.and_eq_true_iff.mp hbc
    exact Bool.and_eq_true_iff.mpr ⟨Scalar.same_trans hsize hsize', hfont.trans hsame hsame'⟩

/-- A word that goes on in another font, and spaces between words of the two fonts. -/
theorem Flow.merges_maximally_glued :
    let plain : LoadedFont FixedWidthFont := ⟨"F1", .monospace 500 (-200)⟩
    let bold : LoadedFont FixedWidthFont := ⟨"F2", .monospace 600 (-200)⟩
    let spans : List (Span (LoadedFont FixedWidthFont) Float32) :=
      [⟨"one  two th", plain, 10⟩, ⟨"ree ", bold, 10⟩, ⟨"\tfour", bold, 10⟩, ⟨" five", plain, 10⟩]
    let rect : Rectangle Float32 := ⟨0, 0, 120, 30⟩
    (Equivalence fun f g : LoadedFont FixedWidthFont => FlowFont.sameFont f g) ∧
      (placed (lines .standard spans rect)).map (·.spans.map LineSpan.text) =
        [["one two th", "ree four"], ["five"]] ∧
      Pairs Line.Merges (rows .standard spans rect) (lines .standard spans rect) := by
  intro plain bold spans rect
  have hfont : Equivalence fun f g : LoadedFont FixedWidthFont => FlowFont.sameFont f g := by
    have hhandle (f g : LoadedFont FixedWidthFont) : FlowFont.sameFont f g ↔ f.handle = g.handle :=
      beq_iff_eq
    simp only [hhandle]
    exact ⟨fun _ => rfl, Eq.symm, Eq.trans⟩
  have htexts : (placed (lines .standard spans rect)).map (·.spans.map LineSpan.text) =
      [["one two th", "ree four"], ["five"]] := by decide +kernel
  exact ⟨hfont, htexts, merges_maximally hfont .standard spans rect⟩

end PageScript
