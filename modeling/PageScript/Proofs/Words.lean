import Mathlib.Data.List.TakeWhile
import PageScript.Flow.Chunk

/-!
# The words of a text

A text has its words as the longest runs of letters that no separator stands in, each letter in the
font and size of its span.
-/
namespace PageScript

section Runs

variable {γ : Type} (p : γ → Bool)

/-- The longest runs in which nothing satisfies `p`, in order. -/
def runs (xs : List γ) : List (List γ) := (xs.splitOnP p).filter (!·.isEmpty)

/-- No run goes on from the first list into the second. -/
def Parted (before behind : List γ) : Prop :=
  ∀ x ∈ before.getLast?, ∀ y ∈ behind.head?, p x ∨ p y

variable {p} {a b w xs : List γ}

@[simp] theorem runs_nil : runs p [] = [] := by simp [runs]

theorem runs_append_cons {s : γ} (hs : p s) : runs p (a ++ s :: b) = runs p a ++ runs p b := by
  simp [runs, List.splitOnP_append_cons a b hs]

theorem runs_cons {s : γ} (hs : p s) : runs p (s :: b) = runs p b := by
  simpa using runs_append_cons (a := []) (b := b) hs

theorem runs_concat {s : γ} (hs : p s) : runs p (a ++ [s]) = runs p a := by
  simpa using runs_append_cons (a := a) (b := []) hs

theorem runs_append (h : Parted p a b) : runs p (a ++ b) = runs p a ++ runs p b := by
  cases ha : a.getLast? with
  | none => simp [List.getLast?_eq_none_iff.mp ha]
  | some x =>
    cases b with
    | nil => simp
    | cons y b =>
      obtain ⟨a', rfl⟩ := List.getLast?_eq_some_iff.mp ha
      rcases h x ha y rfl with hx | hy
      · rw [List.append_assoc, List.singleton_append, runs_append_cons hx, runs_concat hx]
      · rw [runs_append_cons hy, runs_cons hy]

theorem runs_self (hne : w ≠ []) (hw : ∀ x ∈ w, p x = false) : runs p w = [w] := by
  simp [runs, List.splitOnP_eq_singleton hw, hne]

theorem flatten_splitOnPPrepend (xs letters : List γ) :
    (List.splitOnPPrepend p xs letters).flatten = letters.reverse ++ xs.filter (!p ·) := by
  induction xs generalizing letters with
  | nil => simp
  | cons x xs ih =>
    have hnil := ih []
    rw [List.splitOnPPrepend_nil_right] at hnil
    by_cases hx : p x <;> simp [List.splitOnPPrepend_cons_eq_if, hx, ih, hnil]

/-- The runs together are all that does not satisfy `p`. -/
theorem flatten_runs : (runs p xs).flatten = xs.filter (!p ·) := by
  have h := @flatten_splitOnPPrepend γ p xs []
  simpa [runs, List.flatten_filter_not_isEmpty] using h

theorem mem_filter_of_mem_runs {x : γ} (h : w ∈ runs p xs) (hx : x ∈ w) :
    x ∈ xs.filter (!p ·) := by
  rw [← flatten_runs]
  exact List.mem_flatten.mpr ⟨w, h, hx⟩

theorem mem_of_mem_runs {x : γ} (h : w ∈ runs p xs) (hx : x ∈ w) : x ∈ xs :=
  (List.mem_filter.mp (mem_filter_of_mem_runs h hx)).1

theorem not_of_mem_runs {x : γ} (h : w ∈ runs p xs) (hx : x ∈ w) : p x = false := by
  simpa using (List.mem_filter.mp (mem_filter_of_mem_runs h hx)).2

theorem ne_nil_of_mem_runs (h : w ∈ runs p xs) : w ≠ [] := by
  simpa using (List.mem_filter.mp h).2

theorem runs_map {δ : Type} {f : δ → γ} (ys : List δ) :
    runs p (ys.map f) = (runs (p ∘ f) ys).map (List.map f) := by
  have hsplit (letters : List δ) : List.splitOnPPrepend p (ys.map f) (letters.map f) =
      (List.splitOnPPrepend (p ∘ f) ys letters).map (List.map f) := by
    induction ys generalizing letters with
    | nil => simp
    | cons y ys ih =>
      have hnil := ih []
      simp only [List.map_nil, List.splitOnPPrepend_nil_right] at hnil
      have hcons := ih (y :: letters)
      rw [List.map_cons] at hcons
      by_cases hy : p (f y) <;> simp [List.splitOnPPrepend_cons_eq_if, hy, hnil, hcons]
  have h := hsplit []
  simp only [List.map_nil, List.splitOnPPrepend_nil_right] at h
  simp [runs, h, List.filter_map, Function.comp_def]

/-- What does not begin with `p` begins with a run. -/
theorem exists_first_run (xs : List γ) {x : γ} (hx : p x = false) :
    ∃ w rest, x :: xs = w ++ rest ∧ w ≠ [] ∧ (∀ y ∈ w, p y = false) ∧ ∀ y ∈ rest.head?, p y := by
  refine ⟨(x :: xs).takeWhile (!p ·), (x :: xs).dropWhile (!p ·),
    List.takeWhile_append_dropWhile.symm, by simp [hx], fun y hy => ?_, fun y hy => ?_⟩
  · simpa using List.mem_takeWhile_imp hy
  · have := List.head?_dropWhile_not (fun y => !p y) (x :: xs)
    rw [Option.mem_def.mp hy] at this
    simpa using this

/-- What does not end with `p` ends with a run. -/
theorem exists_last_run {x : γ} (hlast : xs.getLast? = some x) (hx : p x = false) :
    ∃ rest w, xs = rest ++ w ∧ w ≠ [] ∧ (∀ y ∈ w, p y = false) ∧ ∀ y ∈ rest.getLast?, p y := by
  have hhead : xs.reverse.head? = some x := by simpa using hlast
  obtain ⟨tail, htail⟩ := List.head?_eq_some_iff.mp hhead
  obtain ⟨w, rest, heq, hne, hw, hrest⟩ := exists_first_run tail hx
  refine ⟨rest.reverse, w.reverse, ?_, by simpa using hne, by simpa using hw, by simpa using hrest⟩
  rw [← List.reverse_append, ← heq, ← htail, List.reverse_reverse]

/-- A run that goes on from one list into the next is one run of both together. -/
theorem runs_glue {x y : γ} (ha : a.getLast? = some x) (hx : p x = false) (hy : p y = false) :
    ∃ ra w v rb, runs p a = ra ++ [w] ∧ runs p (y :: b) = v :: rb ∧
      runs p (a ++ y :: b) = ra ++ (w ++ v) :: rb := by
  obtain ⟨a', w, rfl, hwne, hw, ha'⟩ := exists_last_run ha hx
  obtain ⟨v, b', hb, hvne, hv, hb'⟩ := exists_first_run b hy
  have hleft (c : List γ) : Parted p a' c := fun s hs _ _ => .inl (ha' s hs)
  have hright (c : List γ) : Parted p c b' := fun _ _ s hs => .inr (hb' s hs)
  have hwv : runs p (w ++ v) = [w ++ v] :=
    runs_self (by simp [hwne]) (fun z hz => (List.mem_append.mp hz).elim (hw z) (hv z))
  refine ⟨runs p a', w, v, runs p b', ?_, ?_, ?_⟩
  · rw [runs_append (hleft w), runs_self hwne hw]
  · rw [hb, runs_append (hright v), runs_self hvne hv, List.singleton_append]
  · have hassoc : a' ++ w ++ (v ++ b') = a' ++ ((w ++ v) ++ b') := by simp
    rw [hb, hassoc, runs_append (hleft _), runs_append (hright _), hwv, List.singleton_append]

/-- The first runs are those of a beginning that does not end inside a run. -/
theorem exists_take_runs (p : γ → Bool) (xs : List γ) (n : Nat) :
    ∃ before behind, xs = before ++ behind ∧ Parted p before behind ∧
      runs p before = (runs p xs).take n := by
  induction hlen : xs.length using Nat.strong_induction_on generalizing xs n with
  | _ len ih =>
    cases xs with
    | nil => exact ⟨[], [], rfl, by simp [Parted], by simp⟩
    | cons x xs =>
      cases hx : p x with
      | true =>
        obtain ⟨before, behind, rfl, hparted, hruns⟩ := ih xs.length (by simp [← hlen]) xs n rfl
        have hsame : runs p (x :: before) = (runs p (x :: (before ++ behind))).take n := by
          rw [runs_cons hx, runs_cons hx, hruns]
        refine ⟨x :: before, behind, rfl, fun s hs t ht => ?_, hsame⟩
        cases before with
        | nil =>
          obtain rfl := Option.some.inj hs
          exact .inl hx
        | cons z before => exact hparted s (by simpa using hs) t ht
      | false =>
        obtain ⟨w, rest, heq, hne, hw, hrest⟩ := exists_first_run xs hx
        have hpart (c : List γ) : Parted p c rest := fun _ _ s hs => .inr (hrest s hs)
        have hrest_lt : rest.length < len := by
          have := congrArg List.length heq
          have := List.length_pos_iff.mpr hne
          simp only [List.length_append] at *
          omega
        rw [heq, runs_append (hpart w), runs_self hne hw, List.singleton_append]
        cases n with
        | zero => exact ⟨[], w ++ rest, rfl, by simp [Parted], by simp⟩
        | succ n =>
          obtain ⟨before, behind, rfl, hparted, hruns⟩ := ih _ hrest_lt rest n rfl
          have hwb : Parted p w before := by
            cases before with
            | nil => simp [Parted]
            | cons z before => exact fun _ _ s hs => .inr (hrest s hs)
          refine ⟨w ++ before, behind, by simp, fun s hs t ht => ?_, ?_⟩
          · cases before with
            | nil => exact .inr (hrest t ht)
            | cons z before => exact hparted s (by simpa using hs) t ht
          · rw [runs_append hwb, runs_self hne hw, hruns, List.singleton_append,
              List.take_succ_cons]

end Runs

/-- A letter with the font and size in which it is set. -/
structure Glyph (φ α : Type) where
  char : Char
  font : φ
  size : α

namespace Glyph

variable {φ α : Type}

def ofText (text : String) (font : φ) (size : α) : List (Glyph φ α) :=
  text.toList.map (⟨·, font, size⟩)

def isSeparator (g : Glyph φ α) : Bool := Word.isSeparator g.char

end Glyph

variable {φ α : Type}

def Span.glyphs (s : Span φ α) : List (Glyph φ α) := Glyph.ofText s.text s.font s.size

/-- The text that some spans are together. -/
def Flow.text (spans : List (Span φ α)) : List (Glyph φ α) := spans.flatMap Span.glyphs

def Word.glyphs (w : Word φ α) : List (Glyph φ α) := Glyph.ofText w.text w.font w.size

def Chunk.glyphs (c : Chunk φ α) : List (Glyph φ α) := c.words.flatMap Word.glyphs

namespace Word

theorem textsFrom_eq (letters text : List Char) : textsFrom letters text =
    (List.splitOnPPrepend isSeparator text letters).filter (!·.isEmpty) := by
  induction text generalizing letters with
  | nil => cases letters <;> simp [textsFrom]
  | cons c text ih =>
    have hnil := ih []
    rw [List.splitOnPPrepend_nil_right] at hnil
    rw [textsFrom, List.splitOnPPrepend_cons_eq_if]
    split
    · cases letters <;> simp [hnil]
    · exact ih (c :: letters)

theorem textsFrom_nil (text : List Char) : textsFrom [] text = runs isSeparator text :=
  textsFrom_eq [] text

end Word

end PageScript
