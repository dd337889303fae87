import Mathlib
import PageScript.Proofs.Asking
import PageScript.Proofs.Writing

/-!
# The style in which text is shown

Operators set a style, save it and restore it. Replayed from the beginning of its page, what has
been written says in which style each string is shown.
-/
namespace PageScript

open Conversion

/-- The value is a number, and the same as `n` or equal to it. -/
def Value.Is (v : Value) (n : Float32) : Prop := ∃ m, v = .number m ∧ (m = n ∨ (m == n) = true)

theorem Value.is_number (n : Float32) : (number n).Is n := ⟨n, rfl, .inl rfl⟩

theorem Value.is_congr {v : Value} {m n : Float32} (h : (m == n) = true) : v.Is m ↔ v.Is n := by
  constructor
  · rintro ⟨k, rfl, rfl | hk⟩
    · exact ⟨k, rfl, .inr h⟩
    · exact ⟨k, rfl, .inr (BEq.trans hk h)⟩
  · rintro ⟨k, rfl, rfl | hk⟩
    · exact ⟨k, rfl, .inr (BEq.symm h)⟩
    · exact ⟨k, rfl, .inr (BEq.trans hk (BEq.symm h))⟩

/-- What a text is set in, with the operands of the operators that set it. -/
structure TextStyle where
  /-- The font and its size. -/
  font : Option (Value × Value) := none
  charSpacing : Value := .number 0
  wordSpacing : Value := .number 0
  /-- The horizontal scaling in percent. -/
  scaling : Value := .number 100

def TextStyle.set (style : TextStyle) : Operator → List Value → TextStyle
  | .setFont, [font, size] => { style with font := some (font, size) }
  | .setCharSpacing, [char] => { style with charSpacing := char }
  | .setWordSpacing, [word] => { style with wordSpacing := word }
  | .setHorizontalScaling, [scaling] => { style with scaling := scaling }
  | .nextLineSetSpacingShowText, [word, char, _] =>
    { style with wordSpacing := word, charSpacing := char }
  | _, _ => style

/-- The style at some place of a page, the styles saved there, and the operands written since the
last operator. -/
structure Typesetter where
  style : TextStyle := {}
  saved : List TextStyle := []
  operands : List Value := []

namespace Typesetter

def perform (t : Typesetter) (op : Operator) (operands : List Value) : Typesetter :=
  match op, t.saved with
  | .saveState, saved => ⟨t.style, t.style :: saved, []⟩
  | .restoreState, style :: saved => ⟨style, saved, []⟩
  | op, saved => ⟨t.style.set op operands, saved, []⟩

/-- A page begins in the style that nothing has been set in. -/
def after (t : Typesetter) : Call → Typesetter
  | .beginPage _ => { operands := t.operands }
  | .operand v => { t with operands := t.operands ++ [v] }
  | .operator op => t.perform op t.operands
  | _ => t

def replay (t : Typesetter) (calls : List Call) : Typesetter := calls.foldl after t

/-- What a call shows, with the style in which it is shown. -/
def sight (t : Typesetter) : Call → List (TextStyle × List Value)
  | .operator .showText => [(t.style, t.operands)]
  | _ => []

def shown (t : Typesetter) : List Call → List (TextStyle × List Value)
  | [] => []
  | k :: calls => t.sight k ++ (t.after k).shown calls

variable {t : Typesetter} {calls more : List Call} {op : Operator} {values : List Value}

theorem replay_append (t : Typesetter) (calls more : List Call) :
    t.replay (calls ++ more) = (t.replay calls).replay more := List.foldl_append

theorem shown_append (t : Typesetter) (calls more : List Call) :
    t.shown (calls ++ more) = t.shown calls ++ (t.replay calls).shown more := by
  induction calls generalizing t with
  | nil => rfl
  | cons k calls ih =>
    rw [List.cons_append, shown, shown, ih, List.append_assoc]
    rfl

theorem shown_prefix (h : calls <+: more) : t.shown calls <+: t.shown more := by
  obtain ⟨rest, rfl⟩ := h
  rw [shown_append]
  exact List.prefix_append _ _

/-- Calls between those that write change nothing on the page. -/
theorem quiet (h : ∀ k ∈ calls, t.after k = t ∧ t.sight k = []) :
    t.replay calls = t ∧ t.shown calls = [] := by
  induction calls with
  | nil => exact ⟨rfl, rfl⟩
  | cons k calls ih =>
    obtain ⟨⟨hk, hne⟩, hcalls⟩ := List.forall_mem_cons.mp h
    obtain ⟨hreplay, hshown⟩ := ih hcalls
    constructor
    · rw [replay, List.foldl_cons, hk]
      exact hreplay
    · rw [shown, hk, hne, hshown]
      rfl

theorem after_of_asks {k : Call} (h : k.Asks) : t.after k = t ∧ t.sight k = [] := by
  cases k <;> first | exact ⟨rfl, rfl⟩ | exact h.elim

theorem replay_operands (t : Typesetter) (values : List Value) :
    t.replay (values.map .operand) = { t with operands := t.operands ++ values } ∧
      t.shown (values.map .operand) = [] := by
  induction values generalizing t with
  | nil => exact ⟨by simp [replay], rfl⟩
  | cons v values ih =>
    obtain ⟨hreplay, hshown⟩ := ih (t.after (.operand v))
    refine ⟨?_, hshown⟩
    rw [List.map_cons, replay, List.foldl_cons]
    exact hreplay.trans (by simp [after])

theorem replay_written (ht : t.operands = []) :
    t.replay (Conversion.written op values) = t.perform op values := by
  rw [Conversion.written, replay_append, (replay_operands t values).1, ht]
  rfl

theorem shown_written (silent : op ≠ .showText) :
    t.shown (Conversion.written op values) = [] := by
  rw [Conversion.written, shown_append, (replay_operands t values).2, List.nil_append, shown, shown]
  cases op <;> first | rfl | exact absurd rfl silent

theorem shown_showText (ht : t.operands = []) :
    t.shown (Conversion.written .showText values) = [(t.style, values)] := by
  obtain ⟨hreplay, hshown⟩ := replay_operands t values
  rw [Conversion.written, shown_append, hreplay, hshown, ht]
  rfl

end Typesetter

/-- Between two operators the calls lead from one style to another, and show strings on the way. -/
structure Sets (saved : List TextStyle) (style : TextStyle) (calls : List Call)
    (style' : TextStyle) (sights : List (TextStyle × List Value)) : Prop where
  replay : Typesetter.replay ⟨style, saved, []⟩ calls = ⟨style', saved, []⟩
  shown : Typesetter.shown ⟨style, saved, []⟩ calls = sights

namespace Sets

variable {saved : List TextStyle} {style style' style'' : TextStyle} {calls more : List Call}
  {sights sights' : List (TextStyle × List Value)} {values : List Value}

theorem nil : Sets saved style [] style [] := ⟨rfl, rfl⟩

theorem append (h : Sets saved style calls style' sights)
    (h' : Sets saved style' more style'' sights') :
    Sets saved style (calls ++ more) style'' (sights ++ sights') := by
  constructor
  · rw [Typesetter.replay_append, h.replay, h'.replay]
  · rw [Typesetter.shown_append, h.shown, h.replay, h'.shown]

theorem written (op : Operator) (values : List Value) (hs : op ≠ .saveState)
    (hr : op ≠ .restoreState) (silent : op ≠ .showText) :
    Sets saved style (Conversion.written op values) (style.set op values) [] := by
  refine ⟨?_, Typesetter.shown_written silent⟩
  rw [Typesetter.replay_written rfl]
  cases op <;> first | rfl | exact absurd rfl hs | exact absurd rfl hr

/-- An operator that is skipped sets nothing. -/
theorem skipped (skip : Bool) (h : Sets saved style calls style' []) :
    Sets saved style (if skip then [] else calls) (if skip then style else style') [] := by
  cases skip
  · exact h
  · exact nil

theorem showText :
    Sets saved style (Conversion.written .showText values) style [(style, values)] :=
  ⟨Typesetter.replay_written rfl, Typesetter.shown_showText rfl⟩

theorem announced {k : Call} (hk : k = .beginText ∨ k = .endText) :
    Sets saved style [k] style [] := by
  rcases hk with rfl | rfl <;> exact ⟨rfl, rfl⟩

/-- A style that is saved is there again when it is restored, whatever has been set between. -/
theorem restored (h : Sets (style :: saved) style calls style' sights) :
    Sets saved style (Conversion.written .saveState [] ++
      (calls ++ Conversion.written .restoreState [])) style sights := by
  have hsave : Typesetter.replay ⟨style, saved, []⟩ (Conversion.written .saveState []) =
      ⟨style, style :: saved, []⟩ := rfl
  have hrestore : Typesetter.replay ⟨style', style :: saved, []⟩
      (Conversion.written .restoreState []) = ⟨style, saved, []⟩ := rfl
  constructor
  · rw [Typesetter.replay_append, hsave, Typesetter.replay_append, h.replay, hrestore]
  · rw [Typesetter.shown_append, hsave, Typesetter.shown_append, h.shown]
    exact List.append_nil sights

end Sets

variable {φ : Type}

namespace TextStyle

/-- The style with the font of a line span, if it is not the one that is kept in mind. -/
def withFont (style : TextStyle) (t : TextState) (s : LineSpan (LoadedFont φ) Float32) :
    TextStyle :=
  if t.hasFont s then style else { style with font := some (.name s.font.handle, .number s.size) }

/-- The style of a line span, if what is kept in mind is not set again. -/
def forSpan (style : TextStyle) (t : TextState) (s : LineSpan (LoadedFont φ) Float32) : TextStyle :=
  if s.wordSpacing == t.wordSpacing then style.withFont t s
  else { style.withFont t s with wordSpacing := .number s.wordSpacing }

/-- The style in which a text flow begins. -/
def forFlow (style : TextStyle) (options : FlowOptions Float32) : TextStyle :=
  let spaced := if options.characterSpacing == 0 then style
    else { style with charSpacing := .number options.characterSpacing }
  if options.horizontalScaling == 1 then spaced
  else { spaced with scaling := .number (options.horizontalScaling * 100) }

section Span

variable (style : TextStyle) (t : TextState) (s : LineSpan (LoadedFont φ) Float32)

theorem forSpan_font : (style.forSpan t s).font =
    if t.hasFont s then style.font else some (.name s.font.handle, .number s.size) := by
  unfold forSpan withFont
  split <;> split <;> rfl

theorem forSpan_wordSpacing : (style.forSpan t s).wordSpacing =
    if s.wordSpacing == t.wordSpacing then style.wordSpacing else .number s.wordSpacing := by
  unfold forSpan withFont
  split <;> split <;> rfl

@[simp] theorem forSpan_charSpacing : (style.forSpan t s).charSpacing = style.charSpacing := by
  unfold forSpan withFont
  split <;> split <;> rfl

@[simp] theorem forSpan_scaling : (style.forSpan t s).scaling = style.scaling := by
  unfold forSpan withFont
  split <;> split <;> rfl

end Span

section Flow

variable (style : TextStyle) (options : FlowOptions Float32)

theorem forFlow_charSpacing : (style.forFlow options).charSpacing =
    if options.characterSpacing == 0 then style.charSpacing
    else .number options.characterSpacing := by
  unfold forFlow
  split <;> split <;> rfl

theorem forFlow_scaling : (style.forFlow options).scaling =
    if options.horizontalScaling == 1 then style.scaling
    else .number (options.horizontalScaling * 100) := by
  unfold forFlow
  split <;> split <;> rfl

theorem forFlow_wordSpacing : (style.forFlow options).wordSpacing = style.wordSpacing := by
  unfold forFlow
  split <;> split <;> rfl

end Flow

end TextStyle

theorem sets_spanCalls (saved : List TextStyle) (style : TextStyle) (t : TextState)
    (s : LineSpan (LoadedFont φ) Float32) :
    Sets saved style (spanCalls t s) (style.forSpan t s)
      [(style.forSpan t s, [.string (Latin1.encode s.text)])] :=
  (Sets.skipped _ (.written .setFont _ nofun nofun nofun)).append <|
    (Sets.skipped _ (.written .setWordSpacing _ nofun nofun nofun)).append <|
      (Sets.written .moveText _ nofun nofun nofun).append .showText

/-- The line spans as they are shown, each in the style that has been set for it. -/
def sightsFrom (style : TextStyle) (t : TextState) :
    List (LineSpan (LoadedFont φ) Float32) → List (TextStyle × List Value)
  | [] => []
  | s :: spans =>
    (style.forSpan t s, [.string (Latin1.encode s.text)]) ::
      sightsFrom (style.forSpan t s) (.behind s) spans

theorem length_sightsFrom (style : TextStyle) (t : TextState)
    (spans : List (LineSpan (LoadedFont φ) Float32)) :
    (sightsFrom style t spans).length = spans.length := by
  induction spans generalizing style t with
  | nil => rfl
  | cons s spans ih => simp [sightsFrom, ih]

theorem sets_spansCalls (saved : List TextStyle) (style : TextStyle) (t : TextState)
    (spans : List (LineSpan (LoadedFont φ) Float32)) :
    ∃ style', Sets saved style (spansCalls t spans) style' (sightsFrom style t spans) := by
  induction spans generalizing style t with
  | nil => exact ⟨style, .nil⟩
  | cons s spans ih =>
    obtain ⟨style', h⟩ := ih (style.forSpan t s) (.behind s)
    exact ⟨style', (sets_spanCalls saved style t s).append h⟩

/-- A text flow shows its line spans, from the style in which it begins, and leaves the style that
it has found. -/
theorem sets_linesCalls (saved : List TextStyle) (style : TextStyle) (options : FlowOptions Float32)
    (lines : List (Line (LoadedFont φ) Float32)) :
    Sets saved style (linesCalls options lines) style
      (sightsFrom (style.forFlow options) {} (lines.flatMap Line.spans)) := by
  unfold linesCalls
  split
  · next hempty =>
    obtain rfl := List.isEmpty_iff.mp hempty
    exact .nil
  · obtain ⟨style', hspans⟩ :=
      sets_spansCalls (style :: saved) (style.forFlow options) {} (lines.flatMap Line.spans)
    have htext : Sets (style :: saved) style (textCalls options lines) style'
        (sightsFrom (style.forFlow options) {} (lines.flatMap Line.spans)) :=
      (Sets.skipped _ (.written .setCharSpacing _ nofun nofun nofun)).append <|
        (Sets.skipped _ (.written .setHorizontalScaling _ nofun nofun nofun)).append hspans
    have hobject := (Sets.announced (.inl rfl)).append <|
      (Sets.written .beginText [] nofun nofun nofun).append <| htext.append <|
        (Sets.written .endText [] nofun nofun nofun).append (.announced (.inr rfl))
    simpa using hobject.restored

namespace TextStyle

/-- The font of the style is that of the line span. -/
def HasFont (style : TextStyle) (s : LineSpan (LoadedFont φ) Float32) : Prop :=
  ∃ size, style.font = some (.name s.font.handle, size) ∧ size.Is s.size

/-- The line span has been measured in the style. -/
structure Measures (style : TextStyle) (options : FlowOptions Float32)
    (s : LineSpan (LoadedFont φ) Float32) : Prop where
  font : style.HasFont s
  wordSpacing : style.wordSpacing.Is s.wordSpacing
  charSpacing : style.charSpacing.Is options.characterSpacing
  scaling : style.scaling.Is
    (if options.horizontalScaling == 1 then 100 else options.horizontalScaling * 100)

/-- What a flow takes for not set, up to the last of some line spans, is not set in the style. -/
structure Clear (style : TextStyle) (options : FlowOptions Float32)
    (spans : List (LineSpan (LoadedFont φ) Float32)) : Prop where
  charSpacing : (options.characterSpacing == 0) = true → style.charSpacing.Is 0
  scaling : (options.horizontalScaling == 1) = true → style.scaling.Is 100
  wordSpacing : (∀ s ∈ spans, (s.wordSpacing == 0) = true) → style.wordSpacing.Is 0

/-- The font kept in mind is that of the style. -/
def Recalls (style : TextStyle) (t : TextState) : Prop :=
  ∀ handle size, t.font = some (handle, size) →
    ∃ v, style.font = some (.name handle, v) ∧ v.Is size

variable {style : TextStyle} {t : TextState} {s : LineSpan (LoadedFont φ) Float32}

theorem Recalls.forSpan (h : style.Recalls t) : (style.forSpan t s).HasFont s := by
  unfold HasFont
  rw [forSpan_font]
  split
  · next hfont =>
    unfold TextState.hasFont at hfont
    split at hfont
    · next handle size ht =>
      obtain ⟨hhandle, hsize⟩ := Bool.and_eq_true_iff.mp hfont
      obtain ⟨v, hv, his⟩ := h handle size ht
      exact ⟨v, by rw [hv, eq_of_beq hhandle], (Value.is_congr hsize).mp his⟩
    · cases hfont
  · exact ⟨_, rfl, Value.is_number s.size⟩

theorem HasFont.recalls (h : style.HasFont s) : style.Recalls (.behind s) := by
  rintro handle size ⟨⟩
  exact h

theorem wordSpacing_forSpan : (style.forSpan t s).wordSpacing.Is s.wordSpacing ↔
    ((s.wordSpacing == t.wordSpacing) = true → style.wordSpacing.Is t.wordSpacing) := by
  rw [forSpan_wordSpacing]
  split
  · next h => simpa [h] using Value.is_congr h
  · next h => simp [h, Value.is_number]

/-- At each line span the font is that of the line span, and the word spacing too unless it has not
been set and all have the one that is taken for granted. -/
theorem sight_at {spans : List (LineSpan (LoadedFont φ) Float32)} (h : style.Recalls t) {i : Nat}
    {p : TextStyle × List Value} (hp : (sightsFrom style t spans)[i]? = some p) :
    ∃ s, spans[i]? = some s ∧ p.2 = [.string (Latin1.encode s.text)] ∧
      p.1.charSpacing = style.charSpacing ∧ p.1.scaling = style.scaling ∧ p.1.HasFont s ∧
      (p.1.wordSpacing.Is s.wordSpacing ↔
        ((∀ u ∈ spans.take (i + 1), (u.wordSpacing == t.wordSpacing) = true) →
          style.wordSpacing.Is t.wordSpacing)) := by
  -- Behind each line span the font that is kept in mind is the one that has been set. The word
  -- spacing need not be: as long as no span has had another, none has been set.
  induction spans generalizing style t i with
  | nil => cases hp
  | cons s spans ih =>
    cases i with
    | zero =>
      cases hp
      refine ⟨s, rfl, rfl, by simp, by simp, h.forSpan, ?_⟩
      simpa using wordSpacing_forSpan
    | succ i =>
      obtain ⟨u, hu, htext, hchar, hscaling, hfont, hword⟩ := ih h.forSpan.recalls hp
      refine ⟨u, hu, htext, by simpa using hchar, by simpa using hscaling, hfont, ?_⟩
      refine hword.trans ((imp_congr_right fun _ => wordSpacing_forSpan).trans ?_)
      rw [List.take_succ_cons, List.forall_mem_cons, ← and_imp, and_comm]
      refine imp_congr_left (and_congr_right fun hs => forall₂_congr fun v _ => ?_)
      exact ⟨fun hv => BEq.trans hv hs, fun hv => BEq.trans hv (BEq.symm hs)⟩

/-- A line span is shown in the style in which it has been measured if and only if the style behind
which the flow begins is clear up to it. -/
theorem measures_iff {spans : List (LineSpan (LoadedFont φ) Float32)}
    {options : FlowOptions Float32} {i : Nat} {p : TextStyle × List Value}
    (hp : (sightsFrom (style.forFlow options) {} spans)[i]? = some p) :
    ∃ s, spans[i]? = some s ∧ p.2 = [.string (Latin1.encode s.text)] ∧ p.1.HasFont s ∧
      (p.1.Measures options s ↔ style.Clear options (spans.take (i + 1))) := by
  obtain ⟨s, hs, htext, hchar, hscaling, hfont, hword⟩ := sight_at (t := {}) (fun _ _ => nofun) hp
  refine ⟨s, hs, htext, hfont, ?_⟩
  have hchar : p.1.charSpacing.Is options.characterSpacing ↔
      ((options.characterSpacing == 0) = true → style.charSpacing.Is 0) := by
    rw [hchar, forFlow_charSpacing]
    split
    · next h => simpa [h] using Value.is_congr h
    · next h => simp [h, Value.is_number]
  have hscaling : p.1.scaling.Is
      (if options.horizontalScaling == 1 then 100 else options.horizontalScaling * 100) ↔
      ((options.horizontalScaling == 1) = true → style.scaling.Is 100) := by
    rw [hscaling, forFlow_scaling]
    split
    · next h => simp [h]
    · next h => simp [h, Value.is_number]
  rw [forFlow_wordSpacing] at hword
  constructor
  · intro h
    exact ⟨hchar.mp h.charSpacing, hscaling.mp h.scaling, hword.mp h.wordSpacing⟩
  · intro h
    exact ⟨hfont, hword.mpr h.wordSpacing, hchar.mpr h.charSpacing, hscaling.mpr h.scaling⟩

end TextStyle

end PageScript
