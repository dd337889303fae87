import PageScript.Conversion.Operation
import PageScript.Proofs.Recording

/-!
# Writing as lists of calls

What is written, once all handles are known, is a list of calls that no answer changes.
-/
namespace PageScript.Conversion

variable {φ ω α : Type}

def written (op : Operator) (operands : List Value) : List Call :=
  operands.map .operand ++ [.operator op]

def imageCalls (handle : String) (x y width height : Float32) : List Call :=
  written .saveState [] ++
    (written .concatMatrix
        [.number width, .number 0, .number 0, .number height, .number x, .number y] ++
      (written .paintXObject [.name handle] ++ written .restoreState []))

def patternCalls (stroking : Bool) (components : List Value) (handle : String) : List Call :=
  written (if stroking then .setStrokeColorSpace else .setFillColorSpace) [.name "/Pattern"] ++
    written (if stroking then .setStrokeColorN else .setFillColorN) (components ++ [.name handle])

def TextState.behind (s : LineSpan (LoadedFont φ) Float32) : TextState :=
  ⟨some (s.font.handle, s.size), s.wordSpacing, s.x, s.baseline⟩

def spanCalls (t : TextState) (s : LineSpan (LoadedFont φ) Float32) : List Call :=
  (if t.hasFont s then [] else written .setFont [.name s.font.handle, .number s.size]) ++
    ((if s.wordSpacing == t.wordSpacing then []
        else written .setWordSpacing [.number s.wordSpacing]) ++
      (written .moveText [.number (s.x - t.x), .number (s.baseline - t.y)] ++
        written .showText [.string (Latin1.encode s.text)]))

def spansCalls (t : TextState) : List (LineSpan (LoadedFont φ) Float32) → List Call
  | [] => []
  | s :: spans => spanCalls t s ++ spansCalls (.behind s) spans

def textCalls (options : FlowOptions Float32) (lines : List (Line (LoadedFont φ) Float32)) :
    List Call :=
  (if options.characterSpacing == 0 then []
      else written .setCharSpacing [.number options.characterSpacing]) ++
    ((if options.horizontalScaling == 1 then []
        else written .setHorizontalScaling [.number (options.horizontalScaling * 100)]) ++
      spansCalls {} (lines.flatMap Line.spans))

def linesCalls (options : FlowOptions Float32) (lines : List (Line (LoadedFont φ) Float32)) :
    List Call :=
  if lines.isEmpty then []
  else written .saveState [] ++ .beginText :: (written .beginText [] ++
    (textCalls options lines ++ (written .endText [] ++ .endText :: written .restoreState [])))

variable (env : Environment φ ω)

theorem discard_unit (m : Conversion φ ω Unit) : discard m = m := by
  rw [discard, map_const]
  exact id_map m

theorem sendAll_operands (operands : List Value) :
    (operands.forM fun v => call env (.operand v)) = sendAll env (operands.map .operand) := by
  induction operands with
  | nil => rfl
  | cons v operands ih =>
    have hv : send env (.operand v) = call env (.operand v) := discard_unit _
    rw [List.map_cons, sendAll_cons, hv, ← ih]
    rfl

theorem sendAll_singleton (k : Call) : sendAll env [k] = send env k := by
  simp [sendAll]

theorem write_eq (op : Operator) (operands : List Value) :
    write env op operands = sendAll env (written op operands) := by
  have ho : send env (.operator op) = call env (.operator op) := discard_unit _
  rw [write, sendAll_operands, written, sendAll_append, sendAll_singleton, ho]

theorem writeHandle_eq (op : Operator) (handle : String → Conversion φ ω String) (name : String)
    (rest : List Value) : writeHandle env op handle (.name name :: rest) =
      handle name >>= fun h => sendAll env (written op (.name h :: rest)) := by
  simp only [← write_eq]
  rfl

theorem sendAll_nil : sendAll env [] = pure () := rfl

theorem writeSpan_eq [FontMetrics φ Float32] (t : TextState)
    (s : LineSpan (LoadedFont φ) Float32) :
    writeSpan env t s = (do sendAll env (spanCalls t s); pure (.behind s)) := by
  unfold writeSpan spanCalls
  simp only [sendAll_append, write_eq]
  split <;> split <;> simp [sendAll_nil, TextState.behind]

theorem writeSpans_eq [FontMetrics φ Float32] (t : TextState)
    (spans : List (LineSpan (LoadedFont φ) Float32)) :
    discard (spans.foldlM (writeSpan env) t) = sendAll env (spansCalls t spans) := by
  induction spans generalizing t with
  | nil => rfl
  | cons s spans ih =>
    rw [spansCalls, sendAll_append, ← ih, List.foldlM_cons, writeSpan_eq]
    simp [discard, map_const]

theorem writeLines_eq [FontMetrics φ Float32] (options : FlowOptions Float32)
    (lines : List (Line (LoadedFont φ) Float32)) :
    writeLines env options lines = sendAll env (linesCalls options lines) := by
  have hb : call env .beginText = send env .beginText := (discard_unit _).symm
  have he : call env .endText = send env .endText := (discard_unit _).symm
  unfold writeLines linesCalls textCalls
  simp only [write_eq, writeSpans_eq]
  split
  · simp [*, sendAll_nil]
  · split <;> split <;> simp [*, sendAll_append, sendAll_cons]

end PageScript.Conversion
