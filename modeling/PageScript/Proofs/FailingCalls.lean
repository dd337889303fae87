import PageScript.Proofs.Run

/-!
# Calls that fail

A conversion one of whose calls fails is compared with the same conversion where it does not. Up to
that call both do the same, and there the one that meets the failure stops with it.
-/
namespace PageScript

open Step Converter

variable {φ ω α β ε : Type}

namespace Converter

/-- The converter, in a world that counts the calls made. -/
def counted (c : Recorder φ ω) : Recorder φ (ω × Nat) :=
  { c with world := ((c.world.1, c.events.length), c.world.2) }

@[simp] theorem events_counted (c : Recorder φ ω) : c.counted.events = c.events := rfl

/-- The calls made before the `n`-th are those of the other conversion, with the same answers; the
`n`-th is the same call and fails, and is the last one. -/
def Interrupted (n : Nat) (e : ScriptError) (c : Recorder φ ω) (c' : Recorder φ (ω × Nat)) : Prop :=
  ∃ event, c.events[n]? = some event ∧ c'.events = c.events.take n ++ [⟨event.call, .error e⟩]

variable {n : Nat} {e : ScriptError} {c d : Recorder φ ω} {c' : Recorder φ (ω × Nat)}

/-- What the other conversion does after the call makes no difference. -/
theorem Interrupted.mono (h : c.Interrupted n e c') (later : c.events <+: d.events) :
    d.Interrupted n e c' := by
  obtain ⟨event, hn, he⟩ := h
  obtain ⟨es, hes⟩ := later
  have hlt : n < c.events.length := (List.getElem?_eq_some_iff.mp hn).1
  refine ⟨event, ?_, ?_⟩
  · rw [← hes, List.getElem?_append_left hlt, hn]
  · rw [he, ← hes, List.take_append_of_le_length (Nat.le_of_lt hlt)]

theorem Interrupted.calls_eq (h : c.Interrupted n e c') : c'.calls = c.calls.take (n + 1) := by
  obtain ⟨event, hn, he⟩ := h
  have hcall : c.calls[n]? = some event.call := by rw [calls, List.getElem?_map, hn]; rfl
  rw [List.take_add_one, hcall, calls, he, List.map_append, List.map_take]
  rfl

theorem Interrupted.take_events (h : c.Interrupted n e c') :
    c'.events.take n = c.events.take n := by
  obtain ⟨event, hn, he⟩ := h
  have hlt : n < c.events.length := (List.getElem?_eq_some_iff.mp hn).1
  rw [he, List.take_left' (List.length_take_of_le (Nat.le_of_lt hlt))]

/-- What comes of a conversion, and what comes of it if the call before which `n` others have been
made fails: the same if it makes no such call, and otherwise the failure. -/
def Parallel (n : Nat) (e : ScriptError) (fail : ε) (run : Except ε α × Recorder φ ω)
    (cut : Except ε α × Recorder φ (ω × Nat)) : Prop :=
  if run.2.events.length ≤ n then cut = (run.1, run.2.counted)
  else cut.1 = .error fail ∧ run.2.Interrupted n e cut.2

/-- What a document makes of the error of a statement does not depend on the run. -/
theorem Parallel.outcome {run : Except ScriptError α × Recorder φ ω}
    {cut : Except ScriptError α × Recorder φ (ω × Nat)} (h : Parallel n e e run cut)
    (f : Except ScriptError α → Except ConversionError β)
    (hf : f (.error e) = .error (.conversion e)) :
    Parallel n e (.conversion e) (f run.1, run.2) (f cut.1, cut.2) := by
  by_cases hle : run.2.events.length ≤ n
  · rw [Parallel, if_pos hle] at h ⊢
    rw [h]
  · rw [Parallel, if_neg hle] at h ⊢
    rw [h.1]
    exact ⟨hf, h.2⟩

end Converter

namespace Conversion

/-- A step makes calls one after the other, and stops at the one that fails. -/
def StopsAt (n : Nat) (e : ScriptError) (m : Conversion φ (ω × Array (Event φ)) α)
    (m' : Conversion φ ((ω × Nat) × Array (Event φ)) α) : Prop :=
  ∀ c, c.events <+: (m.run c).2.events ∧
    (c.events.length ≤ n → Parallel n e e (m.run c) (m'.run c.counted))

namespace StopsAt

variable {n : Nat} {e : ScriptError}

/-- A step without calls does the same in both conversions. -/
theorem silent {m : Conversion φ (ω × Array (Event φ)) α}
    {m' : Conversion φ ((ω × Nat) × Array (Event φ)) α}
    (hm : ∀ c, (m.run c).2.events = c.events ∧ m'.run c.counted = ((m.run c).1, (m.run c).2.counted)) :
    StopsAt n e m m' := by
  intro c
  obtain ⟨he, hr⟩ := hm c
  refine ⟨he ▸ List.prefix_refl _, fun hn => ?_⟩
  rw [Parallel, if_pos (he ▸ hn), hr]

theorem pure (a : α) : StopsAt n e (Pure.pure a : Conversion φ (ω × Array (Event φ)) α)
    (Pure.pure a) :=
  silent fun _ => ⟨rfl, rfl⟩

theorem throw (error : ScriptError) :
    StopsAt n e (MonadExcept.throw error : Conversion φ (ω × Array (Event φ)) α)
      (MonadExcept.throw error) :=
  silent fun _ => ⟨rfl, rfl⟩

theorem ofExcept (x : Except ScriptError α) :
    StopsAt n e (MonadExcept.ofExcept x : Conversion φ (ω × Array (Event φ)) α)
      (MonadExcept.ofExcept x) := by
  cases x with
  | ok a => exact pure a
  | error error => exact throw error

theorem modified {f : Recorder φ ω → Recorder φ ω}
    {f' : Recorder φ (ω × Nat) → Recorder φ (ω × Nat)}
    (hf : ∀ c, (f c).events = c.events ∧ f' c.counted = (f c).counted) :
    StopsAt n e (modify f : Conversion φ (ω × Array (Event φ)) PUnit) (modify f') :=
  silent fun c => ⟨(hf c).1, Prod.ext rfl (hf c).2⟩

/-- The failure stops the second conversion, whatever the first one does with its answer. -/
theorem bind {m : Conversion φ (ω × Array (Event φ)) β}
    {m' : Conversion φ ((ω × Nat) × Array (Event φ)) β}
    {f : β → Conversion φ (ω × Array (Event φ)) α}
    {f' : β → Conversion φ ((ω × Nat) × Array (Event φ)) α} (hm : StopsAt n e m m')
    (hf : ∀ b, StopsAt n e (f b) (f' b)) : StopsAt n e (m >>= f) (m' >>= f') := by
  intro c
  obtain ⟨hgrow, hpar⟩ := hm c
  have hlater : (m.run c).2.events <+: ((m >>= f).run c).2.events := by
    rw [run_bind]
    split
    · next b d hr => exact hr ▸ (hf b d).1
    · next hr => exact hr ▸ List.prefix_refl _
  refine ⟨hgrow.trans hlater, fun hn => ?_⟩
  have hd := hpar hn
  by_cases hle : (m.run c).2.events.length ≤ n
  · rw [Parallel, if_pos hle] at hd
    rw [run_bind, run_bind, hd]
    rcases hr : m.run c with ⟨error | b, d⟩
    · rw [hr] at hle
      exact (if_pos hle).mpr rfl
    · rw [hr] at hle
      exact (hf b d).2 hle
  · rw [Parallel, if_neg hle] at hd
    have hstop : (m' >>= f').run c.counted = (.error e, (m'.run c.counted).2) := by
      rw [run_bind, show m'.run c.counted = (.error e, (m'.run c.counted).2) from
        Prod.ext hd.1 rfl]
    rw [Parallel, if_neg (fun h => hle (Nat.le_trans hlater.length_le h)), hstop]
    exact ⟨rfl, hd.2.mono hlater⟩

theorem get_bind {f : Recorder φ ω → Conversion φ (ω × Array (Event φ)) α}
    {f' : Recorder φ (ω × Nat) → Conversion φ ((ω × Nat) × Array (Event φ)) α}
    (hf : ∀ c, StopsAt n e (f c) (f' c.counted)) :
    StopsAt n e (get >>= f) (get >>= f') := fun c => hf c c

end StopsAt

variable (env : Environment φ ω) (n : Nat) (e : ScriptError)

theorem stopsAt_call (k : Call) :
    StopsAt n e (call env.recorded k) (call (env.failingAt n e).recorded k) := by
  intro c
  have hrun : (call env.recorded k).run c = ((env.answer c.world.1 k).1,
      c.record (env.answer c.world.1 k).2 ⟨k, (env.answer c.world.1 k).1⟩) := rfl
  have hcut : (call (env.failingAt n e).recorded k).run c.counted =
      (if c.events.length = n then .error e else (env.answer c.world.1 k).1,
        c.counted.record ((env.answer c.world.1 k).2, c.events.length + 1)
          ⟨k, if c.events.length = n then .error e else (env.answer c.world.1 k).1⟩) := rfl
  rw [hrun, hcut]
  generalize env.answer c.world.1 k = answer
  have hevents := events_record c answer.2 ⟨k, answer.1⟩
  have hlength : (c.record answer.2 ⟨k, answer.1⟩).events.length = c.events.length + 1 := by
    rw [hevents, List.length_append, List.length_singleton]
  refine ⟨⟨_, hevents.symm⟩, fun hn => ?_⟩
  rcases Nat.lt_or_eq_of_le hn with hlt | rfl
  · rw [Parallel, if_pos (hlength ▸ hlt), if_neg (Nat.ne_of_lt hlt), ← hlength]
    rfl
  · rw [Parallel, if_neg (by simp), if_pos rfl]
    refine ⟨rfl, ⟨k, answer.1⟩, ?_, ?_⟩
    · rw [hevents, List.getElem?_concat_length]
    · rw [hevents, List.take_left, events_record, events_counted]

theorem stopsAt_sendAll (ks : List Call) :
    StopsAt n e (sendAll env.recorded ks) (sendAll (env.failingAt n e).recorded ks) := by
  induction ks with
  | nil => exact .pure _
  | cons k ks ih =>
    rw [sendAll_cons, sendAll_cons]
    exact ((stopsAt_call env n e k).bind fun _ => .pure _).bind fun _ => ih

theorem stopsAt_write (op : Operator) (operands : List Value) :
    StopsAt n e (write env.recorded op operands)
      (write (env.failingAt n e).recorded op operands) := by
  rw [write_eq, write_eq]
  exact stopsAt_sendAll env n e _

theorem stopsAt_resource (name : String) (kind : ResourceKind) :
    StopsAt n e (resource name kind : Conversion φ (ω × Array (Event φ)) Resource)
      (resource name kind) := by
  apply StopsAt.get_bind
  intro c
  dsimp only [counted]
  split
  · split
    · exact .pure _
    · exact .throw _
  · exact .throw _

theorem stopsAt_keepHandle (name handle : String) :
    StopsAt n e (do
        keepHandle name handle
        pure handle : Conversion φ (ω × Array (Event φ)) String) (do
        keepHandle name handle
        pure handle) := by
  have hkeep : StopsAt n e (keepHandle name handle : Conversion φ (ω × Array (Event φ)) Unit)
      (keepHandle name handle) := .modified fun _ => ⟨rfl, rfl⟩
  exact hkeep.bind fun _ => .pure handle

theorem stopsAt_resourceHandle (name : String) (kind : ResourceKind) :
    StopsAt n e (resourceHandle env.recorded name kind)
      (resourceHandle (env.failingAt n e).recorded name kind) := by
  apply StopsAt.get_bind
  intro c
  dsimp only [counted]
  split
  · exact .pure _
  · apply (stopsAt_resource n e name kind).bind
    intro r
    cases kind with
    | font => exact (stopsAt_call env n e _).bind (stopsAt_keepHandle n e name)
    | image => exact (stopsAt_call env n e _).bind (stopsAt_keepHandle n e name)

theorem stopsAt_patternHandle (name : String) :
    StopsAt n e (patternHandle env.recorded name)
      (patternHandle (env.failingAt n e).recorded name) := by
  apply StopsAt.get_bind
  intro c
  dsimp only [counted]
  split
  · exact .pure _
  · apply StopsAt.get_bind
    intro c
    dsimp only [counted]
    split
    · exact (stopsAt_call env n e _).bind (stopsAt_keepHandle n e name)
    · exact .throw _

theorem stopsAt_font (name : String) :
    StopsAt n e (font env.recorded name) (font (env.failingAt n e).recorded name) := by
  have hfont (f : φ) : StopsAt n e
      (modify fun c => { c with fonts := c.fonts.insert name f } :
        Conversion φ (ω × Array (Event φ)) Unit)
      (modify fun c => { c with fonts := c.fonts.insert name f }) :=
    .modified fun _ => ⟨rfl, rfl⟩
  apply (stopsAt_resourceHandle env n e name .font).bind
  intro handle
  apply StopsAt.get_bind
  intro c
  dsimp only [counted]
  split
  · exact .pure _
  · apply (stopsAt_resource n e name .font).bind
    intro r
    exact (stopsAt_call env n e _).bind fun f => (hfont f).bind fun _ => .pure _

theorem stopsAt_spansFrom : (items : List Value) →
    StopsAt n e (spansFrom env.recorded items) (spansFrom (env.failingAt n e).recorded items)
  | text :: name :: size :: rest => by
    apply (StopsAt.ofExcept _).bind
    intro bytes
    apply (StopsAt.ofExcept _).bind
    intro x
    apply (stopsAt_font env n e x).bind
    intro f
    apply (StopsAt.ofExcept _).bind
    intro height
    exact (stopsAt_spansFrom rest).bind fun _ => .pure _
  | [] | [_] | [_, _] => .pure _

theorem stopsAt_spans (items : List Value) :
    StopsAt n e (spans env.recorded items) (spans (env.failingAt n e).recorded items) := by
  unfold spans
  split
  · exact stopsAt_spansFrom env n e items
  · exact .throw _

theorem stopsAt_writeHandle (op : Operator)
    {handle : String → Conversion φ (ω × Array (Event φ)) String}
    {handle' : String → Conversion φ ((ω × Nat) × Array (Event φ)) String}
    (hh : ∀ name, StopsAt n e (handle name) (handle' name)) (operands : List Value) :
    StopsAt n e (writeHandle env.recorded op handle operands)
      (writeHandle (env.failingAt n e).recorded op handle' operands) := by
  cases operands with
  | nil => exact stopsAt_write env n e op []
  | cons first rest =>
    apply (StopsAt.ofExcept _).bind
    intro name
    exact (hh name).bind fun _ => stopsAt_write env n e op _

theorem stopsAt_drawImage (operands : List Value) :
    StopsAt n e (drawImage env.recorded operands)
      (drawImage (env.failingAt n e).recorded operands) := by
  unfold drawImage
  split
  · iterate 5 (apply (StopsAt.ofExcept _).bind; intro _)
    apply (stopsAt_resourceHandle env n e _ .image).bind
    intro handle
    iterate 3 (apply (stopsAt_write env n e _ _).bind; intro _)
    exact stopsAt_write env n e _ _
  · exact .pure _

theorem stopsAt_setPattern (stroking : Bool) (components : List Value) (name : String) :
    StopsAt n e (setPattern env.recorded stroking components name)
      (setPattern (env.failingAt n e).recorded stroking components name) := by
  apply (stopsAt_patternHandle env n e name).bind
  intro handle
  exact (stopsAt_write env n e _ _).bind fun _ => stopsAt_write env n e _ _

theorem stopsAt_setColor (op : Operator) (stroking : Bool) (operands : List Value) :
    StopsAt n e (setColor env.recorded op stroking operands)
      (setColor (env.failingAt n e).recorded op stroking operands) := by
  apply StopsAt.get_bind
  intro c
  dsimp only [counted]
  split
  · split
    · exact stopsAt_write env n e _ _
    · split
      · exact stopsAt_setPattern env n e _ _ _
      · exact stopsAt_write env n e _ _
  · exact stopsAt_write env n e _ _

variable [FontMetrics φ Float32]

theorem stopsAt_writeLines (options : FlowOptions Float32)
    (lines : List (Line (LoadedFont φ) Float32)) :
    StopsAt n e (writeLines env.recorded options lines)
      (writeLines (env.failingAt n e).recorded options lines) := by
  rw [writeLines_eq, writeLines_eq]
  exact stopsAt_sendAll env n e _

theorem stopsAt_placed (options : FlowOptions Float32)
    (placed : Except (Overflow (LoadedFont φ) Float32) (List (Line (LoadedFont φ) Float32))) :
    StopsAt n e (match placed with
      | .ok lines => writeLines env.recorded options lines
      | .error overflow => do
        countOverflow
        writeLines env.recorded options overflow.lines) (match placed with
      | .ok lines => writeLines (env.failingAt n e).recorded options lines
      | .error overflow => do
        countOverflow
        writeLines (env.failingAt n e).recorded options overflow.lines) := by
  have hcount : StopsAt n e (countOverflow : Conversion φ (ω × Array (Event φ)) Unit)
      countOverflow := .modified fun _ => ⟨rfl, rfl⟩
  cases placed with
  | ok lines => exact stopsAt_writeLines env n e options lines
  | error overflow => exact hcount.bind fun _ => stopsAt_writeLines env n e options _

theorem stopsAt_flowText (operands : List Value) :
    StopsAt n e (flowText env.recorded operands)
      (flowText (env.failingAt n e).recorded operands) := by
  unfold flowText
  split
  · next array left bottom width height rest =>
    apply (StopsAt.ofExcept _).bind
    intro items
    apply (stopsAt_spans env n e items).bind
    intro spans
    iterate 4 (apply (StopsAt.ofExcept _).bind; intro _)
    cases rest with
    | nil => exact stopsAt_placed env n e _ _
    | cons d rest =>
      apply (StopsAt.ofExcept _).bind
      intro options
      exact stopsAt_placed env n e _ _
  · exact .pure _

theorem stopsAt_writeOperation (op : Operator) (operands : List Value) :
    StopsAt n e (writeOperation env.recorded op operands)
      (writeOperation (env.failingAt n e).recorded op operands) := by
  unfold writeOperation
  split
  · exact stopsAt_drawImage env n e operands
  · exact stopsAt_flowText env n e operands
  · exact stopsAt_writeHandle env n e _ (stopsAt_resourceHandle env n e · .font) operands
  · exact stopsAt_writeHandle env n e _ (stopsAt_resourceHandle env n e · .image) operands
  · exact stopsAt_writeHandle env n e _ (stopsAt_patternHandle env n e) operands
  · exact stopsAt_setColor env n e _ true operands
  · exact stopsAt_setColor env n e _ true operands
  · exact stopsAt_setColor env n e _ false operands
  · exact stopsAt_setColor env n e _ false operands
  · exact stopsAt_write env n e op operands

omit [FontMetrics φ Float32] in
theorem stopsAt_move (next : Context → Except ScriptError Context) :
    StopsAt n e (move next : Conversion φ (ω × Array (Event φ)) Unit) (move next) := by
  have hmove (context : Context) : StopsAt n e
      (modify fun c => { c with context := context } : Conversion φ (ω × Array (Event φ)) Unit)
      (modify fun c => { c with context := context }) := .modified fun _ => ⟨rfl, rfl⟩
  apply StopsAt.get_bind
  intro c
  exact (StopsAt.ofExcept _).bind hmove

theorem stopsAt_operation (o : Operation) :
    StopsAt n e (operation env.recorded o) (operation (env.failingAt n e).recorded o) := by
  rw [operation_eq, operation_eq]
  apply StopsAt.get_bind
  intro c
  apply (StopsAt.ofExcept _).bind
  intro operands
  apply StopsAt.get_bind
  intro before
  apply (stopsAt_move n e _).bind
  intro _
  apply StopsAt.get_bind
  intro after
  apply (stopsAt_sendAll env n e _).bind
  intro _
  apply (stopsAt_writeOperation env n e _ _).bind
  intro _
  exact stopsAt_sendAll env n e _

omit [FontMetrics φ Float32] in
theorem stopsAt_declare (d : Declaration) :
    StopsAt n e (declare d : Conversion φ (ω × Array (Event φ)) Unit) (declare d) := by
  cases d with
  | resource | color | pattern => exact .modified fun _ => ⟨rfl, rfl⟩
  | «variable» name kind value =>
    have hbind (v : Value) : StopsAt n e
        (modify fun c => { c with bindings := c.bindings.insert name v } :
          Conversion φ (ω × Array (Event φ)) Unit)
        (modify fun c => { c with bindings := c.bindings.insert name v }) :=
      .modified fun _ => ⟨rfl, rfl⟩
    apply StopsAt.get_bind
    intro c
    exact (StopsAt.ofExcept _).bind hbind

theorem stopsAt_statement (t : Statement) :
    StopsAt n e (statement env.recorded t) (statement (env.failingAt n e).recorded t) := by
  have hcount : StopsAt n e
      (modify fun c => { c with report.statements := c.report.statements + 1 } :
        Conversion φ (ω × Array (Event φ)) Unit)
      (modify fun c => { c with report.statements := c.report.statements + 1 }) :=
    .modified fun _ => ⟨rfl, rfl⟩
  have hpage : StopsAt n e
      (modify fun c => { c with context := .page, report.pages := c.report.pages + 1 } :
        Conversion φ (ω × Array (Event φ)) Unit)
      (modify fun c => { c with context := .page, report.pages := c.report.pages + 1 }) :=
    .modified fun _ => ⟨rfl, rfl⟩
  apply hcount.bind
  intro _
  cases t with
  | declaration d => exact stopsAt_declare n e d
  | graphics o => exact stopsAt_operation env n e o
  | page size => exact hpage.bind fun _ => stopsAt_call env n e _
  | endPage => exact (stopsAt_move n e _).bind fun _ => stopsAt_call env n e _

theorem stopsAt_statements (ts : List Statement) :
    StopsAt n e (ts.forM (statement env.recorded))
      (ts.forM (statement (env.failingAt n e).recorded)) := by
  induction ts with
  | nil => exact .pure _
  | cons t ts ih => exact (stopsAt_statement env n e t).bind fun _ => ih

omit [FontMetrics φ Float32] in
theorem stopsAt_finish :
    StopsAt n e (finish env.recorded) (finish (env.failingAt n e).recorded) := by
  have hflush : StopsAt n e (do
        call env.recorded .flush
        return (← get).report) (do
        call (env.failingAt n e).recorded .flush
        return (← get).report) :=
    (stopsAt_call env n e .flush).bind fun _ => .get_bind fun _ => .pure _
  apply StopsAt.get_bind
  intro c
  have hsame : undeclared? c.counted = undeclared? c := rfl
  rw [hsame]
  split
  · exact (StopsAt.throw _).bind fun _ => hflush
  · exact hflush

/-- A script that is read to its end is converted statement by statement, and then completed. -/
theorem document_of_complete (c : Converter φ ω) {r : Reader}
    {ts : List Statement} (h : r.document = ts.map .ok) :
    document env c r =
      (((ts.forM (statement env) >>= fun _ => finish env).run c).1.mapError .conversion,
        ((ts.forM (statement env) >>= fun _ => finish env).run c).2) := by
  have hs := statements_append env c ts []
  rw [List.append_nil] at hs
  rw [document, h, hs, run_bind]
  rcases (ts.forM (statement env)).run c with ⟨error | _, d⟩
  · rfl
  · dsimp only [statements]
    rcases (finish env).run d with ⟨error | report, d'⟩ <;> rfl

/-- A script that cannot be read beyond some place is converted up to there. -/
theorem document_of_broken (c : Converter φ ω) {r : Reader}
    {ts : List Statement} {error : StatementError} (h : r.document = ts.map .ok ++ [.error error]) :
    document env c r =
      (((ts.forM (statement env)).run c).1.mapError .conversion >>= fun _ =>
        .error (.statement error), ((ts.forM (statement env)).run c).2) := by
  rw [document, h, statements_append]
  rcases (ts.forM (statement env)).run c with ⟨_ | _, d⟩ <;> rfl

/-- If the call before which `n` others have been made fails, the conversion makes just the calls up
to that one, and it ends with the error of the call. A conversion that makes no such call is the
same. -/
theorem stops_at_failure (overrides : Overrides) (world : ω) (lx : Lexer) :
    let run := document env.recorded (fresh overrides world) (Reader.ofLexer lx)
    let cut := document (env.failingAt n e).recorded (fresh overrides (world, 0))
      (Reader.ofLexer lx)
    (n < run.2.calls.length → cut.2.calls = run.2.calls.take (n + 1) ∧
        cut.2.events.take n = run.2.events.take n ∧ cut.1 = .error (.conversion e)) ∧
      (run.2.calls.length ≤ n → cut = (run.1, run.2.counted)) := by
  intro run cut
  have hpar : Parallel n e (.conversion e) run cut := by
    have hstart : (fresh overrides (world, 0) : Recorder φ (ω × Nat)) =
        (fresh overrides world).counted := rfl
    have hnone : (fresh overrides world : Recorder φ ω).events.length ≤ n := Nat.zero_le n
    obtain ⟨rest, hdocument, rfl | ⟨error, rfl⟩⟩ := (Reader.ofLexer lx).document_eq
    · rw [List.append_nil] at hdocument
      have hsteps := (stopsAt_statements env n e
        (Reader.statements (Reader.ofLexer lx).document)).bind fun _ => stopsAt_finish env n e
      have hp := ((hsteps _).2 hnone).outcome (Except.mapError .conversion) rfl
      rwa [← hstart, ← document_of_complete _ _ hdocument,
        ← document_of_complete _ _ hdocument] at hp
    · have hsteps := stopsAt_statements env n e (Reader.statements (Reader.ofLexer lx).document)
      let broken (x : Except ScriptError Unit) : Except ConversionError Report :=
        x.mapError .conversion >>= fun _ => .error (.statement error)
      have hp := ((hsteps _).2 hnone).outcome broken rfl
      rwa [← hstart, ← document_of_broken _ _ hdocument,
        ← document_of_broken _ _ hdocument] at hp
  have hlength : run.2.calls.length = run.2.events.length := List.length_map _
  rw [hlength]
  refine ⟨fun hlt => ?_, fun hle => ?_⟩
  · rw [Parallel, if_neg (Nat.not_le_of_lt hlt)] at hpar
    exact ⟨hpar.2.calls_eq, hpar.2.take_events, hpar.1⟩
  · rwa [Parallel, if_pos hle] at hpar

end Conversion

end PageScript
