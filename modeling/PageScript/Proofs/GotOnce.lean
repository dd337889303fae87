import Mathlib.Data.List.Nodup
import PageScript.Conversion.Document
import PageScript.Proofs.WrittenNames

/-!
# Handles and fonts are got once

A handle is asked for only under a name that has none, and a font is loaded only under a name that
has none. What has been got stays, whatever fails behind it.
-/
namespace PageScript

open Step Converter

variable {φ ω : Type}

/-- The name under which a font has been loaded. -/
def Event.loaded? : Event φ → Option String
  | ⟨.loadFont r, .ok _⟩ => some r.name
  | _ => none

theorem Event.asks_of_loaded {e : Event φ} {x : String} (h : e.loaded? = some x) :
    e.call.Asks := by
  unfold loaded? at h
  split at h
  · trivial
  · cases h

/-- A call that asks for nothing gets nothing. -/
theorem Event.gets_nothing {e : Event φ} (h : ¬ e.call.Asks) :
    e.grant? = none ∧ e.loaded? = none := by
  constructor
  · exact Option.eq_none_iff_forall_ne_some.mpr fun g hg => h (asks_of_grant hg)
  · exact Option.eq_none_iff_forall_ne_some.mpr fun x hx => h (asks_of_loaded hx)

namespace Converter

/-- The names for which handles have been granted, each with its handle. -/
def granted (c : Recorder φ ω) : List (String × String) :=
  c.events.filterMap fun e => e.grant?.map Prod.snd

/-- The names under which fonts have been loaded. -/
def loaded (c : Recorder φ ω) : List String := c.events.filterMap Event.loaded?

/-- The tables know all that has been got, and nothing has been got twice. -/
structure Settled (c : Recorder φ ω) : Prop where
  names : ∀ x r, c.resources.find? x = some r → r.name = x
  handles : ∀ x handle, c.handles.find? x = some handle ↔ (x, handle) ∈ c.granted
  fonts : ∀ x, c.fonts.find? x ≠ none ↔ x ∈ c.loaded
  handlesOnce : (c.granted.map Prod.fst).Nodup
  fontsOnce : c.loaded.Nodup

section Settled

variable {c c' : Recorder φ ω} {w : ω} {e : Event φ} {x handle : String}

theorem settled_fresh (overrides : Overrides) (world : ω) :
    (fresh overrides world : Recorder φ ω).Settled where
  names := nofun
  handles := by simp [fresh, granted, events]
  fonts := by simp [fresh, loaded, events]
  handlesOnce := List.nodup_nil
  fontsOnce := List.nodup_nil

theorem granted_record : (c.record w e).granted = c.granted ++ (e.grant?.map Prod.snd).toList := by
  rw [granted, events_record, List.filterMap_append, granted]
  cases hg : e.grant? <;> simp [hg]

theorem loaded_record : (c.record w e).loaded = c.loaded ++ e.loaded?.toList := by
  rw [loaded, events_record, List.filterMap_append, loaded]
  cases hl : e.loaded? <;> simp [hl]

/-- Nothing has been got, and resources are still kept under their names. -/
theorem Settled.of_same (h : c.Settled) (hg : c'.granted = c.granted) (hl : c'.loaded = c.loaded)
    (hh : c'.handles = c.handles) (hf : c'.fonts = c.fonts)
    (hr : ∀ x r, c'.resources.find? x = some r → r.name = x) : c'.Settled where
  names := hr
  handles := by rw [hh, hg]; exact h.handles
  fonts := by rw [hf, hl]; exact h.fonts
  handlesOnce := by rw [hg]; exact h.handlesOnce
  fontsOnce := by rw [hl]; exact h.fontsOnce

theorem Settled.notMem_granted (h : c.Settled) (missing : c.handles.find? x = none) :
    x ∉ c.granted.map Prod.fst := by
  intro hx
  obtain ⟨⟨_, handle⟩, hm, rfl⟩ := List.mem_map.mp hx
  have hfound := (h.handles _ handle).mpr hm
  rw [missing] at hfound
  cases hfound

/-- A handle is kept under a name that had none. -/
theorem Settled.grant (h : c.Settled) (missing : c.handles.find? x = none)
    (hr : c'.resources = c.resources) (hh : c'.handles = c.handles.insert x handle)
    (hf : c'.fonts = c.fonts) (hg : c'.granted = c.granted ++ [(x, handle)])
    (hl : c'.loaded = c.loaded) : c'.Settled where
  names := by rw [hr]; exact h.names
  handles y handle' := by
    rw [hh, hg, Table.find?_insert, List.mem_append, List.mem_singleton]
    by_cases hy : y = x
    · subst hy
      have hold : (y, handle') ∉ c.granted := fun hm =>
        h.notMem_granted missing (List.mem_map_of_mem hm)
      simp [hold, eq_comm]
    · simp [hy, h.handles]
  fonts := by rw [hf, hl]; exact h.fonts
  handlesOnce := by
    rw [hg, List.map_append]
    exact h.handlesOnce.append (List.nodup_singleton x) (by simpa using h.notMem_granted missing)
  fontsOnce := by rw [hl]; exact h.fontsOnce

/-- A font is kept under a name that had none. -/
theorem Settled.load {f : φ} (h : c.Settled) (missing : c.fonts.find? x = none)
    (hr : c'.resources = c.resources) (hh : c'.handles = c.handles)
    (hf : c'.fonts = c.fonts.insert x f) (hg : c'.granted = c.granted)
    (hl : c'.loaded = c.loaded ++ [x]) : c'.Settled where
  names := by rw [hr]; exact h.names
  handles := by rw [hh, hg]; exact h.handles
  fonts y := by
    rw [hf, hl, Table.find?_insert, List.mem_append, List.mem_singleton, ← h.fonts]
    by_cases hy : y = x <;> simp [hy]
  handlesOnce := by rw [hg]; exact h.handlesOnce
  fontsOnce := by
    have hnew : x ∉ c.loaded := fun hm => (h.fonts x).mpr hm missing
    rw [hl]
    exact h.fontsOnce.append (List.nodup_singleton x) (by simpa using hnew)

end Settled

/-- What has been got stays, and nothing is got a second time. -/
structure Grows (c c' : Recorder φ ω) : Prop where
  handles : ∀ x handle, c.handles.find? x = some handle → c'.handles.find? x = some handle
  fonts : ∀ x f, c.fonts.find? x = some f → c'.fonts.find? x = some f
  settled : c.Settled → c'.Settled

instance : Std.Refl (@Grows φ ω) := ⟨fun _ => ⟨fun _ _ h => h, fun _ _ h => h, id⟩⟩

instance : Trans (@Grows φ ω) Grows Grows :=
  ⟨fun h h' => ⟨fun x handle hx => h'.handles x handle (h.handles x handle hx),
    fun x f hx => h'.fonts x f (h.fonts x f hx), fun hc => h'.settled (h.settled hc)⟩⟩

section Grows

variable {c c' : Recorder φ ω} {x handle : String}

theorem Grows.of_same (hg : c'.granted = c.granted) (hl : c'.loaded = c.loaded)
    (hh : c'.handles = c.handles) (hf : c'.fonts = c.fonts)
    (hr : (∀ x r, c.resources.find? x = some r → r.name = x) →
      ∀ x r, c'.resources.find? x = some r → r.name = x) : c.Grows c' where
  handles := by rw [hh]; exact fun _ _ h => h
  fonts := by rw [hf]; exact fun _ _ h => h
  settled h := h.of_same hg hl hh hf (hr h.names)

theorem Grows.of_world (hw : c'.world = c.world) (hh : c'.handles = c.handles)
    (hf : c'.fonts = c.fonts)
    (hr : (∀ x r, c.resources.find? x = some r → r.name = x) →
      ∀ x r, c'.resources.find? x = some r → r.name = x) : c.Grows c' := by
  have hevents : c'.events = c.events := by rw [events, hw, events]
  exact .of_same (by rw [granted, hevents, granted]) (by rw [loaded, hevents, loaded]) hh hf hr

/-- A call is made that gets nothing. -/
theorem Grows.record {w : ω} {e : Event φ} (hg : e.grant? = none) (hl : e.loaded? = none) :
    c.Grows (c.record w e) := by
  refine .of_same ?_ ?_ rfl rfl id
  · rw [granted_record, hg]
    exact List.append_nil _
  · rw [loaded_record, hl]
    exact List.append_nil _

theorem Grows.grant {role : Role} {w : ω} {e : Event φ} (missing : c.handles.find? x = none)
    (hg : c.Settled → e.grant? = some (role, x, handle)) (hl : e.loaded? = none) :
    c.Grows { c.record w e with handles := c.handles.insert x handle } where
  handles y handle' hy := by
    have hne : y ≠ x := by
      rintro rfl
      rw [missing] at hy
      cases hy
    exact (Table.find?_insert ..).trans ((if_neg hne).trans hy)
  fonts _ _ h := h
  settled h := by
    refine h.grant missing rfl rfl rfl ?_ ?_
    · exact granted_record.trans (by rw [hg h]; rfl)
    · exact loaded_record.trans (by rw [hl]; exact List.append_nil _)

theorem Grows.load {w : ω} {r : Resource} {f : φ} (missing : c.fonts.find? x = none)
    (found : c.resources.find? x = some r) :
    c.Grows { c.record w ⟨.loadFont r, .ok f⟩ with fonts := c.fonts.insert x f } where
  handles _ _ h := h
  fonts y f' hy := by
    have hne : y ≠ x := by
      rintro rfl
      rw [missing] at hy
      cases hy
    exact (Table.find?_insert ..).trans ((if_neg hne).trans hy)
  settled h := by
    refine h.load missing rfl rfl rfl ?_ ?_
    · exact granted_record.trans (List.append_nil _)
    · exact loaded_record.trans (by rw [← h.names x r found]; rfl)

end Grows

end Converter

namespace Conversion

variable {env : Environment φ ω}

/-! ### Steps that get nothing, or get it once -/

theorem grows_call {k : Call} (hk : ¬ k.Asks) : Keeps Grows (call env.recorded k) := fun _ =>
  ensures_call env
    (fun a _ => .record (Event.gets_nothing (e := ⟨k, .ok a⟩) hk).1 (Event.gets_nothing hk).2)
    fun e _ => .record (Event.gets_nothing (e := ⟨k, .error e⟩) hk).1 (Event.gets_nothing hk).2

theorem grows_modify {f : Recorder φ ω → Recorder φ ω} (h : ∀ c : Recorder φ ω, c.Grows (f c)) :
    Keeps Grows (modify f : Conversion φ (ω × Array (Event φ)) Unit) := h

theorem grows_sendAll {ks : List Call} (hk : ∀ k ∈ ks, ¬ k.Asks) :
    Keeps Grows (sendAll env.recorded ks) := by
  induction ks with
  | nil => exact Keeps.pure
  | cons k ks ih =>
    rw [List.forall_mem_cons] at hk
    exact (grows_call hk.1).map.bind fun _ => ih hk.2

theorem grows_write (op : Operator) (operands : List Value) :
    Keeps Grows (write env.recorded op operands) := by
  rw [write_eq]
  exact grows_sendAll (NamesSatisfy.written (Q := fun _ _ => True) fun _ _ => trivial).silent

theorem grows_resourceHandle (name : String) (kind : ResourceKind) :
    Keeps Grows (resourceHandle env.recorded name kind) := by
  intro c
  simp only [resourceHandle, ensures_bind, ensures_get]
  cases hh : c.handles.find? name with
  | some handle => exact Std.Refl.refl c
  | none =>
    refine ensures_bind.mpr ((ensures_resource name kind c).mono ?_ ?_)
    · rintro r _ ⟨rfl, found, -⟩
      cases kind with
      | font =>
        exact ensures_bind.mpr <| ensures_call env
          (fun handle w => .grant hh (fun h => by rw [Event.grant?, h.names _ _ found]) rfl)
          fun e w => .record rfl rfl
      | image =>
        exact ensures_bind.mpr <| ensures_call env
          (fun handle w => .grant hh (fun h => by rw [Event.grant?, h.names _ _ found]) rfl)
          fun e w => .record rfl rfl
    · rintro e _ ⟨rfl, -, -⟩
      exact Std.Refl.refl _

theorem grows_patternHandle (name : String) : Keeps Grows (patternHandle env.recorded name) := by
  intro c
  simp only [patternHandle, ensures_bind, ensures_get]
  cases hh : c.handles.find? name with
  | some handle => exact Std.Refl.refl c
  | none =>
    refine ensures_bind.mpr (ensures_get.mpr ?_)
    cases hp : c.patterns.find? name with
    | none => exact Std.Refl.refl c
    | some p =>
      exact ensures_bind.mpr <| ensures_call env
        (fun handle w => .grant hh (fun _ => rfl) rfl) fun e w => .record rfl rfl

/-- When the font is not loaded the handle has been got, and is not asked for again. -/
theorem grows_font (name : String) : Keeps Grows (font env.recorded name) := by
  apply (grows_resourceHandle name .font).bind
  intro handle c
  simp only [ensures_bind, ensures_get]
  cases hf : c.fonts.find? name with
  | some f => exact Std.Refl.refl c
  | none =>
    refine ensures_bind.mpr ((ensures_resource name .font c).mono ?_ ?_)
    · rintro r _ ⟨rfl, found, -⟩
      exact ensures_bind.mpr <| ensures_call env (fun f w => .load hf found)
        fun e w => .record rfl rfl
    · rintro e _ ⟨rfl, -, -⟩
      exact Std.Refl.refl _

theorem grows_spansFrom : (items : List Value) → Keeps Grows (spansFrom env.recorded items)
  | text :: name :: size :: rest => by
    apply Keeps.ofExcept.bind
    intro bytes
    apply Keeps.ofExcept.bind
    intro x
    apply (grows_font x).bind
    intro f
    apply Keeps.ofExcept.bind
    intro n
    exact (grows_spansFrom rest).map
  | [] | [_] | [_, _] => Keeps.pure

theorem grows_spans (items : List Value) : Keeps Grows (spans env.recorded items) := by
  unfold spans
  split
  · exact grows_spansFrom items
  · exact Keeps.throw

/-! ### Operations and statements -/

theorem grows_writeHandle {handle : String → Conversion φ (ω × Array (Event φ)) String}
    (hh : ∀ name, Keeps Grows (handle name)) (op : Operator) (operands : List Value) :
    Keeps Grows (writeHandle env.recorded op handle operands) := by
  cases operands with
  | nil => exact grows_write op []
  | cons first rest =>
    apply Keeps.ofExcept.bind
    intro name
    apply (hh name).bind
    intro h
    exact grows_write op _

theorem grows_drawImage (operands : List Value) : Keeps Grows (drawImage env.recorded operands) := by
  unfold drawImage
  split
  · iterate 5 (apply Keeps.ofExcept.bind; intro _)
    apply (grows_resourceHandle _ .image).bind
    intro handle
    iterate 3 (apply (grows_write _ _).bind; intro _)
    exact grows_write _ _
  · exact Keeps.pure

theorem grows_setPattern (stroking : Bool) (components : List Value) (name : String) :
    Keeps Grows (setPattern env.recorded stroking components name) := by
  apply (grows_patternHandle name).bind
  intro handle
  exact (grows_write _ _).bind fun _ => grows_write _ _

theorem grows_setColor (op : Operator) (stroking : Bool) (operands : List Value) :
    Keeps Grows (setColor env.recorded op stroking operands) := by
  apply Keeps.get.bind
  intro c
  split
  · split
    · exact grows_write _ _
    · split
      · exact grows_setPattern _ _ _
      · exact grows_write _ _
  · exact grows_write _ _

theorem grows_move (next : Context → Except ScriptError Context) :
    Keeps Grows (move next : Conversion φ (ω × Array (Event φ)) Unit) := by
  apply Keeps.get.bind
  intro c
  apply Keeps.ofExcept.bind
  intro context
  exact grows_modify fun c => .of_world rfl rfl rfl id

theorem grows_declare (d : Declaration) :
    Keeps Grows (declare d : Conversion φ (ω × Array (Event φ)) Unit) := by
  cases d with
  | «variable» x kind v =>
    apply Keeps.get.bind
    intro c
    apply Keeps.ofExcept.bind
    intro value
    exact grows_modify fun c => .of_world rfl rfl rfl id
  | resource r =>
    apply grows_modify
    intro c
    refine .of_world rfl rfl rfl fun h x r' hx => ?_
    rw [Table.find?_insert] at hx
    split at hx
    · next hr =>
      cases hx
      exact hr.symm
    · exact h x r' hx
  | color | pattern => exact grows_modify fun c => .of_world rfl rfl rfl id

theorem grows_finish : Keeps Grows (finish env.recorded) := by
  apply Keeps.get.bind
  intro c
  split
  · exact Keeps.throw
  · apply (grows_call id).bind
    intro _
    exact Keeps.get.map

variable [FontMetrics φ Float32]

theorem grows_writeLines (options : FlowOptions Float32)
    (lines : List (Line (LoadedFont φ) Float32)) :
    Keeps Grows (writeLines env.recorded options lines) := by
  rw [writeLines_eq]
  exact grows_sendAll
    (NamesSatisfy.linesCalls (Q := fun _ _ => True) options lines fun _ _ _ _ => trivial).silent

theorem grows_placed (options : FlowOptions Float32)
    (placed : Except (Overflow (LoadedFont φ) Float32) (List (Line (LoadedFont φ) Float32))) :
    Keeps Grows (match placed with
      | .ok lines => writeLines env.recorded options lines
      | .error overflow => do
        countOverflow
        writeLines env.recorded options overflow.lines) := by
  cases placed with
  | ok lines => exact grows_writeLines options lines
  | error overflow =>
    apply Keeps.bind
    · exact grows_modify fun c => .of_world rfl rfl rfl id
    · exact fun _ => grows_writeLines options overflow.lines

theorem grows_flowText (operands : List Value) : Keeps Grows (flowText env.recorded operands) := by
  unfold flowText
  split
  · apply Keeps.ofExcept.bind
    intro items
    apply (grows_spans items).bind
    intro spans
    iterate 4 (apply Keeps.ofExcept.bind; intro _)
    split
    · exact grows_placed _ _
    · apply Keeps.ofExcept.bind
      intro options
      exact grows_placed _ _
  · exact Keeps.pure

theorem grows_writeOperation (op : Operator) (operands : List Value) :
    Keeps Grows (writeOperation env.recorded op operands) := by
  unfold writeOperation
  split
  · exact grows_drawImage operands
  · exact grows_flowText operands
  · exact grows_writeHandle (grows_resourceHandle · .font) _ _
  · exact grows_writeHandle (grows_resourceHandle · .image) _ _
  · exact grows_writeHandle grows_patternHandle _ _
  · exact grows_setColor _ _ _
  · exact grows_setColor _ _ _
  · exact grows_setColor _ _ _
  · exact grows_setColor _ _ _
  · exact grows_write _ _

theorem grows_operation (o : Operation) : Keeps Grows (operation env.recorded o) := by
  rw [operation_eq]
  apply Keeps.get.bind
  intro c
  apply Keeps.ofExcept.bind
  intro operands
  apply Keeps.get.bind
  intro before
  apply (grows_move _).bind
  intro _
  apply Keeps.get.bind
  intro after
  have quiet := Context.announcement_quiet before.context after.context
  rw [List.forall_mem_append] at quiet
  apply (grows_sendAll fun k hk => (quiet.1 k hk).2).bind
  intro _
  apply (grows_writeOperation _ _).bind
  intro _
  exact grows_sendAll fun k hk => (quiet.2 k hk).2

theorem grows_statement (t : Statement) : Keeps Grows (statement env.recorded t) := by
  apply Keeps.bind
  · exact grows_modify fun c => .of_world rfl rfl rfl id
  · intro _
    cases t with
    | declaration d => exact grows_declare d
    | graphics o => exact grows_operation o
    | page size =>
      apply Keeps.bind
      · exact grows_modify fun c => .of_world rfl rfl rfl id
      · exact fun _ => grows_call id
    | endPage =>
      apply (grows_move _).bind
      intro _
      exact grows_call id

end Conversion

end PageScript
