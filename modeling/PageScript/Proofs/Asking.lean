import PageScript.Conversion.TextFlow
import PageScript.Proofs.Causes
import PageScript.Proofs.Recording

/-!
# Asking for handles and fonts

An operation asks for the handles of what it names, and for the fonts of flowed text, before it
writes anything. Handles are kept under the name alone, whatever it was used for.
-/
namespace PageScript

open Step

variable {φ ω α β : Type}

/-- What an operator takes a name for. -/
inductive Role where
  | font
  | image
  | pattern
  deriving DecidableEq

def ResourceKind.role : ResourceKind → Role
  | font => .font
  | image => .image

/-- The call asks for something that is used in writing. -/
def Call.Asks : Call → Prop
  | .fontHandle _ | .imageHandle _ | .patternHandle .. | .loadFont _ => True
  | _ => False

/-- The handle that came of a call, with the role and the name for which it was asked. -/
def Event.grant? : Event φ → Option (Role × String × String)
  | ⟨.fontHandle r, .ok handle⟩ => some (.font, r.name, handle)
  | ⟨.imageHandle r, .ok handle⟩ => some (.image, r.name, handle)
  | ⟨.patternHandle name _, .ok handle⟩ => some (.pattern, name, handle)
  | _ => none

/-- The handle came of some earlier call, which asked for the name in the role. -/
def Granted (events : List (Event φ)) (role : Role) (name handle : String) : Prop :=
  ∃ e ∈ events, e.grant? = some (role, name, handle)

instance (events : List (Event φ)) (role : Role) (name handle : String) :
    Decidable (Granted events role name handle) :=
  inferInstanceAs (Decidable (∃ e ∈ events, e.grant? = some (role, name, handle)))

theorem granted_append {es es' : List (Event φ)} {role : Role} {name handle : String} :
    Granted (es ++ es') role name handle ↔
      Granted es role name handle ∨ Granted es' role name handle := by
  simp [Granted, or_and_right, exists_or]

theorem Event.asks_of_grant {e : Event φ} {g : Role × String × String}
    (h : e.grant? = some g) : e.call.Asks := by
  unfold grant? at h
  split at h <;> trivial

/-- A call that fails grants nothing. -/
theorem Event.grant_error (k : Call) (e : ScriptError) :
    (⟨k, .error e⟩ : Event φ).grant? = none := by
  cases k <;> rfl

namespace Converter

/-- The name has been declared for the role. -/
def Holds (c : Converter φ ω) (name : String) : Role → Prop
  | .font => ∃ r, c.resources.find? name = some r ∧ r.kind = .font
  | .image => ∃ r, c.resources.find? name = some r ∧ r.kind = .image
  | .pattern => ∃ p, c.patterns.find? name = some p

/-- The event grants a handle for what has been declared under the name. -/
inductive Grants (c : Converter φ ω) (name handle : String) : Role → Event φ → Prop where
  | font {r : Resource} (found : c.resources.find? name = some r) (kind : r.kind = .font) :
      c.Grants name handle .font ⟨.fontHandle r, .ok handle⟩
  | image {r : Resource} (found : c.resources.find? name = some r) (kind : r.kind = .image) :
      c.Grants name handle .image ⟨.imageHandle r, .ok handle⟩
  | pattern {p : Pattern} (found : c.patterns.find? name = some p) :
      c.Grants name handle .pattern ⟨.patternHandle name p, .ok handle⟩

/-- The handles kept are those that were granted, each for something that has been declared, and the
fonts kept have been declared as fonts. -/
structure Traced (c : Recorder φ ω) : Prop where
  names : ∀ name r, c.resources.find? name = some r → r.name = name
  fonts : ∀ name f, c.fonts.find? name = some f → c.Holds name .font
  handles : ∀ name handle, c.handles.find? name = some handle ↔
    ∃ role, Granted c.events role name handle
  grants : ∀ e ∈ c.events, ∀ role name handle, e.grant? = some (role, name, handle) →
    c.Grants name handle role e

theorem traced_fresh (overrides : Overrides) (world : ω) :
    (fresh overrides world : Recorder φ ω).Traced :=
  ⟨nofun, nofun, by simp [fresh, events, Granted], by simp [fresh, events]⟩

variable {c c₁ c' : Recorder φ ω} {role : Role} {name handle : String} {e : Event φ} {w : ω}

theorem Grants.holds (h : c.Grants name handle role e) : c.Holds name role := by
  cases h with
  | font found kind | image found kind => exact ⟨_, found, kind⟩
  | pattern found => exact ⟨_, found⟩

theorem Grants.grant (h : c.Grants name handle role e) (hc : c.Traced) :
    e.grant? = some (role, name, handle) := by
  cases h with
  | font found | image found => rw [Event.grant?, hc.names _ _ found]
  | pattern => rfl

theorem Grants.mono (h : c.Grants name handle role e)
    (hr : ∀ x r, c.resources.find? x = some r → c'.resources.find? x = some r)
    (hp : ∀ x p, c.patterns.find? x = some p → c'.patterns.find? x = some p) :
    c'.Grants name handle role e := by
  cases h with
  | font found kind => exact .font (hr _ _ found) kind
  | image found kind => exact .image (hr _ _ found) kind
  | pattern found => exact .pattern (hp _ _ found)

theorem Grants.asks (h : c.Grants name handle role e) : e.call.Asks := by
  cases h <;> trivial

/-- More has been called, but nothing granted, and no fonts are kept but those declared. -/
theorem Traced.of_events (hc : c.Traced) {es : List (Event φ)} (hr : c'.resources = c.resources)
    (hp : c'.patterns = c.patterns) (hh : c'.handles = c.handles)
    (hf : ∀ name f, c'.fonts.find? name = some f → c.Holds name .font)
    (he : c'.events = c.events ++ es) (hn : ∀ e ∈ es, e.grant? = none) : c'.Traced := by
  have granted (role : Role) (name handle : String) :
      Granted c'.events role name handle ↔ Granted c.events role name handle := by
    rw [he, granted_append, or_iff_left]
    rintro ⟨e, hm, hg⟩
    exact absurd ((hn e hm).symm.trans hg) nofun
  refine ⟨by rw [hr]; exact hc.names, fun name f h => ?_, ?_, fun e hm role name handle hg => ?_⟩
  · simpa [Holds, hr] using hf name f h
  · simp only [hh, granted]
    exact hc.handles
  · rcases List.mem_append.mp (he ▸ hm) with hm | hm
    · exact (hc.grants e hm role name handle hg).mono (by simp [hr]) (by simp [hp])
    · exact absurd ((hn e hm).symm.trans hg) nofun

theorem Traced.of_world (hc : c.Traced) (hw : c'.world = c.world) (hr : c'.resources = c.resources)
    (hp : c'.patterns = c.patterns) (hh : c'.handles = c.handles) (hf : c'.fonts = c.fonts) :
    c'.Traced := by
  have he : c'.events = c.events ++ [] := by rw [List.append_nil, events, events, hw]
  exact hc.of_events hr hp hh (by rw [hf]; exact hc.fonts) he (by simp)

theorem Traced.sent {ks : List Call} (hc : c.Traced) (hs : c.Sent ks c')
    (silent : ∀ k ∈ ks, ¬ k.Asks) : c'.Traced := by
  obtain ⟨he, es, hes, rfl⟩ := hs
  have hfonts : c'.fonts = c.fonts := by rw [he]
  refine hc.of_events (by rw [he]) (by rw [he]) (by rw [he]) ?_ hes fun e hm => ?_
  · rw [hfonts]
    exact hc.fonts
  · cases hg : e.grant? with
    | none => rfl
    | some g => exact absurd (Event.asks_of_grant hg) (silent _ (List.mem_map_of_mem hm))

/-- A name is granted a handle once. -/
theorem Traced.grant (hc : c.Traced) (missing : c.handles.find? name = none)
    (hg : c.Grants name handle role e) :
    { c.record w e with handles := c.handles.insert name handle }.Traced := by
  have hgrant := hg.grant hc
  have granted (role' : Role) (name' handle' : String) :
      Granted (c.record w e).events role' name' handle' ↔
        Granted c.events role' name' handle' ∨ role' = role ∧ name' = name ∧ handle' = handle := by
    rw [events_record, granted_append]
    simp [Granted, hgrant, eq_comm]
  refine ⟨hc.names, hc.fonts, fun name' handle' => ?_, fun e' hm role' name' handle' h => ?_⟩
  · change (c.handles.insert name handle).find? name' = some handle' ↔
      ∃ role', Granted (c.record w e).events role' name' handle'
    simp only [granted, exists_or, ← hc.handles, Table.find?_insert]
    by_cases hn : name' = name
    · subst hn
      simp [missing, eq_comm]
    · simp [hn]
  · rcases List.mem_append.mp (events_record c w e ▸ hm) with hm | hm
    · exact (hc.grants e' hm role' name' handle' h).mono (fun _ _ h => h) fun _ _ h => h
    · obtain rfl := List.mem_singleton.mp hm
      cases hgrant.symm.trans h
      exact hg.mono (fun _ _ h => h) fun _ _ h => h

/-- Handles and fonts have been asked for, and nothing else has happened. -/
structure Asked (c c' : Recorder φ ω) : Prop where
  same : c' = { c with
    world := c'.world, handles := c'.handles, fonts := c'.fonts
    report := { c.report with overflows := c'.report.overflows } }
  events : ∃ es, c'.events = c.events ++ es ∧ ∀ e ∈ es, e.call.Asks
  handles : ∀ name handle, c.handles.find? name = some handle →
    c'.handles.find? name = some handle
  fonts : ∀ name f, c.fonts.find? name = some f → c'.fonts.find? name = some f
  traced : c.Traced → c'.Traced

namespace Asked

theorem refl (c : Recorder φ ω) : c.Asked c :=
  ⟨rfl, ⟨[], by simp⟩, fun _ _ h => h, fun _ _ h => h, fun h => h⟩

theorem trans (h : c.Asked c₁) (h' : c₁.Asked c') : c.Asked c' := by
  obtain ⟨es, he, ha⟩ := h.events
  obtain ⟨es', he', ha'⟩ := h'.events
  refine ⟨?_, ⟨es ++ es', by rw [he', he, List.append_assoc], ?_⟩,
    fun name handle hn => h'.handles _ _ (h.handles _ _ hn),
    fun name f hn => h'.fonts _ _ (h.fonts _ _ hn), fun hc => h'.traced (h.traced hc)⟩
  · rw [h'.same, h.same]
  · simpa [or_imp, forall_and] using And.intro ha ha'

theorem call (ha : e.call.Asks) (hg : e.grant? = none) : c.Asked (c.record w e) :=
  ⟨rfl, ⟨[e], events_record c w e, by simpa using ha⟩, fun _ _ h => h, fun _ _ h => h,
    fun hc => hc.of_events rfl rfl rfl hc.fonts (events_record c w e) (by simpa using hg)⟩

theorem grant (missing : c.handles.find? name = none) (hg : c.Grants name handle role e) :
    c.Asked { c.record w e with handles := c.handles.insert name handle } := by
  refine ⟨rfl, ⟨[e], events_record c w e, by simpa using hg.asks⟩, fun name' handle' h => ?_,
    fun _ _ h => h, fun hc => hc.grant missing hg⟩
  have hn : name' ≠ name := fun hn => by simp [hn, missing] at h
  simpa [hn] using h

/-- A font is kept under a name that has been declared. -/
theorem load {r : Resource} {f : φ} (missing : c.fonts.find? name = none)
    (hh : c.Holds name .font) :
    c.Asked { c.record w ⟨.loadFont r, .ok f⟩ with fonts := c.fonts.insert name f } := by
  refine ⟨rfl, ⟨_, events_record c w _, by simp [Call.Asks]⟩, fun _ _ h => h, fun name' f' h => ?_,
    fun hc => hc.of_events rfl rfl rfl (fun name' f' h => ?_) (events_record c w _)
      (by simp [Event.grant?])⟩
  · have hn : name' ≠ name := fun hn => by simp [hn, missing] at h
    simpa [hn] using h
  · by_cases hn : name' = name
    · exact hn ▸ hh
    · exact hc.fonts name' f' (by simpa [hn] using h)

theorem overflow (n : Nat) : c.Asked { c with report.overflows := n } :=
  ⟨rfl, ⟨[], (List.append_nil _).symm, by simp⟩, fun _ _ h => h, fun _ _ h => h, fun hc =>
    hc.of_events rfl rfl rfl hc.fonts (List.append_nil _).symm (by simp)⟩

theorem calls (h : c.Asked c') : ∃ asked, c'.calls = c.calls ++ asked ∧ ∀ k ∈ asked, k.Asks := by
  obtain ⟨es, he, ha⟩ := h.events
  refine ⟨es.map Event.call, by rw [Converter.calls, he, List.map_append, Converter.calls], ?_⟩
  simpa using ha

end Asked

end Converter

namespace Conversion

open Converter

variable (env : Environment φ ω) (c : Recorder φ ω)

/-- What comes of asking for a handle. Only names without one are looked up in the tables. -/
def Handled (m : Conversion φ (ω × Array (Event φ)) String) (role : Role) (name : String) : Prop :=
  m.Ensures c
    (fun handle c' => c.handles.find? name = some handle ∧ c' = c ∨
      c.handles.find? name = none ∧ ∃ w e, c.Grants name handle role e ∧
        c' = { c.record w e with handles := c.handles.insert name handle })
    fun e c' => c.handles.find? name = none ∧
      (e = .undeclaredResource name ∧ ¬ c.Holds name role ∧ c' = c ∨
        c.Holds name role ∧ ∃ w k, k.Asks ∧ c' = c.record w ⟨k, .error e⟩)

theorem ensures_resource (name : String) (kind : ResourceKind) (c : Converter φ ω) :
    (resource name kind).Ensures c
      (fun r c' => c' = c ∧ c.resources.find? name = some r ∧ r.kind = kind)
      fun e c' => c' = c ∧ e = .undeclaredResource name ∧ ¬ c.Holds name kind.role := by
  simp only [resource, ensures_bind, ensures_get]
  cases hf : c.resources.find? name with
  | none => exact ⟨rfl, rfl, by cases kind <;> simp [ResourceKind.role, Holds, hf]⟩
  | some r =>
    dsimp only
    split
    · next hk => exact ⟨rfl, rfl, hk⟩
    · next hk => exact ⟨rfl, rfl, by cases kind <;> simpa [ResourceKind.role, Holds, hf] using hk⟩

theorem handled_resourceHandle (name : String) (kind : ResourceKind) :
    Handled c (resourceHandle env.recorded name kind) kind.role name := by
  simp only [Handled, resourceHandle, ensures_bind, ensures_get]
  cases hh : c.handles.find? name with
  | some handle => exact .inl ⟨rfl, rfl⟩
  | none =>
    refine ensures_bind.mpr ((ensures_resource name kind c).mono ?_ ?_)
    · rintro r _ ⟨rfl, hf, hk⟩
      cases kind with
      | font =>
        exact ensures_bind.mpr <| ensures_call env
          (fun handle w => .inr ⟨rfl, w, _, .font hf hk, rfl⟩) fun e w =>
          ⟨rfl, .inr ⟨⟨r, hf, hk⟩, w, .fontHandle r, trivial, rfl⟩⟩
      | image =>
        exact ensures_bind.mpr <| ensures_call env
          (fun handle w => .inr ⟨rfl, w, _, .image hf hk, rfl⟩) fun e w =>
          ⟨rfl, .inr ⟨⟨r, hf, hk⟩, w, .imageHandle r, trivial, rfl⟩⟩
    · rintro e _ ⟨rfl, rfl, hn⟩
      exact ⟨rfl, .inl ⟨rfl, hn, rfl⟩⟩

theorem handled_patternHandle (name : String) :
    Handled c (patternHandle env.recorded name) .pattern name := by
  simp only [Handled, patternHandle, ensures_bind, ensures_get]
  cases hh : c.handles.find? name with
  | some handle => exact .inl ⟨rfl, rfl⟩
  | none =>
    refine ensures_bind.mpr (ensures_get.mpr ?_)
    cases hp : c.patterns.find? name with
    | none => exact ⟨rfl, .inl ⟨rfl, by simp [Holds, hp], rfl⟩⟩
    | some p =>
      exact ensures_bind.mpr <| ensures_call env
        (fun handle w => .inr ⟨rfl, w, _, .pattern hp, rfl⟩) fun e w =>
        ⟨rfl, .inr ⟨⟨p, hp⟩, w, .patternHandle name p, trivial, rfl⟩⟩

variable {env c}

/-- The step only asks, and fails for no reason of contexts unless a call does. -/
def Asking (m : Conversion φ (ω × Array (Event φ)) α) (c : Recorder φ ω)
    (post : α → Recorder φ ω → Prop) : Prop :=
  m.Ensures c (fun a c' => c.Asked c' ∧ post a c')
    fun e c' => c.Asked c' ∧ (e.OfContext → c'.Failed e)

namespace Asking

variable {m : Conversion φ (ω × Array (Event φ)) α} {post : α → Recorder φ ω → Prop}

theorem pure {a : α} (h : post a c) : Asking (Pure.pure a) c post := ⟨.refl c, h⟩

theorem throw {e : ScriptError} (h : ¬ e.OfContext) : Asking (MonadExcept.throw e) c post :=
  ⟨.refl c, fun he => absurd he h⟩

/-- What is taken out of an operand leaves the state as it is. -/
theorem extract {x : Except ScriptError α} {f : α → Conversion φ (ω × Array (Event φ)) β}
    {post : β → Recorder φ ω → Prop} (hx : Plain x)
    (hf : ∀ a, x = .ok a → Asking (f a) c post) :
    Asking (MonadExcept.ofExcept x >>= f) c post :=
  ensures_bind.mpr <| ensures_ofExcept.mpr ⟨hf,
    fun e he => ⟨.refl c, fun hc => absurd hc (hx e he)⟩⟩

theorem bind {f : α → Conversion φ (ω × Array (Event φ)) β} {post' : β → Recorder φ ω → Prop}
    (hm : Asking m c post)
    (hf : ∀ a c₁, c.Asked c₁ → post a c₁ → Asking (f a) c₁ post') :
    Asking (m >>= f) c post' :=
  ensures_bind.mpr <| Ensures.mono hm
    (fun a c₁ ⟨h, hp⟩ => Ensures.mono (hf a c₁ h hp) (fun _ _ h' => ⟨h.trans h'.1, h'.2⟩)
      fun _ _ h' => ⟨h.trans h'.1, h'.2⟩)
    fun _ _ h => h

end Asking

/-- A handle that has been got is kept. -/
theorem Handled.asking {m : Conversion φ (ω × Array (Event φ)) String} {role : Role}
    {name : String} (h : Handled c m role name) :
    Asking m c fun handle c' => c'.handles.find? name = some handle := by
  refine Ensures.mono h ?_ ?_
  · rintro handle _ (⟨hh, rfl⟩ | ⟨hh, w, e, hg, rfl⟩)
    · exact ⟨.refl _, hh⟩
    · exact ⟨.grant hh hg, by simp⟩
  · rintro e _ ⟨-, ⟨rfl, -, rfl⟩ | ⟨-, w, k, ha, rfl⟩⟩
    · exact ⟨.refl _, fun h => h.elim⟩
    · exact ⟨.call ha (Event.grant_error k e), fun _ => .record c w k e⟩

/-- A font that has been loaded under a name is used under the handle of the name. -/
def Loaded (c : Recorder φ ω) (name : String) (f : LoadedFont φ) : Prop :=
  c.handles.find? name = some f.handle ∧ c.fonts.find? name = some f.font

theorem Loaded.asked {c' : Recorder φ ω} {name : String} {f : LoadedFont φ} (h : Loaded c name f)
    (ha : c.Asked c') : Loaded c' name f :=
  ⟨ha.handles _ _ h.1, ha.fonts _ _ h.2⟩

theorem asking_font (name : String) :
    Asking (font env.recorded name) c fun f c' => Loaded c' name f := by
  refine (handled_resourceHandle env c name .font).asking.bind fun handle c₁ _ hh => ?_
  simp only [Asking, ensures_bind, ensures_get]
  cases hf : c₁.fonts.find? name with
  | some f => exact ⟨.refl c₁, hh, hf⟩
  | none =>
    refine ensures_bind.mpr ((ensures_resource name .font c₁).mono ?_ ?_)
    · rintro r _ ⟨rfl, hr, hk⟩
      refine ensures_bind.mpr (ensures_call env (fun f w => ?_) fun e w => ?_)
      · exact ⟨.load hf ⟨r, hr, hk⟩, hh, (Table.find?_insert ..).trans (if_pos rfl)⟩
      · exact ⟨.call trivial rfl, fun _ => .record _ w _ e⟩
    · rintro e _ ⟨rfl, rfl, -⟩
      exact ⟨.refl _, fun h => h.elim⟩

end Conversion

end PageScript
